/-
The text of an address (`internal/crypto/address.go`), byte by byte: what
`ParseAddress` accepts, and how far `String` undoes it. Handlers take such a
text from a URL, where it can be any bytes.
-/
import Drana.PostText
import Drana.Rpc
import Drana.Run
import Drana.Lib.Hex

namespace Drana

open Except (throwIf wrapErr)

variable {E : Env} {s : GoString} {a : Address}

namespace Crypto

/-- The bytes of `AddressPrefix`. -/
def prefixBytes : List UInt8 := utf8Encode addressPrefix

/-- `(Address) String`. -/
def addressString (a : Address) : GoString where
  bytes := prefixBytes ++ Hex.encodeToString a.toList
  fits := by
    rw [List.length_append, Hex.length_encodeToString, Vector.length_toList]
    decide

def parseAddress (E : Env) (s : GoString) : Except String Address := do
  throwIf (s.length < prefixBytes.length) "address too short"
  throwIf (s.bytes.take prefixBytes.length ≠ prefixBytes) ("address must start with \"" ++ addressPrefix ++ "\"")
  let hexPart := s.bytes.drop prefixBytes.length
  let b ← wrapErr ("invalid hex in address: " ++ ·) (Hex.decodeString hexPart)
  throwIf (b.length ≠ 24) s!"address hex must be 24 bytes, got {b.length}"
  let addr : Address := ByteArr.copyFrom b
  addr.validate E
  return addr

/-! ## What it accepts -/

/-- The prefix and 48 digits, of whose bytes the last four are the checksum of the first twenty. -/
def IsAddressText (E : Env) (s : GoString) : Prop :=
  ∃ digits, s.bytes = prefixBytes ++ digits ∧ digits.length = 48 ∧ (∀ d ∈ digits, Hex.IsDigit d) ∧
    (Hex.bytesOf digits).drop 20 = addressChecksum E ((Hex.bytesOf digits).take 20)

/-- A text with the part behind the prefix in lower case. -/
def lowerHexPart (s : GoString) : List UInt8 :=
  s.bytes.take prefixBytes.length ++ (s.bytes.drop prefixBytes.length).map Hex.lower

theorem validate_ok_iff : a.validate E = .ok () ↔ a.toList.drop 20 = addressChecksum E (a.toList.take 20) := by
  rw [Address.validate, Except.throwIf_ok_iff, ne_eq, not_not]

/-- The bytes copied are those of the address. -/
theorem copied_iff {b : List UInt8} : b.length = 24 ∧ Address.validate E (ByteArr.copyFrom b) = .ok () ∧
    ByteArr.copyFrom b = a ↔
    b = a.toList ∧ a.validate E = .ok () := by
  constructor
  · rintro ⟨hlen, hv, rfl⟩
    exact ⟨(ByteArr.toList_copyFrom hlen).symm, hv⟩
  · rintro ⟨rfl, hv⟩
    rw [ByteArr.copyFrom_toList]
    exact ⟨by simp, hv, rfl⟩

theorem parseAddress_ok_iff : parseAddress E s = .ok a ↔
    ∃ digits, s.bytes = prefixBytes ++ digits ∧ Hex.decodeString digits = .ok a.toList ∧ a.validate E = .ok () := by
  simp only [parseAddress, Except.bind_ok_iff, Except.throwIf_ok_iff, Except.wrapErr_ok_iff, Except.pure_ok_iff, not_not]
  constructor
  · rintro ⟨-, hlong, -, hpre, b, hb, -, hlen, u, hv, hcopied⟩
    obtain ⟨rfl, hvalid⟩ := copied_iff.mp ⟨hlen, hv, hcopied⟩
    refine ⟨_, ?_, hb, hvalid⟩
    conv_lhs => rw [← List.take_append_drop prefixBytes.length s.bytes, hpre]
  · rintro ⟨digits, hs, hb, hv⟩
    obtain ⟨hlen, hv, hcopied⟩ := copied_iff.mpr ⟨rfl, hv⟩
    have hlong : prefixBytes.length ≤ s.length := by
      rw [GoString.length, hs, List.length_append]
      exact Nat.le_add_right _ _
    refine ⟨(), Nat.not_lt.mpr hlong, (), ?_, a.toList, ?_, (), hlen, (), hv, hcopied⟩
    · rw [hs, List.take_left]
    · rw [hs, List.drop_left]
      exact hb

theorem parseAddress_isAddressText (h : parseAddress E s = .ok a) : IsAddressText E s := by
  obtain ⟨digits, hs, hb, hv⟩ := parseAddress_ok_iff.mp h
  obtain ⟨hdigits, -, hbytes⟩ := Hex.decodeString_eq_ok_iff.mp hb
  have hlen := Hex.decodeString_length hb
  refine ⟨digits, hs, ?_, hdigits, ?_⟩
  · rw [hlen]
    simp
  · rw [← hbytes]
    exact validate_ok_iff.mp hv

theorem IsAddressText.parseAddress (h : IsAddressText E s) : ∃ a, parseAddress E s = .ok a := by
  obtain ⟨digits, hs, hlen, hdigits, hsum⟩ := h
  have hb : Hex.decodeString digits = .ok (Hex.bytesOf digits) := Hex.decodeString_eq_ok_iff.mpr ⟨hdigits, by omega, rfl⟩
  have hsize := Hex.decodeString_length hb
  have hlist : (ByteArr.copyFrom (Hex.bytesOf digits) : Address).toList = Hex.bytesOf digits :=
    ByteArr.toList_copyFrom (by omega)
  refine ⟨ByteArr.copyFrom (Hex.bytesOf digits), parseAddress_ok_iff.mpr ⟨digits, hs, ?_, validate_ok_iff.mpr ?_⟩⟩
  · rw [hlist]
    exact hb
  · rw [hlist]
    exact hsum

/-- What is read is written back in lower case. -/
theorem addressString_of_parse (h : parseAddress E s = .ok a) : (addressString a).bytes = lowerHexPart s := by
  obtain ⟨digits, hs, hb, -⟩ := parseAddress_ok_iff.mp h
  rw [lowerHexPart, hs, List.take_left, List.drop_left, Hex.decodeString_ok_iff.mp hb]
  rfl

/-- What is written is read back, if its checksum is right. -/
theorem parseAddress_addressString_ok_iff {a' : Address} :
    parseAddress E (addressString a) = .ok a' ↔ a' = a ∧ a.validate E = .ok () := by
  rw [parseAddress_ok_iff]
  constructor
  · rintro ⟨digits, hs, hb, hv⟩
    obtain rfl := List.append_cancel_left hs
    rw [Hex.decodeString_encodeToString] at hb
    obtain rfl := ByteArr.toList_inj (Except.ok.inj hb)
    exact ⟨rfl, hv⟩
  · rintro ⟨rfl, hv⟩
    exact ⟨_, rfl, Hex.decodeString_encodeToString _, hv⟩

/-- **An address has one text up to the case of its digits**: the texts that
are read are the prefix and 48 digits with a right checksum, what is read is
written in lower case, and what is written is read if its checksum is right. -/
theorem address_text_canonical (E : Env) :
    (∀ s, (∃ a, parseAddress E s = .ok a) ↔ IsAddressText E s) ∧
    (∀ s a, parseAddress E s = .ok a → (addressString a).bytes = lowerHexPart s) ∧
    ∀ a : Address,
      (a.toList.drop 20 = addressChecksum E (a.toList.take 20) → parseAddress E (addressString a) = .ok a) ∧
      (a.toList.drop 20 ≠ addressChecksum E (a.toList.take 20) → ∃ e, parseAddress E (addressString a) = .error e) := by
  refine ⟨fun s => ⟨fun ⟨a, h⟩ => parseAddress_isAddressText h, IsAddressText.parseAddress⟩,
    fun s a => addressString_of_parse,
    fun a => ⟨fun hsum => ?_, fun hsum => ?_⟩⟩
  · exact parseAddress_addressString_ok_iff.mpr ⟨rfl, validate_ok_iff.mpr hsum⟩
  · cases hp : parseAddress E (addressString a) with
    | error e => exact ⟨e, rfl⟩
    | ok a' => exact absurd (validate_ok_iff.mp (parseAddress_addressString_ok_iff.mp hp).2) hsum

/-- An address in upper case is read, and written in lower case; with a wrong checksum it is written, and not read. -/
theorem address_text_canonical_upper : ∃ (s : GoString) (broken : Address),
    parseAddress Sample.env s = .ok (Sample.address 0xAB) ∧ (addressString (Sample.address 0xAB)).bytes = lowerHexPart s ∧
      addressString (Sample.address 0xAB) ≠ s ∧
      parseAddress Sample.env (addressString (Sample.address 0xAB)) = .ok (Sample.address 0xAB) ∧
      ∃ e, parseAddress Sample.env (addressString broken) = .error e := by
  have hread : parseAddress Sample.env ⟨prefixBytes ++ (List.replicate 24 [65, 66]).flatten, by decide⟩ =
      .ok (Sample.address 0xAB) := by decide
  obtain ⟨-, hwritten, hback⟩ := address_text_canonical Sample.env
  exact ⟨_, ByteArr.copyFrom (List.replicate 23 0xAB), hread, hwritten _ _ hread, by decide, (hback _).1 (by decide),
    (hback _).2 (by decide)⟩

/-! ## Addresses as texts -/

theorem textParse_ok_iff {s : String} : Drana.parseAddress E s = .ok a ↔
    ∃ cs, s.toList = addressPrefix.toList ++ cs ∧ hexBytes cs = some a.toList ∧ a.validate E = .ok () := by
  simp only [Drana.parseAddress, Except.bind_ok_iff, Except.throwIf_ok_iff, Except.orThrow_ok_iff, Except.pure_ok_iff,
    ne_eq, not_not]
  constructor
  · rintro ⟨-, -, -, hpre, b, hb, -, hlen, u, hv, hcopied⟩
    obtain ⟨rfl, hvalid⟩ := copied_iff.mp ⟨hlen, hv, hcopied⟩
    refine ⟨_, ?_, hb, hvalid⟩
    conv_lhs => rw [← List.take_append_drop 6 s.toList, hpre]
  · rintro ⟨cs, hs, hb, hv⟩
    obtain ⟨hlen, hv, hcopied⟩ := copied_iff.mpr ⟨rfl, hv⟩
    have hsize : ¬ s.utf8ByteSize < 6 := by
      obtain rfl : s = addressPrefix ++ String.ofList cs :=
        String.toList_inj.mp (by rw [hs, String.toList_append, String.toList_ofList])
      rw [String.utf8ByteSize_append, show addressPrefix.utf8ByteSize = 6 from rfl]
      omega
    refine ⟨(), hsize, (), ?_, a.toList, ?_, (), hlen, (), hv, hcopied⟩
    · rw [hs, List.take_left' addressPrefix_length]
    · rw [hs, List.drop_left' addressPrefix_length]
      exact hb

/-- **The two readers agree** on every text: that of bytes accepts its encoding, as the same address. -/
theorem parseAddress_ofText {s : String} {t : GoString} (h : GoString.ofText s = some t) :
    Drana.parseAddress E s = .ok a ↔ parseAddress E t = .ok a := by
  have hbytes : t.bytes = encodeChars s.toList := GoString.ofText_bytes h
  have happend (digits : List UInt8) (hdigits : ∀ d ∈ digits, d < 128) :
      encodeChars (addressPrefix.toList ++ asciiChars digits) = prefixBytes ++ digits := by
    rw [encodeChars, List.flatMap_append, encode_asciiChars hdigits]
    rfl
  rw [textParse_ok_iff, parseAddress_ok_iff]
  constructor
  · rintro ⟨cs, hs, hb, hv⟩
    obtain ⟨digits, hascii, rfl⟩ := exists_asciiChars (hexBytes_ascii hb)
    rw [Hex.hexBytes_asciiChars, Except.toOption_eq_some_iff] at hb
    exact ⟨digits, by rw [hbytes, hs, happend digits hascii], hb, hv⟩
  · rintro ⟨digits, hs, hb, hv⟩
    have hascii : ∀ d ∈ digits, d < 128 := fun d hd => ((Hex.decodeString_eq_ok_iff.mp hb).1 d hd).ascii
    rw [hbytes, ← happend digits hascii] at hs
    refine ⟨asciiChars digits, encodeChars_injective hs, ?_, hv⟩
    rw [Hex.hexBytes_asciiChars, Except.toOption_eq_some_iff]
    exact hb

end Crypto

end Drana

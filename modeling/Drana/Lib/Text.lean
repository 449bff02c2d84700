/-
Texts that carry bytes and numbers: `encoding/hex`, `strconv.ParseUint`, and
UTF-8. A Lean `String` is a well-formed Unicode text, such as a JSON string.
-/
import Drana.Lib.Bytes
import Drana.Lib.Except

/-! ## Hexadecimal -/

/-- The value of a hexadecimal digit of either case. -/
def hexValue (c : Char) : Option Nat :=
  if '0' ≤ c ∧ c ≤ '9' then some (c.toNat - 48)
  else if 'a' ≤ c ∧ c ≤ 'f' then some (c.toNat - 87)
  else if 'A' ≤ c ∧ c ≤ 'F' then some (c.toNat - 55)
  else none

def hexBytes : List Char → Option (List UInt8)
  | [] => some []
  | [_] => none
  | c :: d :: cs => do
    let hi ← hexValue c
    let lo ← hexValue d
    let rest ← hexBytes cs
    return UInt8.ofNat (hi * 16 + lo) :: rest

/-- `hex.DecodeString`. -/
def hexDecode (s : String) : Option (List UInt8) := hexBytes s.toList

theorem hexValue_digitChar : ∀ n < 16, hexValue (Nat.digitChar n) = some n := by decide

theorem hexBytes_encode (b : List UInt8) : hexBytes (hexEncode b).toList = some b := by
  simp only [hexEncode, String.toList_ofList]
  induction b with
  | nil => rfl
  | cons x b ih =>
    have hx := x.toNat_lt
    have hhi := hexValue_digitChar (x.toNat / 16) (by omega)
    have hlo := hexValue_digitChar (x.toNat % 16) (by omega)
    have hbyte : UInt8.ofNat (x.toNat / 16 * 16 + x.toNat % 16) = x := by
      rw [show x.toNat / 16 * 16 + x.toNat % 16 = x.toNat by omega, UInt8.ofNat_toNat]
    simp only [List.flatMap_cons, List.cons_append, List.nil_append, hexBytes, hhi, hlo, ih, hbyte,
      Option.bind_eq_bind, Option.bind_some, Option.pure_def]

@[simp] theorem hexDecode_encode (b : List UInt8) : hexDecode (hexEncode b) = some b := hexBytes_encode b

theorem hexEncode_injective : Function.Injective hexEncode := by
  intro a b h
  have ha := hexDecode_encode a
  rw [h, hexDecode_encode] at ha
  exact (Option.some.inj ha).symm

theorem hexBytes_length {cs : List Char} {b : List UInt8} (h : hexBytes cs = some b) :
    cs.length = 2 * b.length := by
  induction cs using hexBytes.induct generalizing b with
  | case1 =>
    cases h
    rfl
  | case2 c => cases h
  | case3 c d cs ih =>
    simp only [hexBytes, Option.bind_eq_bind, Option.bind_eq_some_iff, Option.pure_def, Option.some.injEq] at h
    obtain ⟨hi, -, lo, -, rest, hrest, rfl⟩ := h
    have := ih hrest
    simp only [List.length_cons]
    omega

theorem length_hexEncode (b : List UInt8) : (hexEncode b).toList.length = 2 * b.length :=
  hexBytes_length (hexBytes_encode b)

/-! ## Decimal numbers -/

/-- `strconv.ParseUint(s, 10, 64)`. -/
def parseUint (s : String) : Option UInt64 :=
  let n := Nat.ofDigitChars 10 s.toList 0
  if s.toList ≠ [] ∧ s.toList.all Char.isDigit = true ∧ n < 2 ^ 64 then some (UInt64.ofNat n) else none

/-- Decimal digits, as `strconv.FormatUint(n, 10)` and JavaScript's `String(n)` write them. -/
def formatUint (n : Nat) : String := n.repr

theorem parseUint_format {n : Nat} (h : n < 2 ^ 64) : parseUint (formatUint n) = some (UInt64.ofNat n) := by
  have hne : (formatUint n).toList ≠ [] := by simp [formatUint]
  have hdigits : (formatUint n).toList.all Char.isDigit = true := by
    simp only [formatUint, Nat.toList_repr, List.all_eq_true]
    intro c hc
    exact Nat.isDigit_of_mem_toDigits (by decide) (by decide) hc
  have hn : Nat.ofDigitChars 10 (formatUint n).toList 0 = n := by simp [formatUint]
  simp only [parseUint, hn]
  rw [if_pos ⟨hne, hdigits, h⟩]

@[simp] theorem parseUint_format_toNat (v : UInt64) : parseUint (formatUint v.toNat) = some v := by
  rw [parseUint_format v.toNat_lt, UInt64.ofNat_toNat]

/-! ## UTF-8 -/

/-- The UTF-8 encoding of a text. -/
def utf8Encode (s : String) : List UInt8 := s.toList.flatMap String.utf8EncodeChar

theorem length_utf8EncodeChar_le (c : Char) : (String.utf8EncodeChar c).length ≤ 4 := by
  rw [String.length_utf8EncodeChar]
  exact Char.utf8Size_le_four c

theorem utf8Encode_length_le (s : String) : (utf8Encode s).length ≤ 4 * s.toList.length := by
  unfold utf8Encode
  induction s.toList with
  | nil => simp
  | cons c cs ih =>
    have := length_utf8EncodeChar_le c
    simp only [List.flatMap_cons, List.length_append, List.length_cons]
    omega

/-! ## ASCII -/

theorem utf8EncodeChar_ascii {c : Char} (h : c.toNat < 128) : String.utf8EncodeChar c = [UInt8.ofNat c.toNat] := by
  have hval : c.val.toNat ≤ 127 := Nat.le_of_lt_succ h
  rw [String.utf8EncodeChar]
  simp only [if_pos hval]
  rfl

/-- The characters of ASCII bytes. -/
def asciiChars (b : List UInt8) : List Char := b.map fun x => Char.ofNat x.toNat

theorem asciiChars_cons {x : UInt8} {b : List UInt8} : asciiChars (x :: b) = Char.ofNat x.toNat :: asciiChars b := rfl

/-- An ASCII byte is the encoding of its character. -/
theorem encode_asciiChars {b : List UInt8} (h : ∀ x ∈ b, x < 128) : (asciiChars b).flatMap String.utf8EncodeChar = b := by
  induction b with
  | nil => rfl
  | cons x b ih =>
    obtain ⟨hx, hb⟩ := List.forall_mem_cons.mp h
    have hx : x.toNat < 128 := UInt8.lt_iff_toNat_lt.mp hx
    have hvalid : x.toNat.isValidChar := by unfold Nat.isValidChar; omega
    have hchar : (Char.ofNat x.toNat).toNat = x.toNat := by
      rw [Char.ofNat, dif_pos hvalid]
      rfl
    rw [asciiChars_cons, List.flatMap_cons, ih hb, utf8EncodeChar_ascii (hchar.symm ▸ hx), hchar, UInt8.ofNat_toNat]
    rfl

theorem exists_asciiChars {cs : List Char} (h : ∀ c ∈ cs, c.toNat < 128) :
    ∃ b : List UInt8, (∀ x ∈ b, x < 128) ∧ cs = asciiChars b := by
  have hbyte : ∀ c ∈ cs, (UInt8.ofNat c.toNat).toNat = c.toNat := by
    intro c hc
    have := h c hc
    rw [UInt8.toNat_ofNat', Nat.mod_eq_of_lt (by omega)]
  refine ⟨cs.map fun c => UInt8.ofNat c.toNat, fun x hx => ?_, ?_⟩
  · obtain ⟨c, hc, rfl⟩ := List.mem_map.mp hx
    rw [UInt8.lt_iff_toNat_lt, hbyte c hc]
    exact h c hc
  · rw [asciiChars, List.map_map]
    refine (List.map_id cs).symm.trans (List.map_congr_left fun c hc => ?_)
    rw [Function.comp_apply, hbyte c hc, Char.ofNat_toNat]
    rfl

/-- Digits are ASCII. -/
theorem hexValue_lt {c : Char} {n : Nat} (h : hexValue c = some n) : c.toNat < 128 := by
  have hle {d : Char} (h : c ≤ d) (hd : d.toNat < 128) : c.toNat < 128 :=
    Nat.lt_of_le_of_lt (UInt32.le_iff_toNat_le.mp h) hd
  unfold hexValue at h
  split at h
  · next hc => exact hle hc.2 (by decide)
  split at h
  · next hc => exact hle hc.2 (by decide)
  split at h
  · next hc => exact hle hc.2 (by decide)
  · cases h

theorem hexBytes_ascii {cs : List Char} {b : List UInt8} (h : hexBytes cs = some b) : ∀ c ∈ cs, c.toNat < 128 := by
  fun_induction hexBytes cs generalizing b with
  | case1 => exact List.forall_mem_nil _
  | case2 c => cases h
  | case3 c d cs ih =>
    simp only [Option.bind_eq_bind, Option.bind_eq_some_iff, Option.pure_def, Option.some.injEq] at h
    obtain ⟨hi, hc, lo, hd, rest, hrest, -⟩ := h
    exact List.forall_mem_cons.mpr ⟨hexValue_lt hc, List.forall_mem_cons.mpr ⟨hexValue_lt hd, ih hrest⟩⟩

/-! ## Go strings -/

namespace GoString

/-- Bytes as a Go string, if there are no more of them than one can hold. -/
def ofBytes (b : List UInt8) : Option GoString :=
  if h : b.length < 2 ^ 63 then some ⟨b, h⟩ else none

/-- A text as a Go string. -/
def ofText (s : String) : Option GoString := ofBytes (utf8Encode s)

theorem ofBytes_eq {b : List UInt8} {t : GoString} (h : b = t.bytes) : ofBytes b = some t := by
  subst h
  exact dif_pos t.fits

theorem ofBytes_bytes {b : List UInt8} {t : GoString} (h : ofBytes b = some t) : t.bytes = b := by
  unfold ofBytes at h
  split at h
  · cases h
    rfl
  · cases h

theorem ofText_bytes {s : String} {t : GoString} (h : ofText s = some t) : t.bytes = utf8Encode s :=
  ofBytes_bytes h

@[simp] theorem ofText_empty : ofText "" = some .empty := rfl

end GoString

/-
`encoding/hex` on bytes. What `DecodeString` accepts is, up to the case of its
letters, what `EncodeToString` writes.
-/
import Drana.Lib.Text

namespace Hex

open Except (orThrow)

/-! ## Digits -/

/-- `0`–`9`, `a`–`f` and `A`–`F`. -/
def IsDigit (b : UInt8) : Prop := (48 ≤ b ∧ b ≤ 57) ∨ (97 ≤ b ∧ b ≤ 102) ∨ (65 ≤ b ∧ b ≤ 70)

/-- The value of a digit of either case. -/
def value (b : UInt8) : Option Nat :=
  if 48 ≤ b ∧ b ≤ 57 then some (b.toNat - 48)
  else if 97 ≤ b ∧ b ≤ 102 then some (b.toNat - 87)
  else if 65 ≤ b ∧ b ≤ 70 then some (b.toNat - 55)
  else none

/-- The digit that is written. -/
def digit (n : Nat) : UInt8 := UInt8.ofNat (if n < 10 then 48 + n else 87 + n)

/-- A letter of upper case in lower case, any other byte as it is. -/
def lower (b : UInt8) : UInt8 := if 65 ≤ b ∧ b ≤ 90 then b + 32 else b

/-- What holds of 256 numbers holds of every byte. -/
theorem forall_byte {P : UInt8 → Prop} (h : ∀ n < 256, P (UInt8.ofNat n)) (b : UInt8) : P b := by
  have hb := h b.toNat b.toNat_lt
  rw [UInt8.ofNat_toNat] at hb
  exact hb

theorem value_isSome_iff {b : UInt8} : (value b).isSome = true ↔ IsDigit b := by
  unfold value IsDigit
  split
  · next h => exact iff_of_true rfl (.inl h)
  split
  · next h => exact iff_of_true rfl (.inr (.inl h))
  split
  · next h => exact iff_of_true rfl (.inr (.inr h))
  · next h₁ h₂ h₃ => exact iff_of_false (by simp) fun h => h.elim h₁ fun h => h.elim h₂ h₃

theorem value_lt {b : UInt8} {n : Nat} (h : value b = some n) : n < 16 := by
  have hlt : ∀ b, ∀ n ∈ value b, n < 16 := forall_byte (by decide +kernel)
  exact hlt b n h

/-- A digit is, in lower case, the digit that is written. -/
theorem value_eq_some_iff {b : UInt8} {n : Nat} (hn : n < 16) : value b = some n ↔ lower b = digit n := by
  have hdigit : ∀ b, ∀ n < 16, (value b = some n ↔ lower b = digit n) := forall_byte (by decide +kernel)
  exact hdigit b n hn

theorem lower_digit : ∀ n < 16, lower (digit n) = digit n := by decide

theorem value_eq_hexValue (b : UInt8) : value b = hexValue (Char.ofNat b.toNat) :=
  forall_byte (P := fun b => value b = hexValue (Char.ofNat b.toNat)) (by decide +kernel) b

/-! ## Encoding -/

/-- `hex.EncodeToString`. -/
def encodeToString (src : List UInt8) : List UInt8 := src.flatMap fun b => [digit (b.toNat / 16), digit (b.toNat % 16)]

theorem encodeToString_cons {b : UInt8} {src : List UInt8} :
    encodeToString (b :: src) = digit (b.toNat / 16) :: digit (b.toNat % 16) :: encodeToString src := rfl

theorem length_encodeToString (src : List UInt8) : (encodeToString src).length = 2 * src.length := by
  induction src with
  | nil => rfl
  | cons b src ih =>
    rw [encodeToString_cons, List.length_cons, List.length_cons, ih, List.length_cons]
    omega

theorem map_lower_encodeToString (src : List UInt8) : (encodeToString src).map lower = encodeToString src := by
  induction src with
  | nil => rfl
  | cons b src ih =>
    have hb := b.toNat_lt
    rw [encodeToString_cons, List.map_cons, List.map_cons, ih, lower_digit _ (by omega), lower_digit _ (by omega)]

/-! ## Decoding -/

/-- `fmt`'s `%#U` of a byte: its code point, and the character if it is one that prints. -/
def unicode (b : UInt8) : String :=
  "U+00" ++ (hexEncode [b]).toUpper ++
    if (0x20 ≤ b ∧ b < 0x7F) ∨ (0xA1 ≤ b ∧ b ≠ 0xAD) then " '" ++ (Char.ofNat b.toNat).toString ++ "'" else ""

/-- The text of a `hex.InvalidByteError`. -/
def invalidByteError (b : UInt8) : String := "encoding/hex: invalid byte: " ++ unicode b

/-- The text of `hex.ErrLength`. -/
def errLength : String := "encoding/hex: odd length hex string"

/-- `hex.DecodeString`. -/
def decodeString : List UInt8 → Except String (List UInt8)
  | [] => .ok []
  | [p] => do
    -- An invalid byte is reported before the odd length.
    let _ ← orThrow (value p) (invalidByteError p)
    .error errLength
  | p :: q :: src => do
    let a ← orThrow (value p) (invalidByteError p)
    let b ← orThrow (value q) (invalidByteError q)
    let dst ← decodeString src
    return UInt8.ofNat (a * 16 + b) :: dst

/-- **What is decoded** is what is encoded, in any case. -/
theorem decodeString_ok_iff {src dst : List UInt8} : decodeString src = .ok dst ↔ src.map lower = encodeToString dst := by
  fun_induction decodeString src generalizing dst with
  | case1 =>
    cases dst with
    | nil => exact iff_of_true rfl rfl
    | cons b dst => exact iff_of_false (by simp) (by simp [encodeToString_cons])
  | case2 p =>
    refine iff_of_false (by simp) fun h => ?_
    have hlen := congrArg List.length h
    rw [length_encodeToString] at hlen
    simp only [List.length_map, List.length_singleton] at hlen
    omega
  | case3 p q src ih =>
    simp only [Except.bind_ok_iff, Except.orThrow_ok_iff, Except.pure_ok_iff, ih]
    constructor
    · rintro ⟨a, hp, b, hq, rest, hrest, rfl⟩
      have ha := value_lt hp
      have hb := value_lt hq
      have hbyte : (UInt8.ofNat (a * 16 + b)).toNat = a * 16 + b := by
        rw [UInt8.toNat_ofNat', Nat.mod_eq_of_lt (by omega)]
      rw [encodeToString_cons, hbyte, show (a * 16 + b) / 16 = a by omega, show (a * 16 + b) % 16 = b by omega, ← hrest,
        ← (value_eq_some_iff ha).mp hp, ← (value_eq_some_iff hb).mp hq]
      rfl
    · intro h
      cases dst with
      | nil => cases h
      | cons x dst =>
        have hx := x.toNat_lt
        rw [encodeToString_cons] at h
        simp only [List.map_cons, List.cons.injEq] at h
        obtain ⟨hp, hq, hrest⟩ := h
        refine ⟨_, (value_eq_some_iff (by omega)).mpr hp, _, (value_eq_some_iff (by omega)).mpr hq, dst, hrest, ?_⟩
        rw [show x.toNat / 16 * 16 + x.toNat % 16 = x.toNat by omega, UInt8.ofNat_toNat]

theorem decodeString_encodeToString (src : List UInt8) : decodeString (encodeToString src) = .ok src :=
  decodeString_ok_iff.mpr (map_lower_encodeToString src)

theorem decodeString_length {src dst : List UInt8} (h : decodeString src = .ok dst) : src.length = 2 * dst.length := by
  rw [← length_encodeToString, ← decodeString_ok_iff.mp h, List.length_map]

/-- The bytes that pairs of digits spell. -/
def bytesOf : List UInt8 → List UInt8
  | p :: q :: src => UInt8.ofNat ((value p).getD 0 * 16 + (value q).getD 0) :: bytesOf src
  | _ => []

/-- **What is accepted** is digits, an even number of them, and is read pair by pair. -/
theorem decodeString_eq_ok_iff {src dst : List UInt8} : decodeString src = .ok dst ↔
    (∀ b ∈ src, IsDigit b) ∧ src.length % 2 = 0 ∧ dst = bytesOf src := by
  fun_induction decodeString src generalizing dst with
  | case1 =>
    constructor
    · rintro ⟨⟩
      exact ⟨List.forall_mem_nil _, rfl, rfl⟩
    · rintro ⟨-, -, rfl⟩
      rfl
  | case2 p => simp
  | case3 p q src ih =>
    simp only [Except.bind_ok_iff, Except.orThrow_ok_iff, Except.pure_ok_iff, ih, List.forall_mem_cons,
      ← value_isSome_iff, Option.isSome_iff_exists, List.length_cons, bytesOf]
    constructor
    · rintro ⟨a, hp, b, hq, rest, ⟨hdigits, heven, rfl⟩, rfl⟩
      refine ⟨⟨⟨a, hp⟩, ⟨b, hq⟩, hdigits⟩, by omega, ?_⟩
      rw [hp, hq]
      rfl
    · rintro ⟨⟨⟨a, hp⟩, ⟨b, hq⟩, hdigits⟩, heven, rfl⟩
      refine ⟨a, hp, b, hq, _, ⟨hdigits, by omega, rfl⟩, ?_⟩
      rw [hp, hq]
      rfl

/-! ## Texts -/

theorem IsDigit.ascii {b : UInt8} (h : IsDigit b) : b < 128 := by
  simp only [IsDigit, UInt8.le_iff_toNat_le, UInt8.lt_iff_toNat_lt, UInt8.toNat_ofNat] at h ⊢
  omega

theorem hexBytes_asciiChars (src : List UInt8) : hexBytes (asciiChars src) = (decodeString src).toOption := by
  fun_induction decodeString src with
  | case1 => rfl
  | case2 p =>
    cases value p <;> rfl
  | case3 p q src ih =>
    rw [asciiChars_cons, asciiChars_cons, hexBytes, ih, ← value_eq_hexValue, ← value_eq_hexValue]
    cases value p with
    | none => rfl
    | some a =>
      cases value q with
      | none => rfl
      | some b => cases decodeString src <;> rfl

end Hex

/-
What the web client reads in the JSON of a node and of the indexer
(`src/drana-app/src/api/numericReviver.ts`). A `uint64` is written as a string;
the reviver makes numbers of strings of digits, whichever field they stand in.
-/
import Drana.PostText

namespace Drana

/-! ## JavaScript -/

/-- What `JSON.parse` makes of a text. All the numbers here are whole. -/
inductive JsValue
  | bool (b : Bool)
  | number (n : Int)
  | string (s : String)
  | array (l : List JsValue)
  | object (ms : List (String × JsValue))

/-- The double nearest to `n`, of two the even one. -/
def toNumber (n : Nat) : Nat :=
  let ulp := 2 ^ (n.log2 - 52)
  if 2 * (n % ulp) < ulp ∨ 2 * (n % ulp) = ulp ∧ n / ulp % 2 = 0 then n / ulp * ulp else (n / ulp + 1) * ulp

/-- `length`: a character past U+FFFF counts twice. -/
def jsLength (s : String) : Nat := (s.toList.map fun c => if 0xFFFF < c.toNat then 2 else 1).sum

def numericReviver : JsValue → JsValue
  | .string s =>
    if s.toList ≠ [] ∧ s.toList.all Char.isDigit = true ∧ 0 < jsLength s ∧ jsLength s ≤ 20 then
      let n := toNumber (Nat.ofDigitChars 10 s.toList 0)
      -- `Number.isSafeInteger`
      if n < 2 ^ 53 then .number n else .string s
    else .string s
  | v => v

-- `JSON.parse` with the reviver, which sees a value after what is in it.
mutual

def revive : JsValue → JsValue
  | .array l => numericReviver (.array (reviveItems l))
  | .object ms => numericReviver (.object (reviveMembers ms))
  | v => numericReviver v

def reviveItems : List JsValue → List JsValue
  | [] => []
  | v :: l => revive v :: reviveItems l

def reviveMembers : List (String × JsValue) → List (String × JsValue)
  | [] => []
  | (name, v) :: ms => (name, revive v) :: reviveMembers ms

end

/-! ## Fields of a response -/

/-- A field under its Go type. A `uint64` has the option `string`. -/
inductive Field
  | string (s : String)
  | uint64 (n : UInt64)
  | int (n : Int)
  | bool (b : Bool)

/-- What `JSON.parse` makes of a field. -/
def Field.parsed : Field → JsValue
  | .string s => .string s
  | .uint64 n => .string (formatUint n.toNat)
  | .int n => .number (n.sign * toNumber n.natAbs)
  | .bool b => .bool b

def Field.isEmpty : Field → Bool
  | .string s => s = ""
  | .uint64 n => n = 0
  | .int n => n = 0
  | .bool b => !b

abbrev Fields := List (String × Field)

/-- A field with `omitempty`. -/
def omittingEmpty (name : String) (field : Field) : Fields := if field.isEmpty then [] else [(name, field)]

def Fields.parsed (o : Fields) : JsValue := .object (o.map fun e => (e.1, e.2.parsed))

/-! ## What is read -/

/-- A string is read as it is, a `uint64` below 2^53 as that number. -/
def Field.ReadAs : Field → JsValue → Prop
  | .string s, v => v = .string s
  | .uint64 n, v => n.toNat < 2 ^ 53 → v = .number n.toNat
  | _, _ => True

/-- The response survives: every field is there and read as it should be. -/
def Survives (o : Fields) : Prop :=
  ∃ ms, revive o.parsed = .object ms ∧ List.Forall₂ (fun e m => m.1 = e.1 ∧ e.2.ReadAs m.2) o ms

/-! ## Numerals -/

/-- Digits, twenty at most, of a number below 2^53. -/
def NumeralText (s : String) : Prop :=
  s.toList ≠ [] ∧ s.toList.all Char.isDigit = true ∧ s.toList.length ≤ 20 ∧ Nat.ofDigitChars 10 s.toList 0 < 2 ^ 53

instance {s : String} : Decidable (NumeralText s) := inferInstanceAs (Decidable (_ ∧ _))

theorem toNumber_of_lt {n : Nat} (h : n < 2 ^ 53) : toNumber n = n := by
  have hlog : n.log2 - 52 = 0 := by
    rcases Nat.eq_zero_or_pos n with rfl | hpos
    · decide
    · have := (Nat.log2_lt (by omega)).mpr h
      omega
  simp only [toNumber, hlog]
  simp [Nat.mod_one]

/-- What is past the safe integers is not rounded back to them. -/
theorem le_toNumber {n : Nat} (h : 2 ^ 53 ≤ n) : 2 ^ 53 ≤ toNumber n := by
  have hne : n ≠ 0 := by omega
  have hlog : 53 ≤ n.log2 := (Nat.le_log2 hne).mpr h
  have hlo : 2 ^ 52 * 2 ^ (n.log2 - 52) ≤ n := by
    calc 2 ^ 52 * 2 ^ (n.log2 - 52) = 2 ^ n.log2 := by rw [← Nat.pow_add, show 52 + (n.log2 - 52) = n.log2 by omega]
      _ ≤ n := Nat.log2_self_le hne
  have hulp : 2 ^ 1 ≤ 2 ^ (n.log2 - 52) := Nat.pow_le_pow_right (by decide) (by omega)
  have hquot : 2 ^ 52 ≤ n / 2 ^ (n.log2 - 52) := (Nat.le_div_iff_mul_le (by omega)).mpr hlo
  have hdown : 2 ^ 52 * 2 ^ 1 ≤ n / 2 ^ (n.log2 - 52) * 2 ^ (n.log2 - 52) := Nat.mul_le_mul hquot hulp
  have hup : n / 2 ^ (n.log2 - 52) * 2 ^ (n.log2 - 52) ≤ (n / 2 ^ (n.log2 - 52) + 1) * 2 ^ (n.log2 - 52) :=
    Nat.mul_le_mul_right _ (Nat.le_succ _)
  simp only [toNumber]
  split <;> omega

theorem toNumber_lt_iff {n : Nat} : toNumber n < 2 ^ 53 ↔ n < 2 ^ 53 := by
  constructor
  · intro h
    by_contra hle
    have := le_toNumber (Nat.le_of_not_lt hle)
    omega
  · intro h
    rwa [toNumber_of_lt h]

theorem jsLength_digits {s : String} (h : s.toList.all Char.isDigit = true) : jsLength s = s.toList.length := by
  rw [List.all_eq_true] at h
  rw [jsLength]
  generalize s.toList = cs at h ⊢
  induction cs with
  | nil => rfl
  | cons c cs ih =>
    rw [List.forall_mem_cons] at h
    have hsmall : ¬ 0xFFFF < c.toNat := by
      have hc : 48 ≤ c.toNat ∧ c.toNat ≤ 57 := by simpa [Char.isDigit, UInt32.le_iff_toNat_le] using h.1
      omega
    rw [List.map_cons, List.sum_cons, if_neg hsmall, ih h.2, List.length_cons, Nat.add_comm]

theorem numericReviver_string {s : String} :
    numericReviver (.string s) = if NumeralText s then .number (Nat.ofDigitChars 10 s.toList 0) else .string s := by
  rw [numericReviver]
  by_cases hdigits : s.toList ≠ [] ∧ s.toList.all Char.isDigit = true
  · have hpos : 0 < s.toList.length := List.length_pos_of_ne_nil hdigits.1
    have hlen := jsLength_digits hdigits.2
    by_cases hlong : s.toList.length ≤ 20
    · rw [if_pos ⟨hdigits.1, hdigits.2, by omega, by omega⟩]
      by_cases hsafe : Nat.ofDigitChars 10 s.toList 0 < 2 ^ 53
      · rw [if_pos (show NumeralText s from ⟨hdigits.1, hdigits.2, hlong, hsafe⟩)]
        simp only [toNumber_of_lt hsafe, if_pos hsafe]
      · rw [if_neg (fun h : NumeralText s => hsafe h.2.2.2)]
        exact if_neg (mt toNumber_lt_iff.mp hsafe)
    · rw [if_neg (fun h => hlong (by omega)), if_neg (fun h : NumeralText s => hlong h.2.2.1)]
  · rw [if_neg (fun h => hdigits ⟨h.1, h.2.1⟩), if_neg (fun h : NumeralText s => hdigits ⟨h.1, h.2.1⟩)]

@[simp] theorem readAs_string {s : String} : (Field.string s).ReadAs (numericReviver (Field.string s).parsed) ↔
    ¬ NumeralText s := by
  rw [Field.parsed, numericReviver_string]
  split
  · next h => exact iff_of_false (fun heq : JsValue.number _ = JsValue.string s => by cases heq) fun hnot => hnot h
  · next h => exact iff_of_true rfl h

/-- A number below 2^53 is written in sixteen digits at most. -/
theorem numeralText_formatUint {n : Nat} (h : n < 2 ^ 53) : NumeralText (formatUint n) := by
  have hlist : (formatUint n).toList = Nat.toDigits 10 n := by simp [formatUint]
  refine ⟨by rw [hlist]; simp, ?_, ?_, by rw [hlist]; simpa using h⟩
  · rw [hlist, List.all_eq_true]
    intro c hc
    exact Nat.isDigit_of_mem_toDigits (by decide) (by decide) hc
  · rw [hlist]
    exact (Nat.length_toDigits_le_iff (by decide) (by decide)).mpr (by omega)

@[simp] theorem readAs_uint64 {n : UInt64} : (Field.uint64 n).ReadAs (numericReviver (Field.uint64 n).parsed) := by
  intro h
  rw [Field.parsed, numericReviver_string, if_pos (numeralText_formatUint h)]
  simp [formatUint]

/-- The same of a string of the chain, byte by byte. -/
def Numeral (s : GoString) : Prop :=
  s.bytes ≠ [] ∧ (∀ b ∈ s.bytes, 48 ≤ b ∧ b ≤ 57) ∧ s.bytes.length ≤ 20 ∧
    s.bytes.foldl (fun n b => 10 * n + (b.toNat - 48)) 0 < 2 ^ 53

instance {s : GoString} : Decidable (Numeral s) := inferInstanceAs (Decidable (_ ∧ _))

section

variable {c : Char} {cs : List Char}

theorem isDigit_iff : c.isDigit = true ↔ 48 ≤ c.toNat ∧ c.toNat ≤ 57 := by
  simp [Char.isDigit, UInt32.le_iff_toNat_le]

theorem utf8EncodeChar_digit (h : c.isDigit = true) : String.utf8EncodeChar c = [UInt8.ofNat c.toNat] := by
  obtain ⟨-, hle⟩ := isDigit_iff.mp h
  exact utf8EncodeChar_ascii (Nat.lt_of_le_of_lt hle (by decide))

/-- The bytes of a character that is no digit are not all digits. -/
theorem isDigit_of_encode (h : ∀ b ∈ String.utf8EncodeChar c, 48 ≤ b ∧ b ≤ 57) : c.isDigit = true := by
  have hbytes : ∀ n, UInt8.ofNat n ∈ String.utf8EncodeChar c → n < 256 → 48 ≤ n ∧ n ≤ 57 := by
    intro n hn hlt
    obtain ⟨hlo, hhi⟩ := h _ hn
    rw [UInt8.le_iff_toNat_le, ofNat_toNat_of_lt hlt] at hlo hhi
    exact ⟨hlo, hhi⟩
  refine isDigit_iff.mpr ?_
  simp only [String.utf8EncodeChar] at hbytes
  split at hbytes
  · next hval => exact hbytes c.val.toNat (by simp) (by omega)
  split at hbytes
  · have := hbytes (c.val.toNat / 64 % 32 + 192) (by simp) (by omega)
    omega
  split at hbytes
  · have := hbytes (c.val.toNat / 4096 % 16 + 224) (by simp) (by omega)
    omega
  · have := hbytes (c.val.toNat / 262144 % 8 + 240) (by simp) (by omega)
    omega

theorem digits_iff : (∀ b ∈ encodeChars cs, 48 ≤ b ∧ b ≤ 57) ↔ cs.all Char.isDigit = true := by
  rw [List.all_eq_true]
  constructor
  · intro h c hc
    exact isDigit_of_encode fun b hb => h b (List.mem_flatMap.mpr ⟨c, hc, hb⟩)
  · intro h b hb
    obtain ⟨c, hc, hb⟩ := List.mem_flatMap.mp hb
    have hdigit := isDigit_iff.mp (h c hc)
    rw [utf8EncodeChar_digit (h c hc), List.mem_singleton] at hb
    rw [hb, UInt8.le_iff_toNat_le, UInt8.le_iff_toNat_le, ofNat_toNat_of_lt (by omega)]
    exact hdigit

theorem encodeChars_digits (h : cs.all Char.isDigit = true) : encodeChars cs = cs.map fun c => UInt8.ofNat c.toNat := by
  rw [List.all_eq_true] at h
  induction cs with
  | nil => rfl
  | cons c cs ih =>
    rw [List.forall_mem_cons] at h
    rw [encodeChars_cons, utf8EncodeChar_digit h.1, ih h.2]
    rfl

theorem ofDigitChars_eq (h : cs.all Char.isDigit = true) (n : Nat) :
    Nat.ofDigitChars 10 cs n = (encodeChars cs).foldl (fun n b => 10 * n + (b.toNat - 48)) n := by
  rw [encodeChars_digits h, List.foldl_map, Nat.ofDigitChars]
  rw [List.all_eq_true] at h
  refine List.foldl_ext _ _ n fun m c hc => ?_
  have hdigit := isDigit_iff.mp (h c hc)
  rw [ofNat_toNat_of_lt (by omega)]
  rfl

end

theorem numeral_iff {s : GoString} (h : validString s = true) : Numeral s ↔ NumeralText (jsonText s) := by
  have hbytes : s.bytes = encodeChars (jsonText s).toList := (utf8Encode_jsonText h).symm
  rw [Numeral, hbytes, NumeralText]
  by_cases hdigits : (jsonText s).toList.all Char.isDigit = true
  · rw [← ofDigitChars_eq hdigits, digits_iff, encodeChars_digits hdigits]
    simp
  · exact iff_of_false (fun hn => hdigits (digits_iff.mp hn.2.1)) fun hn => hdigits hn.2.1

/-! ## What survives -/

theorem reviveMembers_eq (ms : List (String × JsValue)) : reviveMembers ms = ms.map fun m => (m.1, revive m.2) := by
  induction ms with
  | nil => rfl
  | cons m ms ih => rw [reviveMembers, ih, List.map_cons]

theorem reviveItems_eq (l : List JsValue) : reviveItems l = l.map revive := by
  induction l with
  | nil => rfl
  | cons v l ih => rw [reviveItems, ih, List.map_cons]

/-- The items of a list are read as they are by themselves. -/
theorem revive_array (l : List JsValue) : revive (.array l) = .array (l.map revive) := by
  rw [revive, reviveItems_eq]
  rfl

@[simp] theorem readAs_int {n : Int} {v : JsValue} : (Field.int n).ReadAs v := trivial

@[simp] theorem readAs_bool {b : Bool} {v : JsValue} : (Field.bool b).ReadAs v := trivial

theorem revive_parsed (o : Fields) : revive o.parsed = .object (o.map fun e => (e.1, numericReviver e.2.parsed)) := by
  have hone : ∀ e : String × Field, revive e.2.parsed = numericReviver e.2.parsed := by
    rintro ⟨name, field⟩
    cases field <;> rfl
  rw [Fields.parsed, revive, reviveMembers_eq, List.map_map]
  exact congrArg JsValue.object (List.map_congr_left fun e _ => Prod.ext rfl (hone e))

/-- Each field is read by itself. -/
theorem survives_iff {o : Fields} : Survives o ↔ ∀ e ∈ o, e.2.ReadAs (numericReviver e.2.parsed) := by
  have hfields : List.Forall₂ (fun e m => m.1 = e.1 ∧ e.2.ReadAs m.2) o
      (o.map fun e => (e.1, numericReviver e.2.parsed)) ↔
      ∀ e ∈ o, e.2.ReadAs (numericReviver e.2.parsed) := by
    rw [List.forall₂_map_right_iff, List.forall₂_same]
    simp
  rw [Survives, revive_parsed]
  constructor
  · rintro ⟨ms, hms, h⟩
    rw [← JsValue.object.inj hms] at h
    exact hfields.mp h
  · exact fun h => ⟨_, rfl, hfields.mpr h⟩

@[simp] theorem survives_nil : Survives [] := survives_iff.mpr fun _ he => absurd he List.not_mem_nil

@[simp] theorem survives_cons {name : String} {field : Field} {o : Fields} :
    Survives ((name, field) :: o) ↔ field.ReadAs (numericReviver field.parsed) ∧ Survives o := by
  rw [survives_iff, survives_iff, List.forall_mem_cons]

@[simp] theorem survives_append {o o' : Fields} : Survives (o ++ o') ↔ Survives o ∧ Survives o' := by
  rw [survives_iff, survives_iff, survives_iff, List.forall_mem_append]

/-- An empty field is read as it is, where it is written at all. -/
@[simp] theorem survives_omittingEmpty {name : String} {field : Field} :
    Survives (omittingEmpty name field) ↔ field.ReadAs (numericReviver field.parsed) := by
  rw [omittingEmpty]
  split
  · next hempty =>
    refine iff_of_true survives_nil ?_
    cases field with
    | string s =>
      obtain rfl : s = "" := by simpa [Field.isEmpty] using hempty
      exact readAs_string.mpr (by decide)
    | uint64 n => exact readAs_uint64
    | int n => trivial
    | bool b => trivial
  · simp

end Drana

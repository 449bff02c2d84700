/-
The grammar of names (`ValidateName` of `internal/validation/name.go`): what
its rune loop and its checks for underscores admit, byte by byte.
-/
import Drana.Names
import Drana.Utf8
import Drana.Lib.Runs

namespace Drana

variable {name : GoString} {b : UInt8} {bs : List UInt8}

/-! ## The grammar -/

/-- `a`–`z` and `0`–`9`. -/
def LetterOrDigit (b : UInt8) : Prop := (97 ≤ b ∧ b ≤ 122) ∨ (48 ≤ b ∧ b ≤ 57)

instance : Decidable (LetterOrDigit b) := inferInstanceAs (Decidable (_ ∨ _))

/-- Three to twenty bytes: runs of letters and digits, separated by single underscores. -/
structure NameGrammar (name : GoString) : Prop where
  long : 3 ≤ name.length
  short : name.length ≤ 20
  runs : List.Separated 95 LetterOrDigit name.bytes

/-! ## The loop over the runes -/

theorem isNameRune_iff : isNameRune b.toNat = true ↔ LetterOrDigit b ∨ b = 95 := by
  simp only [isNameRune, LetterOrDigit, Bool.or_eq_true, Bool.and_eq_true, decide_eq_true_eq, UInt8.le_iff_toNat_le,
    ← UInt8.toNat_inj]
  rfl

theorem decodeRune_byte (h : b < 0x80) : decodeRune (b :: bs) = (some b.toNat, 1) := if_pos h

/-- A rune below 128 is one byte. -/
theorem decodeRune_ascii {c n : Nat} (h : decodeRune (b :: bs) = (some c, n)) (hc : c < 128) : b.toNat = c ∧ n = 1 := by
  obtain ⟨hpos, hle, henc⟩ := decodeRune_encode h
  have hvalid : c.isValidChar := by unfold Nat.isValidChar; omega
  rw [utf8EncodeChar_ofNat hvalid, if_pos (by omega)] at henc
  obtain ⟨n, rfl⟩ := Nat.exists_eq_add_of_lt hpos
  simp only [Nat.zero_add, List.take_succ_cons, List.cons.injEq] at henc
  obtain ⟨rfl, hrest⟩ := henc
  have hlen := congrArg List.length hrest
  simp only [List.length_nil, List.length_take, List.length_cons] at hlen hle
  exact ⟨ofNat_toNat_of_lt (by omega), by omega⟩

theorem isNameRune_lt {c : Nat} (h : isNameRune c = true) : c < 128 := by
  simp only [isNameRune, Bool.or_eq_true, Bool.and_eq_true, decide_eq_true_eq] at h
  omega

theorem checkNameRunes_ok_iff {i : Nat} : checkNameRunes (rangeRunes i 0 bs) = .ok () ↔ ∀ b ∈ bs, LetterOrDigit b ∨
    b = 95 := by
  induction bs generalizing i with
  | nil => simp [rangeRunes, checkNameRunes]
  | cons b bs ih =>
    rw [rangeRunes, List.forall_mem_cons, ← isNameRune_iff]
    simp only [checkNameRunes, Except.bind_ok_iff, Except.throwIf_ok_iff, Bool.not_eq_true, Bool.not_eq_false']
    rcases hd : decodeRune (b :: bs) with ⟨r, n⟩
    constructor
    · rintro ⟨-, hrune, hrest⟩
      cases r with
      | none => cases hrune
      | some c =>
        obtain ⟨rfl, rfl⟩ := decodeRune_ascii hd (isNameRune_lt hrune)
        exact ⟨hrune, ih.mp hrest⟩
    · rintro ⟨hb, hbs⟩
      have hsmall : b < 0x80 := UInt8.lt_iff_toNat_lt.mpr (isNameRune_lt hb)
      rw [decodeRune_byte hsmall] at hd
      cases hd
      exact ⟨(), hb, ih.mpr hbs⟩

/-! ## Underscores -/

theorem hasDoubleUnderscore_eq_false : hasDoubleUnderscore bs = false ↔ bs.IsChain fun a b => ¬ (a = 95 ∧ b = 95) := by
  fun_induction hasDoubleUnderscore bs with
  | case1 a b bs ih =>
    rw [List.isChain_cons_cons, ← ih]
    simp
  | case2 bs hnot =>
    refine iff_of_true rfl ?_
    match bs, hnot with
    | [], _ => exact .nil
    | [a], _ => exact .singleton a
    | a :: b :: bs, hnot => exact absurd rfl (hnot a b bs)

/-! ## Names -/

theorem NameGrammar.of_validateName (h : validateName name = .ok ()) : NameGrammar name := by
  simp only [validateName, Except.bind_ok_iff, Except.throwIf_ok_iff] at h
  obtain ⟨-, hlong, -, hshort, u, hrunes, -, hhead, -, hlast, hdouble⟩ := h
  have hlong := Nat.not_lt.mp hlong
  refine ⟨hlong, Nat.not_lt.mp hshort, (List.separated_iff (by decide)).mpr ⟨?_, ?_, ?_, ?_⟩⟩
  · rintro hnil
    rw [GoString.length, hnil] at hlong
    cases hlong
  · exact checkNameRunes_ok_iff.mp hrunes
  · exact List.trimmed_eq_iff.mpr ⟨hhead, hlast⟩
  · exact hasDoubleUnderscore_eq_false.mp (Bool.eq_false_iff.mpr hdouble)

theorem NameGrammar.validateName (h : NameGrammar name) : validateName name = .ok () := by
  obtain ⟨-, hmem, htrimmed, hchain⟩ := (List.separated_iff (by decide)).mp h.runs
  obtain ⟨hhead, hlast⟩ := List.trimmed_eq_iff.mp htrimmed
  simp only [Drana.validateName, Except.bind_ok_iff, Except.throwIf_ok_iff]
  exact ⟨(), Nat.not_lt.mpr h.long, (), Nat.not_lt.mpr h.short, (), checkNameRunes_ok_iff.mpr hmem, (), hhead, (), hlast,
    Bool.eq_false_iff.mp (hasDoubleUnderscore_eq_false.mpr hchain)⟩

/-- **What `ValidateName` admits** is the grammar, whatever the bytes. -/
theorem validateName_ok_iff : validateName name = .ok () ↔ NameGrammar name :=
  ⟨.of_validateName, NameGrammar.validateName⟩

example : NameGrammar ⟨"a_b".toUTF8.data.toList, by decide⟩ := .of_validateName (by decide)

/-- Every account's name on a chain is of the grammar, or there is none. -/
theorem names_grammar {E : Env} {params : GenesisConfig} {bs : List ((Nat → RangeOrder) × Block)} {ws₀ ws : WorldState}
    {a : Address} {acct : Account} (h₀ : initializeState E params = .ok ws₀)
    (h : applyBlocks E .go params ws₀ bs = .ok ws)
    (hg : ws.getAccount a = some acct) : acct.name = .empty ∨ NameGrammar acct.name := by
  obtain ⟨hi, hnames⟩ := (keeps_namesSatisfy (P := NameGrammar) fun _ _ hv => .of_validateName hv).invariant
    ⟨initializeState_indexed h₀, initializeState_namesSatisfy h₀⟩ h
  by_cases hne : acct.name = .empty
  · exact .inl hne
  · exact .inr (hnames _ a (hi.found a acct hg hne))

end Drana

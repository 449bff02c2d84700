/-
Go's UTF-8 decoder (`DecodeRuneInString`, `range` over a string) against
Lean's encoder: a valid string is the encoding of its runes.
-/
import Drana.Validation
import Drana.Lib.Text

namespace Drana

/-! ## Valid strings are texts -/

theorem utf8EncodeChar_ofNat {c : Nat} (hc : c.isValidChar) :
    String.utf8EncodeChar (Char.ofNat c) =
      if c ≤ 0x7f then [UInt8.ofNat c]
      else if c ≤ 0x7ff then [UInt8.ofNat (c / 64 % 0x20 + 0xc0), UInt8.ofNat (c % 0x40 + 0x80)]
      else if c ≤ 0xffff then
        [UInt8.ofNat (c / 4096 % 0x10 + 0xe0), UInt8.ofNat (c / 64 % 0x40 + 0x80), UInt8.ofNat (c % 0x40 + 0x80)]
      else
        [UInt8.ofNat (c / 262144 % 0x08 + 0xf0), UInt8.ofNat (c / 4096 % 0x40 + 0x80),
          UInt8.ofNat (c / 64 % 0x40 + 0x80), UInt8.ofNat (c % 0x40 + 0x80)] := by
  have hlt : c < 2 ^ 32 := by
    rcases hc with h | ⟨_, h⟩ <;> omega
  have hv : (Char.ofNat c).val.toNat = c := by
    rw [Char.ofNat, dif_pos hc]
    rfl
  simp only [String.utf8EncodeChar, hv]

theorem byte_eq {b : UInt8} {n : Nat} (h : n = b.toNat) : UInt8.ofNat n = b := by
  rw [h, UInt8.ofNat_toNat]

theorem toNat_le {a b : UInt8} (h : decide (a ≤ b) = true) : a.toNat ≤ b.toNat :=
  UInt8.le_iff_toNat_le.mp (of_decide_eq_true h)

theorem isCont_toNat {b : UInt8} (h : isCont b = true) : 128 ≤ b.toNat ∧ b.toNat < 192 := by
  simp only [isCont, Bool.and_eq_true] at h
  have hlo := toNat_le h.1
  have hhi := toNat_le h.2
  simp only [UInt8.toNat_ofNat] at hlo hhi
  omega

/-- The bytes of a rune that is decoded are its encoding. -/
theorem decodeRune_encode {bs : List UInt8} {c n : Nat} (h : decodeRune bs = (some c, n)) :
    0 < n ∧ n ≤ bs.length ∧ String.utf8EncodeChar (Char.ofNat c) = bs.take n := by
  revert h
  fun_cases decodeRune bs
  case case2 b₀ rest h₀ =>
    intro h
    simp only [Prod.mk.injEq, Option.some.injEq] at h
    obtain ⟨rfl, rfl⟩ := h
    have h₀ : b₀.toNat < 128 := UInt8.lt_iff_toNat_lt.mp h₀
    have hc : b₀.toNat.isValidChar := by unfold Nat.isValidChar; omega
    refine ⟨by omega, by simp, ?_⟩
    rw [utf8EncodeChar_ofNat hc, if_pos (by omega), UInt8.ofNat_toNat]
    rfl
  case case3 b₀ h₀ h₁ b₁ rest hcont =>
    intro h
    simp only [Prod.mk.injEq, Option.some.injEq] at h
    obtain ⟨rfl, rfl⟩ := h
    simp only [Bool.and_eq_true] at h₁
    have hlo := toNat_le h₁.1
    have hhi := toNat_le h₁.2
    have h₂ := isCont_toNat hcont
    simp only [UInt8.toNat_ofNat] at hlo hhi
    have hc : ((b₀.toNat - 192) * 64 + (b₁.toNat - 128)).isValidChar := by unfold Nat.isValidChar; omega
    refine ⟨by omega, by simp, ?_⟩
    rw [utf8EncodeChar_ofNat hc, if_neg (by omega), if_pos (by omega)]
    simp only [List.take_succ_cons, List.take_zero]
    rw [byte_eq (b := b₀) (by omega), byte_eq (b := b₁) (by omega)]
  case case6 b₀ h₀ h₁ h₂ b₁ b₂ rest hcont =>
    intro h
    simp only [Prod.mk.injEq, Option.some.injEq] at h
    obtain ⟨rfl, rfl⟩ := h
    simp only [Bool.and_eq_true] at h₂ hcont
    obtain ⟨⟨hl, hr⟩, hc⟩ := hcont
    have hlo := toNat_le h₂.1
    have hhi := toNat_le h₂.2
    have h₁lo := toNat_le hl
    have h₁hi := toNat_le hr
    have hcont := isCont_toNat hc
    simp only [UInt8.toNat_ofNat, apply_ite UInt8.toNat, ← UInt8.toNat_inj] at hlo hhi h₁lo h₁hi
    have hv : ((b₀.toNat - 224) * 4096 + (b₁.toNat - 128) * 64 + (b₂.toNat - 128)).isValidChar ∧
        2048 ≤ (b₀.toNat - 224) * 4096 + (b₁.toNat - 128) * 64 + (b₂.toNat - 128) ∧
        128 ≤ b₁.toNat ∧ b₁.toNat < 192 := by
      unfold Nat.isValidChar
      split at h₁lo <;> split at h₁hi <;> omega
    refine ⟨by omega, by simp, ?_⟩
    rw [utf8EncodeChar_ofNat hv.1, if_neg (by omega), if_neg (by omega), if_pos (by omega)]
    simp only [List.take_succ_cons, List.take_zero]
    rw [byte_eq (b := b₀) (by omega), byte_eq (b := b₁) (by omega), byte_eq (b := b₂) (by omega)]
  case case9 b₀ h₀ h₁ h₂ h₃ b₁ b₂ b₃ rest hcont =>
    intro h
    simp only [Prod.mk.injEq, Option.some.injEq] at h
    obtain ⟨rfl, rfl⟩ := h
    simp only [Bool.and_eq_true] at h₃ hcont
    obtain ⟨⟨⟨hl, hr⟩, hc⟩, hd⟩ := hcont
    have hlo := toNat_le h₃.1
    have hhi := toNat_le h₃.2
    have h₁lo := toNat_le hl
    have h₁hi := toNat_le hr
    have hcont := isCont_toNat hc
    have hcont' := isCont_toNat hd
    simp only [UInt8.toNat_ofNat, apply_ite UInt8.toNat, ← UInt8.toNat_inj] at hlo hhi h₁lo h₁hi
    have hv : ((b₀.toNat - 240) * 262144 + (b₁.toNat - 128) * 4096 + (b₂.toNat - 128) * 64 +
          (b₃.toNat - 128)).isValidChar ∧
        65536 ≤ (b₀.toNat - 240) * 262144 + (b₁.toNat - 128) * 4096 + (b₂.toNat - 128) * 64 + (b₃.toNat - 128) ∧
        128 ≤ b₁.toNat ∧ b₁.toNat < 192 := by
      unfold Nat.isValidChar
      split at h₁lo <;> split at h₁hi <;> omega
    refine ⟨by omega, by simp, ?_⟩
    rw [utf8EncodeChar_ofNat hv.1, if_neg (by omega), if_neg (by omega), if_neg (by omega)]
    simp only [List.take_succ_cons, List.take_zero]
    rw [byte_eq (b := b₀) (by omega), byte_eq (b := b₁) (by omega), byte_eq (b := b₂) (by omega),
      byte_eq (b := b₃) (by omega)]
  all_goals
    intro h
    cases h

/-- The character of a rune; U+FFFD for an invalid byte. -/
def runeChar (r : Nat × Option Nat) : Char := Char.ofNat (r.2.getD runeError)

theorem rangeRunes_skip {skip : Nat} {bs : List UInt8} (i : Nat) (h : skip ≤ bs.length) :
    rangeRunes i skip bs = rangeRunes (i + skip) 0 (bs.drop skip) := by
  induction skip generalizing i bs with
  | zero => rfl
  | succ skip ih =>
    cases bs with
    | nil => cases h
    | cons b bs =>
      rw [rangeRunes, ih (i + 1) (by simpa using h), List.drop_succ_cons]
      congr 1
      omega

theorem encode_rangeRunes {n i : Nat} {bs : List UInt8} (hn : bs.length ≤ n)
    (h : (rangeRunes i 0 bs).all (·.2.isSome) = true) :
    ((rangeRunes i 0 bs).map runeChar).flatMap String.utf8EncodeChar = bs := by
  induction n generalizing i bs with
  | zero =>
    obtain rfl := List.length_eq_zero_iff.mp (Nat.le_zero.mp hn)
    rfl
  | succ n ih =>
    cases bs with
    | nil => rfl
    | cons b bs =>
      rw [rangeRunes] at h ⊢
      rcases hd : decodeRune (b :: bs) with ⟨r, k⟩
      rw [hd] at h
      simp only [List.all_cons, Bool.and_eq_true] at h
      obtain ⟨c, rfl⟩ := Option.isSome_iff_exists.mp h.1
      obtain ⟨hpos, hle, henc⟩ := decodeRune_encode hd
      simp only [List.length_cons] at hn hle
      have hskip := rangeRunes_skip (i + 1) (show k - 1 ≤ bs.length by omega)
      rw [hskip] at h
      have hrest := ih (by rw [List.length_drop]; omega) h.2
      have htake : (b :: bs).take k = b :: bs.take (k - 1) := by
        obtain ⟨k, rfl⟩ := Nat.exists_eq_add_of_lt hpos
        simp
      simp only [hskip, List.map_cons, List.flatMap_cons, hrest, runeChar, Option.getD_some, henc, htake,
        List.cons_append, List.take_append_drop]

/-- The text of a Go string, as `json.Marshal` writes it: invalid bytes become U+FFFD. -/
def jsonText (s : GoString) : String := String.ofList ((rangeRunes 0 0 s.bytes).map runeChar)

theorem utf8Encode_jsonText {s : GoString} (h : validString s = true) : utf8Encode (jsonText s) = s.bytes := by
  simp only [utf8Encode, jsonText, String.toList_ofList]
  exact encode_rangeRunes le_rfl h

/-- A valid string is read back as it was. -/
theorem ofText_jsonText {s : GoString} (h : validString s = true) : GoString.ofText (jsonText s) = some s :=
  GoString.ofBytes_eq (utf8Encode_jsonText h)

/-! ## Texts are valid -/

theorem ofNat_toNat_of_lt {n : Nat} (h : n < 256) : (UInt8.ofNat n).toNat = n := by
  rw [UInt8.toNat_ofNat', Nat.mod_eq_of_lt h]

theorem isCont_of_toNat {b : UInt8} {n : Nat} (h : b.toNat = n % 64 + 128) : isCont b = true := by
  simp only [isCont, Bool.and_eq_true, decide_eq_true_eq, UInt8.le_iff_toNat_le, UInt8.toNat_ofNat]
  omega

/-- An encoded character is decoded as itself. -/
theorem decodeRune_append (c : Char) (r : List UInt8) :
    decodeRune (String.utf8EncodeChar c ++ r) = (some c.val.toNat, (String.utf8EncodeChar c).length) := by
  obtain ⟨v, hv⟩ : ∃ v, c.val.toNat = v := ⟨_, rfl⟩
  have hvalid : v.isValidChar := hv ▸ c.valid
  simp only [Nat.isValidChar] at hvalid
  simp only [String.utf8EncodeChar, hv]
  split
  · next h =>
    have h₀ := ofNat_toNat_of_lt (show v < 256 by omega)
    generalize UInt8.ofNat v = b₀ at h₀ ⊢
    have hc₀ : b₀ < 128 := by simp only [UInt8.lt_iff_toNat_lt, UInt8.toNat_ofNat]; omega
    simp only [List.cons_append, List.nil_append, decodeRune, hc₀, if_true, h₀]
    rfl
  have hc : (v % 64 + 128) < 256 := by omega
  split
  · next h h' =>
    have h₀ := ofNat_toNat_of_lt (show v / 64 % 32 + 192 < 256 by omega)
    have h₁ := ofNat_toNat_of_lt hc
    generalize UInt8.ofNat (v / 64 % 32 + 192) = b₀ at h₀ ⊢
    generalize UInt8.ofNat (v % 64 + 128) = b₁ at h₁ ⊢
    have hb₀ : ¬ b₀ < 128 := by simp only [UInt8.lt_iff_toNat_lt, UInt8.toNat_ofNat]; omega
    have hb₁ : (decide (0xC2 ≤ b₀) && decide (b₀ ≤ 0xDF)) = true := by
      simp only [Bool.and_eq_true, decide_eq_true_eq, UInt8.le_iff_toNat_le, UInt8.toNat_ofNat]; omega
    have hval : (b₀.toNat - 0xC0) * 64 + (b₁.toNat - 0x80) = v := by omega
    simp only [List.cons_append, List.nil_append, decodeRune, hb₀, hb₁, isCont_of_toNat h₁, if_true, if_false, hval]
    rfl
  split
  · next h h' h'' =>
    have h₀ := ofNat_toNat_of_lt (show v / 4096 % 16 + 224 < 256 by omega)
    have h₁ := ofNat_toNat_of_lt (show v / 64 % 64 + 128 < 256 by omega)
    have h₂ := ofNat_toNat_of_lt hc
    generalize UInt8.ofNat (v / 4096 % 16 + 224) = b₀ at h₀ ⊢
    generalize UInt8.ofNat (v / 64 % 64 + 128) = b₁ at h₁ ⊢
    generalize UInt8.ofNat (v % 64 + 128) = b₂ at h₂ ⊢
    have hb₀ : ¬ b₀ < 128 := by simp only [UInt8.lt_iff_toNat_lt, UInt8.toNat_ofNat]; omega
    have hb₁ : ¬ (decide (0xC2 ≤ b₀) && decide (b₀ ≤ 0xDF)) = true := by
      simp only [Bool.and_eq_true, decide_eq_true_eq, UInt8.le_iff_toNat_le, UInt8.toNat_ofNat]; omega
    have hb₂ : (decide (0xE0 ≤ b₀) && decide (b₀ ≤ 0xEF)) = true := by
      simp only [Bool.and_eq_true, decide_eq_true_eq, UInt8.le_iff_toNat_le, UInt8.toNat_ofNat]; omega
    have hb₃ : (decide ((if b₀ = 0xE0 then 0xA0 else 0x80) ≤ b₁) &&
        decide (b₁ ≤ (if b₀ = 0xED then 0x9F else 0xBF)) && isCont b₂) = true := by
      simp only [isCont_of_toNat h₂, Bool.and_true, Bool.and_eq_true, decide_eq_true_eq, UInt8.le_iff_toNat_le,
        apply_ite UInt8.toNat, ← UInt8.toNat_inj, UInt8.toNat_ofNat]
      constructor <;> split <;> omega
    have hval : (b₀.toNat - 0xE0) * 4096 + (b₁.toNat - 0x80) * 64 + (b₂.toNat - 0x80) = v := by omega
    simp only [List.cons_append, List.nil_append, decodeRune, hb₀, hb₁, hb₂, hb₃, if_true, if_false, hval]
    rfl
  · next h h' h'' =>
    have h₀ := ofNat_toNat_of_lt (show v / 262144 % 8 + 240 < 256 by omega)
    have h₁ := ofNat_toNat_of_lt (show v / 4096 % 64 + 128 < 256 by omega)
    have h₂ := ofNat_toNat_of_lt (show v / 64 % 64 + 128 < 256 by omega)
    have h₃ := ofNat_toNat_of_lt hc
    generalize UInt8.ofNat (v / 262144 % 8 + 240) = b₀ at h₀ ⊢
    generalize UInt8.ofNat (v / 4096 % 64 + 128) = b₁ at h₁ ⊢
    generalize UInt8.ofNat (v / 64 % 64 + 128) = b₂ at h₂ ⊢
    generalize UInt8.ofNat (v % 64 + 128) = b₃ at h₃ ⊢
    have hb₀ : ¬ b₀ < 128 := by simp only [UInt8.lt_iff_toNat_lt, UInt8.toNat_ofNat]; omega
    have hb₁ : ¬ (decide (0xC2 ≤ b₀) && decide (b₀ ≤ 0xDF)) = true := by
      simp only [Bool.and_eq_true, decide_eq_true_eq, UInt8.le_iff_toNat_le, UInt8.toNat_ofNat]; omega
    have hb₂ : ¬ (decide (0xE0 ≤ b₀) && decide (b₀ ≤ 0xEF)) = true := by
      simp only [Bool.and_eq_true, decide_eq_true_eq, UInt8.le_iff_toNat_le, UInt8.toNat_ofNat]; omega
    have hb₃ : (decide (0xF0 ≤ b₀) && decide (b₀ ≤ 0xF4)) = true := by
      simp only [Bool.and_eq_true, decide_eq_true_eq, UInt8.le_iff_toNat_le, UInt8.toNat_ofNat]; omega
    have hb₄ : (decide ((if b₀ = 0xF0 then 0x90 else 0x80) ≤ b₁) &&
        decide (b₁ ≤ (if b₀ = 0xF4 then 0x8F else 0xBF)) && isCont b₂ && isCont b₃) = true := by
      simp only [isCont_of_toNat h₂, isCont_of_toNat h₃, Bool.and_true, Bool.and_eq_true, decide_eq_true_eq,
        UInt8.le_iff_toNat_le, apply_ite UInt8.toNat, ← UInt8.toNat_inj, UInt8.toNat_ofNat]
      constructor <;> split <;> omega
    have hval : (b₀.toNat - 0xF0) * 262144 + (b₁.toNat - 0x80) * 4096 + (b₂.toNat - 0x80) * 64 +
        (b₃.toNat - 0x80) = v := by omega
    simp only [List.cons_append, List.nil_append, decodeRune, hb₀, hb₁, hb₂, hb₃, hb₄, if_true, if_false, hval]
    rfl

theorem rangeRunes_encode (i : Nat) (cs : List Char) :
    (rangeRunes i 0 (cs.flatMap String.utf8EncodeChar)).all (·.2.isSome) = true := by
  induction cs generalizing i with
  | nil => rfl
  | cons c cs ih =>
    have hd := decodeRune_append c (cs.flatMap String.utf8EncodeChar)
    have hne : String.utf8EncodeChar c ≠ [] := String.utf8EncodeChar_ne_nil
    obtain ⟨b, bs, hb⟩ := List.exists_cons_of_ne_nil hne
    rw [hb, List.cons_append] at hd
    have hle : bs.length ≤ (bs ++ cs.flatMap String.utf8EncodeChar).length := by simp
    rw [List.flatMap_cons, hb, List.cons_append, rangeRunes, hd, List.length_cons, Nat.add_sub_cancel,
      rangeRunes_skip (i + 1) hle, List.drop_left]
    simp only [List.all_cons, Option.isSome_some, Bool.true_and]
    exact ih _

/-- A text is valid UTF-8. -/
theorem validString_ofText {s : String} {t : GoString} (h : GoString.ofText s = some t) : validString t = true := by
  rw [validString, GoString.ofText_bytes h]
  exact rangeRunes_encode 0 s.toList

end Drana

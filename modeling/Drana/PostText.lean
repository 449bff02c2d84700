/-
The normalization of post texts (`NormalizePostText` of
`internal/validation/text.go`), which a client applies before it signs, beside
the check of post texts that blocks make.
-/
import Drana.Lib.Runs
import Drana.Cli

namespace Drana

open Except (throwIf)

/-! ## Normalizing -/

namespace Utf8

/-- `unicode.IsSpace`: the White_Space property. An invalid byte is no space. -/
def isSpace : Option Nat → Bool
  | none => false
  | some c =>
    (9 ≤ c && c ≤ 13) || c = 32 || c = 0x85 || c = 0xA0 || c = 0x1680 || (0x2000 ≤ c && c ≤ 0x200A) || c = 0x2028 ||
      c = 0x2029 || c = 0x202F || c = 0x205F || c = 0x3000

/-- From the first rune that is no space. -/
def trimLeft (s : List UInt8) : List UInt8 :=
  match (rangeRunes 0 0 s).find? (!isSpace ·.2) with
  | some (i, _) => s.drop i
  | none => []

/-- Up to the last rune that is no space. -/
def trimRight (s : List UInt8) : List UInt8 :=
  match (rangeRunes 0 0 s).reverse.find? (!isSpace ·.2) with
  | some (i, _) => s.take (i + (decodeRune (s.drop i)).2)
  | none => []

/-- `strings.TrimSpace` -/
def trimSpace (s : List UInt8) : List UInt8 := trimRight (trimLeft s)

/-- `r == ' ' || r == '\t' || r == '\n' || r == '\r'` -/
def isBlank (r : Option Nat) : Bool := r = some 32 || r = some 9 || r = some 10 || r = some 13

/-- The loop that collapses runs of blanks, with its `prevSpace`. -/
def collapseBlanks : Bool → List (Nat × Option Nat) → List UInt8
  | _, [] => []
  | prevSpace, r :: rs =>
    if isBlank r.2 then
      if prevSpace then collapseBlanks true rs else 32 :: collapseBlanks true rs
    else String.utf8EncodeChar (runeChar r) ++ collapseBlanks false rs

/-- `NormalizePostText`, with `norm.NFC.String` as `nfc`. -/
def normalizePostText (nfc : List UInt8 → List UInt8) (raw : List UInt8) : Except String (List UInt8) := do
  let s := trimSpace (nfc raw)
  let result := collapseBlanks false (rangeRunes 0 0 s)
  throwIf (result = []) "post text is empty after normalization"
  return result

end Utf8

/-! ## Texts as characters -/

/-- The code points of a string. -/
def runes (s : List UInt8) : List (Option Nat) := (rangeRunes 0 0 s).map (·.2)

def encodeChars (cs : List Char) : List UInt8 := cs.flatMap String.utf8EncodeChar

def rune (c : Char) : Option Nat := some c.val.toNat

variable {c : Char} {cs : List Char}

theorem encodeChars_cons : encodeChars (c :: cs) = String.utf8EncodeChar c ++ encodeChars cs := List.flatMap_cons

theorem encodeChars_append {cs' : List Char} : encodeChars (cs ++ cs') = encodeChars cs ++ encodeChars cs' :=
  List.flatMap_append

theorem rangeRunes_cons (i : Nat) (c : Char) (cs : List Char) :
    rangeRunes i 0 (encodeChars (c :: cs)) =
      (i, rune c) :: rangeRunes (i + (String.utf8EncodeChar c).length) 0 (encodeChars cs) := by
  have hd := decodeRune_append c (encodeChars cs)
  obtain ⟨b, bs, hb⟩ := List.exists_cons_of_ne_nil (@String.utf8EncodeChar_ne_nil c)
  rw [hb, List.cons_append] at hd
  have hle : bs.length ≤ (bs ++ encodeChars cs).length := by simp
  rw [encodeChars_cons, hb, List.cons_append, rangeRunes, hd, List.length_cons, Nat.add_sub_cancel,
    rangeRunes_skip (i + 1) hle, List.drop_left, rune]
  congr 2
  omega

theorem map_rangeRunes (i : Nat) (cs : List Char) : (rangeRunes i 0 (encodeChars cs)).map (·.2) = cs.map rune := by
  induction cs generalizing i with
  | nil => rfl
  | cons c cs ih => rw [rangeRunes_cons, List.map_cons, ih, List.map_cons]

theorem runes_encodeChars : runes (encodeChars cs) = cs.map rune := map_rangeRunes 0 cs

theorem rune_injective : Function.Injective rune := by
  intro c d h
  exact Char.ext (UInt32.toNat_inj.mp (Option.some.inj h))

theorem encodeChars_injective : Function.Injective encodeChars := by
  intro cs cs' h
  have hr := congrArg runes h
  rw [runes_encodeChars, runes_encodeChars] at hr
  exact List.map_injective_iff.mpr rune_injective hr

theorem trimLeft_encode (cs : List Char) : Utf8.trimLeft (encodeChars cs) = encodeChars
    (cs.dropWhile (Utf8.isSpace <| rune ·)) := by
  have hfind (i : Nat) (s : List UInt8) (hs : s.drop i = encodeChars cs) :
      (match (rangeRunes i 0 (encodeChars cs)).find? (!Utf8.isSpace ·.2) with
        | some (j, _) => s.drop j
        | none => []) = encodeChars (cs.dropWhile (Utf8.isSpace <| rune ·)) := by
    induction cs generalizing i with
    | nil => rfl
    | cons c cs ih =>
      rw [rangeRunes_cons, List.find?_cons, List.dropWhile_cons]
      cases hsp : Utf8.isSpace (rune c) with
      | true =>
        have hnext : s.drop (i + (String.utf8EncodeChar c).length) = encodeChars cs := by
          rw [← List.drop_drop, hs, encodeChars_cons, List.drop_left]
        simpa [hsp] using ih _ hnext
      | false => simpa [hsp] using hs
  exact hfind 0 _ rfl

theorem rangeRunes_concat (i : Nat) (cs : List Char) (c : Char) :
    rangeRunes i 0 (encodeChars (cs ++ [c])) =
      rangeRunes i 0 (encodeChars cs) ++ [(i + (encodeChars cs).length, rune c)] := by
  induction cs generalizing i with
  | nil => exact rangeRunes_cons i c []
  | cons d cs ih =>
    rw [List.cons_append, rangeRunes_cons, ih, rangeRunes_cons, encodeChars_cons, List.length_append, ← Nat.add_assoc]
    rfl

theorem trimRight_encode (cs : List Char) : Utf8.trimRight (encodeChars cs) = encodeChars
    (cs.rdropWhile (Utf8.isSpace <| rune ·)) := by
  have hfind (s r : List UInt8) (hs : s = encodeChars cs ++ r) :
      (match (rangeRunes 0 0 (encodeChars cs)).reverse.find? (!Utf8.isSpace ·.2) with
        | some (i, _) => s.take (i + (decodeRune (s.drop i)).2)
        | none => []) = encodeChars (cs.rdropWhile (Utf8.isSpace <| rune ·)) := by
    induction cs using List.reverseRecOn generalizing r with
    | nil => rfl
    | append_singleton cs c ih =>
      have hs : s = encodeChars cs ++ (String.utf8EncodeChar c ++ r) := by
        rw [hs, encodeChars_append, List.append_assoc]
        simp [encodeChars]
      rw [rangeRunes_concat, List.reverse_append, List.reverse_singleton, List.singleton_append, List.find?_cons,
        List.rdropWhile_concat]
      cases hsp : Utf8.isSpace (rune c) with
      | true => simpa [hsp] using ih _ hs
      | false =>
        have hdrop : s.drop (encodeChars cs).length = String.utf8EncodeChar c ++ r := by rw [hs, List.drop_left]
        have htake : s.take ((encodeChars cs).length + (String.utf8EncodeChar c).length) = encodeChars (cs ++ [c]) := by
          rw [hs, ← List.append_assoc, List.take_left' (by rw [List.length_append]), encodeChars_append]
          simp [encodeChars]
        simpa [hsp, hdrop, decodeRune_append] using htake
  exact hfind _ [] (by rw [List.append_nil])

theorem trimSpace_encode (cs : List Char) : Utf8.trimSpace (encodeChars cs) = encodeChars
    (cs.trimEnds (Utf8.isSpace <| rune ·)) := by
  rw [Utf8.trimSpace, trimLeft_encode, trimRight_encode]
  rfl

theorem runeChar_rune (i : Nat) (c : Char) : runeChar (i, rune c) = c := by
  rw [runeChar, rune]
  exact Char.ofNat_toNat c

theorem collapseBlanks_encode (prevSpace : Bool) (i : Nat) (cs : List Char) :
    Utf8.collapseBlanks prevSpace (rangeRunes i 0 (encodeChars cs)) =
      encodeChars (cs.collapse (Utf8.isBlank <| rune ·) ' ' prevSpace) := by
  induction cs generalizing i prevSpace with
  | nil => rfl
  | cons c cs ih =>
    rw [rangeRunes_cons, Utf8.collapseBlanks, List.collapse]
    split
    · split
      · exact ih ..
      · rw [ih, encodeChars_cons]
        rfl
    · rw [ih, encodeChars_cons, runeChar_rune]

/-! ## Spacing -/

/-- Text that begins and ends with a character that is no whitespace, with no tabs and line breaks and no two spaces
side by side. -/
structure Spaced (s : List UInt8) : Prop where
  first : ∃ r, (runes s).head? = some r ∧ Utf8.isSpace r = false
  last : ∃ r, (runes s).getLast? = some r ∧ Utf8.isSpace r = false
  noBreak : ∀ c ∈ [9, 10, 13], some c ∉ runes s
  noDouble : ¬ [some 32, some 32] <:+: runes s

theorem isBlank_isSpace {r : Option Nat} (h : Utf8.isBlank r = true) : Utf8.isSpace r = true := by
  simp only [Utf8.isBlank, Bool.or_eq_true, decide_eq_true_eq] at h
  rcases h with ((rfl | rfl) | rfl) | rfl <;> rfl

theorem isBlank_iff : Utf8.isBlank (rune c) = true ↔ c = ' ' ∨ ∃ n ∈ [9, 10, 13], rune c = some n := by
  have hspace : rune c = some 32 ↔ c = ' ' := rune_injective.eq_iff' rfl
  simp only [Utf8.isBlank, Bool.or_eq_true, decide_eq_true_eq, hspace, List.mem_cons, List.not_mem_nil, or_false,
    exists_eq_or_imp, exists_eq_left, or_assoc]

theorem collapsed_iff : cs.Collapsed (Utf8.isBlank <| rune ·) ' ' ↔
    (∀ n ∈ [9, 10, 13], some n ∉ cs.map rune) ∧ ¬ [some 32, some 32] <:+: cs.map rune := by
  constructor
  · rintro ⟨hblank, hchain⟩
    refine ⟨fun n hn hmem => ?_, ?_⟩
    · obtain ⟨c, hc, hrune⟩ := List.mem_map.mp hmem
      have hspace := hblank c hc (isBlank_iff.mpr (.inr ⟨n, hn, hrune⟩))
      subst hspace
      cases Option.some.inj hrune
      simp at hn
    · rintro ⟨l, r, h⟩
      have hinfix : [' ', ' '].map rune <:+: cs.map rune := ⟨l, r, h⟩
      obtain ⟨t, ht, heq⟩ := List.infix_map_iff.mp hinfix
      have hdouble := hchain.infix (List.map_injective_iff.mpr rune_injective heq ▸ ht)
      exact List.isChain_pair.mp hdouble ⟨rfl, rfl⟩
  · rintro ⟨hbreak, hdouble⟩
    have hspace : ∀ c ∈ cs, Utf8.isBlank (rune c) = true → c = ' ' := by
      intro c hc hb
      rcases isBlank_iff.mp hb with h | ⟨n, hn, hrune⟩
      · exact h
      · exact absurd (List.mem_map.mpr ⟨c, hc, hrune⟩) (hbreak n hn)
    refine ⟨hspace, List.isChain_iff_forall_rel_of_append_cons_cons.mpr ?_⟩
    rintro a b l r rfl ⟨ha, hb⟩
    have ha := hspace a (by simp) ha
    have hb := hspace b (by simp) hb
    subst ha hb
    refine hdouble ⟨l.map rune, r.map rune, ?_⟩
    simp only [List.map_append, List.map_cons, List.append_assoc]
    rfl

theorem spaced_iff : Spaced (encodeChars cs) ↔
    cs ≠ [] ∧ cs.Trimmed (Utf8.isSpace <| rune ·) ∧ cs.Collapsed (Utf8.isBlank <| rune ·) ' ' := by
  rw [collapsed_iff]
  constructor
  · rintro ⟨hfirst, hlast, hbreak, hdouble⟩
    rw [runes_encodeChars] at hfirst hlast hbreak hdouble
    obtain ⟨r, hr, hfirst⟩ := hfirst
    obtain ⟨r', hr', hlast⟩ := hlast
    refine ⟨?_, ⟨fun c hc => ?_, fun c hc => ?_⟩, hbreak, hdouble⟩
    · rintro rfl
      cases hr
    · rw [List.head?_map, hc] at hr
      cases hr
      exact hfirst
    · rw [List.getLast?_map, hc] at hr'
      cases hr'
      exact hlast
  · rintro ⟨hne, ⟨hfirst, hlast⟩, hbreak, hdouble⟩
    have hhead := List.head?_eq_some_head hne
    have hend := List.getLast?_eq_getLast_of_ne_nil hne
    refine ⟨⟨rune (cs.head hne), ?_, hfirst _ hhead⟩, ⟨rune (cs.getLast hne), ?_, hlast _ hend⟩, ?_, ?_⟩
    · rw [runes_encodeChars, List.head?_map, hhead]
      rfl
    · rw [runes_encodeChars, List.getLast?_map, hend]
      rfl
    · rwa [runes_encodeChars]
    · rwa [runes_encodeChars]

/-! ## What normalizing does -/

/-- `utf8.Valid` -/
def ValidText (s : List UInt8) : Prop := (rangeRunes 0 0 s).all (·.2.isSome) = true

theorem ValidText.encodeChars (cs : List Char) : ValidText (encodeChars cs) := rangeRunes_encode 0 cs

/-- Valid text is made of characters. -/
theorem ValidText.exists_chars {s : List UInt8} (h : ValidText s) : ∃ cs, s = Drana.encodeChars cs :=
  ⟨_, (encode_rangeRunes le_rfl h).symm⟩

/-- What is assumed of the NFC library: `nfc` for `norm.NFC.String` with `norm.NFC.IsNormalString`. -/
structure NfcLaws (E : Env) (nfc : List UInt8 → List UInt8) : Prop where
  valid : ∀ s, ValidText s → ValidText (nfc s)
  normal : ∀ s, ValidText s → E.isNormalString (nfc s) = true
  unchanged : ∀ s, E.isNormalString s = true → nfc s = s
  trimSpace : ∀ s, ValidText s → E.isNormalString s = true → E.isNormalString (Utf8.trimSpace s) = true
  collapse : ∀ s, ValidText s → E.isNormalString s = true →
    E.isNormalString (Utf8.collapseBlanks false (rangeRunes 0 0 s)) = true

variable {E : Env} {nfc : List UInt8 → List UInt8}

/-- The normalization of characters. -/
def normalChars (cs : List Char) : List Char :=
  (cs.trimEnds (Utf8.isSpace <| rune ·)).collapse (Utf8.isBlank <| rune ·) ' ' false

theorem collapse_trimSpace : Utf8.collapseBlanks false (rangeRunes 0 0 (Utf8.trimSpace (encodeChars cs))) = encodeChars
    (normalChars cs) := by
  rw [trimSpace_encode, collapseBlanks_encode]
  rfl

theorem encodeChars_eq_nil : encodeChars cs = [] ↔ cs = [] := by
  constructor
  · intro h
    exact encodeChars_injective h
  · rintro rfl
    rfl

theorem normalizePostText_ok_iff {raw out : List UInt8} (h : nfc raw = encodeChars cs) :
    Utf8.normalizePostText nfc raw = .ok out ↔ normalChars cs ≠ [] ∧ encodeChars (normalChars cs) = out := by
  simp only [Utf8.normalizePostText, h, collapse_trimSpace, Except.bind_ok_iff, Except.throwIf_ok_iff, encodeChars_eq_nil,
    Except.pure_ok_iff]
  simp

theorem isSpace_rune (c : Char) : Utf8.isSpace (rune c) = isSpace c := by
  have hval : c.val.toNat = c.toNat := rfl
  simp only [Utf8.isSpace, rune, isSpace, hval, List.mem_cons, List.not_mem_nil, or_false]
  rw [Bool.eq_iff_iff]
  simp only [Bool.or_eq_true, Bool.and_eq_true, decide_eq_true_eq]
  omega

theorem collapseSpaces_eq (prevSpace : Bool) (cs : List Char) :
    collapseSpaces prevSpace cs = cs.collapse (Utf8.isBlank <| rune ·) ' ' prevSpace := by
  have hblank (c : Char) : (c = ' ' ∨ c = '\t' ∨ c = '\n' ∨ c = '\r') ↔ Utf8.isBlank (rune c) = true := by
    have hrune (d : Char) : rune c = rune d ↔ c = d := rune_injective.eq_iff
    have hspace := hrune ' '
    have htab := hrune '\t'
    have hnl := hrune '\n'
    have hcr := hrune '\r'
    simp only [Utf8.isBlank, Bool.or_eq_true, decide_eq_true_eq, ← hspace, ← htab, ← hnl, ← hcr, or_assoc]
    rfl
  induction cs generalizing prevSpace with
  | nil => rfl
  | cons c cs ih => simp only [collapseSpaces, List.collapse, hblank, ih]

/-- **The two normalizers agree** on every text: the bytes are normalized as the characters are. -/
theorem normalizePostText_utf8Encode {nfcText : String → String} {s : String}
    (h : nfc (utf8Encode s) = utf8Encode (nfcText s)) :
    Utf8.normalizePostText nfc (utf8Encode s) = (normalizePostText nfcText s).map utf8Encode := by
  have hnormal : collapseSpaces false (trimSpace (nfcText s).toList) = normalChars (nfcText s).toList := by
    have htrim : trimSpace (nfcText s).toList = (nfcText s).toList.trimEnds (Utf8.isSpace <| rune ·) := by
      simp only [isSpace_rune]
      rfl
    rw [htrim, collapseSpaces_eq]
    rfl
  have hempty : String.ofList (normalChars (nfcText s).toList) = "" ↔ normalChars (nfcText s).toList = [] := by
    rw [← String.toList_inj, String.toList_ofList]
    rfl
  rw [Utf8.normalizePostText, h, normalizePostText, hnormal]
  have hbytes : Utf8.collapseBlanks false (rangeRunes 0 0 (Utf8.trimSpace (utf8Encode (nfcText s)))) =
      encodeChars (normalChars (nfcText s).toList) := collapse_trimSpace
  simp only [hbytes, throwIf, encodeChars_eq_nil, hempty]
  split
  · rfl
  · show Except.ok _ = Except.ok _
    rw [utf8Encode, String.toList_ofList]
    rfl

/-- Spaced text is what normalizing leaves as it is. -/
theorem normalizePostText_eq_self_iff (h : nfc (encodeChars cs) = encodeChars cs) :
    Utf8.normalizePostText nfc (encodeChars cs) = .ok (encodeChars cs) ↔ Spaced (encodeChars cs) := by
  rw [normalizePostText_ok_iff h, spaced_iff, ← List.collapse_trimEnds_eq_self_iff rfl]
  constructor
  · rintro ⟨hne, heq⟩
    have heq : normalChars cs = cs := encodeChars_injective heq
    exact ⟨heq ▸ hne, heq⟩
  · rintro ⟨hne, heq⟩
    have heq : normalChars cs = cs := heq
    exact ⟨by rwa [heq], by rw [heq]⟩

/-- **Normalizing** is stable, spaces the text, and is all that the check of a text within its limits asks for. -/
theorem normalizePostText_stable (laws : NfcLaws E nfc) {raw out : GoString} (hraw : validString raw = true)
    (h : Utf8.normalizePostText nfc raw.bytes = .ok out.bytes) :
    Utf8.normalizePostText nfc out.bytes = .ok out.bytes ∧ Spaced out.bytes ∧
    ∀ maxCodePoints maxBytes : Int64, (runeCountInString out : Int) ≤ maxCodePoints.toInt →
      (out.length : Int) ≤ maxBytes.toInt → validatePostText E out maxCodePoints maxBytes = .ok () := by
  have hraw : ValidText raw.bytes := hraw
  obtain ⟨cs, hcs⟩ := (laws.valid _ hraw).exists_chars
  obtain ⟨hne, hout⟩ := (normalizePostText_ok_iff hcs).mp h
  have hvalid : ValidText (encodeChars cs) := .encodeChars cs
  have hnormal : E.isNormalString out.bytes = true := by
    have htrim := laws.trimSpace _ hvalid (hcs ▸ laws.normal _ hraw)
    rw [trimSpace_encode] at htrim
    have hcollapse := laws.collapse _ (.encodeChars _) htrim
    rwa [← trimSpace_encode, collapse_trimSpace, hout] at hcollapse
  have hfix : Utf8.normalizePostText nfc out.bytes = .ok out.bytes := by
    have hsame := laws.unchanged _ hnormal
    rw [← hout] at hsame ⊢
    have hidem : normalChars (normalChars cs) = normalChars cs :=
      List.collapse_trimEnds_idem (fun _ => isBlank_isSpace) rfl
    exact (normalizePostText_ok_iff hsame).mpr ⟨by rwa [hidem], by rw [hidem]⟩
  refine ⟨hfix, ?_, fun maxCodePoints maxBytes hpoints hbytes => ?_⟩
  · have hsame := laws.unchanged _ hnormal
    rw [← hout] at hsame hfix ⊢
    exact (normalizePostText_eq_self_iff hsame).mp hfix
  · have hutf8 : validString out = true := by
      show ValidText out.bytes
      rw [← hout]
      exact .encodeChars _
    have hempty : out ≠ .empty := by
      rintro rfl
      exact hne (encodeChars_eq_nil.mp hout)
    rw [validatePostText, hutf8, hnormal]
    simp only [throwIf, Bool.not_true, Bool.false_eq_true, if_false, if_neg hempty, if_neg (not_lt.mpr hpoints),
      if_neg (not_lt.mpr hbytes), Except.ok_bind]

/-- In the toy environment all text is normal. -/
theorem Sample.nfcLaws : NfcLaws env id := ⟨fun _ h => h, fun _ _ => rfl, fun _ _ => rfl, fun _ _ _ => rfl,
      fun _ _ _ => rfl⟩

/-- `" \t ho \n"` -/
def Sample.ragged : GoString := ⟨[32, 9, 32, 104, 111, 32, 10], by decide⟩

/-- `"ho"` -/
def Sample.plain : GoString := ⟨[104, 111], by decide⟩

theorem normalizePostText_stable_ragged :
    Utf8.normalizePostText id Sample.plain.bytes = .ok Sample.plain.bytes ∧ Spaced Sample.plain.bytes ∧
    ∀ maxCodePoints maxBytes : Int64, (runeCountInString Sample.plain : Int) ≤ maxCodePoints.toInt →
      (Sample.plain.length : Int) ≤ maxBytes.toInt →
      validatePostText Sample.env Sample.plain maxCodePoints maxBytes = .ok () :=
  @normalizePostText_stable Sample.env id Sample.nfcLaws Sample.ragged Sample.plain (by decide +kernel)
    (by decide +kernel)

/-! ## What is on chain -/

theorem validateCreatePost_text {tx : Transaction} {sr : StateReader} {params : GenesisConfig}
    (h : validateCreatePost E tx sr params = .ok ()) :
    validString tx.text = true ∧ tx.text ≠ .empty ∧ E.isNormalString tx.text.bytes = true := by
  simp only [validateCreatePost, Except.bind_ok_iff, Except.wrapErr_ok_iff] at h
  obtain ⟨-, -, u, htext, -⟩ := h
  simp only [validatePostText, Except.bind_ok_iff, Except.throwIf_ok_iff] at htext
  obtain ⟨-, hvalid, -, hempty, -, hnormal, -⟩ := htext
  exact ⟨by simpa using hvalid, hempty, by simpa using hnormal⟩

/-- **Accepted text** is normalized if it is spaced, which no check asks for. -/
theorem accepted_normalized_iff (hunchanged : ∀ s, E.isNormalString s = true → nfc s = s) {tx : Transaction}
    {sr : StateReader} {params : GenesisConfig} (hkind : tx.kind = some .createPost)
    (h : validateTransaction E tx sr params = .ok ()) :
    Utf8.normalizePostText nfc tx.text.bytes = .ok tx.text.bytes ↔ Spaced tx.text.bytes := by
  rw [validateTransaction, hkind] at h
  obtain ⟨hvalid, -, hnormal⟩ := validateCreatePost_text h
  obtain ⟨cs, hcs⟩ := ValidText.exists_chars hvalid
  have hsame := hunchanged _ hnormal
  rw [hcs] at hsame ⊢
  exact normalizePostText_eq_self_iff hsame

namespace Sample

/-- A post of key 1 with the text that is given. -/
def postOf (text : GoString) : Transaction :=
  signed 1 { type := 2, sender := address 1, pubKey := (key 1).publicKey, text, amount := 100, nonce := 1 }

/-- `" ho"` -/
def indented : GoString := ⟨[32, 104, 111], by decide⟩

end Sample

/-- Text with a space in front is accepted, and normalizing takes the space away. -/
theorem unspaced_accepted :
    validateTransaction Sample.env (Sample.postOf Sample.indented) Sample.genesis.reader Sample.config = .ok () ∧
    Utf8.normalizePostText id Sample.indented.bytes = .ok Sample.plain.bytes ∧
    Sample.plain.bytes ≠ Sample.indented.bytes := by decide +kernel

theorem accepted_normalized_iff_plain :
    Utf8.normalizePostText id Sample.plain.bytes = .ok Sample.plain.bytes ↔ Spaced Sample.plain.bytes :=
  @accepted_normalized_iff Sample.env id (fun _ _ => rfl) (Sample.postOf Sample.plain) Sample.genesis.reader
    Sample.config rfl (by decide +kernel)

end Drana

/-
Encodings that say where they end: no encoding is a proper prefix of another,
so that a sequence of fields can be read back from its bytes.
-/
import Drana.Lib.Bytes

/-- Whatever follows, the value and what follows it can be told from the bytes. -/
def Delimited {α : Type} (enc : α → List UInt8) : Prop :=
  ∀ a b r r', enc a ++ r = enc b ++ r' → a = b ∧ r = r'

namespace Delimited

variable {α β : Type} {enc : α → List UInt8} {enc' : β → List UInt8}

protected theorem injective (h : Delimited enc) : enc.Injective := by
  intro a b hab
  exact (h a b [] [] (by rw [hab])).1

/-- An injective encoding of a fixed length. -/
theorem ofLength {n : Nat} (hinj : enc.Injective) (hlen : ∀ a, (enc a).length = n) : Delimited enc := by
  intro a b r r' h
  obtain ⟨hab, hr⟩ := List.append_inj h (by rw [hlen, hlen])
  exact ⟨hinj hab, hr⟩

/-- Two fields, one after the other. -/
theorem pair (h : Delimited enc) (h' : Delimited enc') : Delimited fun p : α × β => enc p.1 ++ enc' p.2 := by
  intro p q r r' heq
  simp only [List.append_assoc] at heq
  obtain ⟨h₁, heq⟩ := h _ _ _ _ heq
  obtain ⟨h₂, hr⟩ := h' _ _ _ _ heq
  exact ⟨Prod.ext h₁ h₂, hr⟩

/-- A value of which a delimited encoding writes an injective image. -/
theorem comp (h : Delimited enc) {f : β → α} (hf : f.Injective) : Delimited fun b => enc (f b) := by
  intro a b r r' heq
  obtain ⟨hab, hr⟩ := h _ _ _ _ heq
  exact ⟨hf hab, hr⟩

/-- Lists of one length, their elements one after the other. -/
theorem flatMap_inj (h : Delimited enc) {l l' : List α} {r r' : List UInt8} (hlen : l.length = l'.length)
    (heq : l.flatMap enc ++ r = l'.flatMap enc ++ r') : l = l' ∧ r = r' := by
  induction l generalizing l' with
  | nil =>
    obtain rfl := List.length_eq_zero_iff.mp hlen.symm
    exact ⟨rfl, heq⟩
  | cons a l ih =>
    cases l' with
    | nil => cases hlen
    | cons b l' =>
      simp only [List.flatMap_cons, List.append_assoc] at heq
      obtain ⟨hab, hrest⟩ := h _ _ _ _ heq
      obtain ⟨hl, hr⟩ := ih (by simpa using hlen) hrest
      exact ⟨by rw [hab, hl], hr⟩

end Delimited

theorem putUint64_delimited : Delimited putUint64 :=
  .ofLength (fun _ _ => putUint64_inj) length_putUint64

theorem putUint32_delimited : Delimited putUint32 :=
  .ofLength (fun _ _ => putUint32_inj) length_putUint32

theorem ofNat_inj_of_lt {m n : Nat} (hm : m < 2 ^ 64) (hn : n < 2 ^ 64) (h : UInt64.ofNat m = UInt64.ofNat n) :
    m = n := by
  have := congrArg UInt64.toNat h
  rwa [UInt64.toNat_ofNat', UInt64.toNat_ofNat', Nat.mod_eq_of_lt hm, Nat.mod_eq_of_lt hn] at this

/-- Bytes after their number, as a `uint64`. -/
def lenPrefixed (b : List UInt8) : List UInt8 := putUint64 (UInt64.ofNat b.length) ++ b

theorem lenPrefixed_inj {b b' r r' : List UInt8} (hb : b.length < 2 ^ 64) (hb' : b'.length < 2 ^ 64)
    (h : lenPrefixed b ++ r = lenPrefixed b' ++ r') : b = b' ∧ r = r' := by
  simp only [lenPrefixed, List.append_assoc] at h
  obtain ⟨hlen, h⟩ := putUint64_delimited _ _ _ _ h
  exact List.append_inj h (ofNat_inj_of_lt hb hb' hlen)

theorem lenPrefixed_string_delimited : Delimited fun s : GoString => lenPrefixed s.bytes := by
  intro s t r r' h
  have hs := s.fits
  have ht := t.fits
  obtain ⟨hst, hr⟩ := lenPrefixed_inj (by omega) (by omega) h
  exact ⟨GoString.ext hst, hr⟩

theorem lenPrefixed_array_delimited {n : Nat} (hn : n < 2 ^ 64) :
    Delimited fun a : ByteArr n => lenPrefixed a.toList := by
  intro a b r r' h
  obtain ⟨hab, hr⟩ := lenPrefixed_inj (by simpa using hn) (by simpa using hn) h
  exact ⟨ByteArr.toList_inj hab, hr⟩

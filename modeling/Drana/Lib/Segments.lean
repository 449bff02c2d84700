/-
A line cut into segments of given lengths, one after the other from zero on.
Each point below the sum of the lengths is in one segment, and a segment has
as many points as it is long.
-/
import Mathlib.Data.Nat.Count
import Mathlib.Data.Nat.Periodic
import Mathlib.Algebra.BigOperators.Group.List.Basic

variable {α : Type} {length : α → Nat} {l : List α} {a : α} {x : Nat}

/-- The segment a point is in. -/
def segmentAt (length : α → Nat) : List α → Nat → Option α
  | [], _ => none
  | a :: l, x => if x < length a then some a else segmentAt length l (x - length a)

theorem segmentAt_mem (h : segmentAt length l x = some a) : a ∈ l := by
  induction l generalizing x with
  | nil => cases h
  | cons b l ih =>
    unfold segmentAt at h
    split at h
    · cases h
      exact List.mem_cons_self
    · exact List.mem_cons_of_mem b (ih h)

/-- Every point below the end is in a segment. -/
theorem segmentAt_isSome (h : x < (l.map length).sum) : ∃ a, segmentAt length l x = some a := by
  induction l generalizing x with
  | nil => simp at h
  | cons b l ih =>
    rw [List.map_cons, List.sum_cons] at h
    unfold segmentAt
    split
    · exact ⟨b, rfl⟩
    · exact ih (by omega)

/-- A segment has as many points as it is long. -/
theorem count_segmentAt [DecidableEq α] (hnd : l.Nodup) (ha : a ∈ l) :
    Nat.count (fun x => segmentAt length l x = some a) (l.map length).sum = length a := by
  induction l with
  | nil => cases ha
  | cons b l ih =>
    obtain ⟨hb, hnd⟩ := List.nodup_cons.mp hnd
    rw [List.map_cons, List.sum_cons, Nat.count_add]
    have hin : ∀ x < length b, segmentAt length (b :: l) x = some b := by
      intro x hx
      rw [segmentAt, if_pos hx]
    have hbeyond : ∀ x, segmentAt length (b :: l) (length b + x) = segmentAt length l x := by
      intro x
      rw [segmentAt, if_neg (by omega), Nat.add_sub_cancel_left]
    simp only [hbeyond]
    rcases List.mem_cons.mp ha with rfl | ha
    · have hfirst : Nat.count (fun x => segmentAt length (a :: l) x = some a) (length a) = length a :=
        Nat.count_iff_forall.mpr hin
      have hrest : Nat.count (fun x => segmentAt length l x = some a) (l.map length).sum = 0 :=
        Nat.count_iff_forall_not.mpr fun x _ hx => hb (segmentAt_mem hx)
      rw [hfirst, hrest]
      rfl
    · have hfirst : Nat.count (fun x => segmentAt length (b :: l) x = some a) (length b) = 0 := by
        refine Nat.count_iff_forall_not.mpr fun x hx hxa => hb ?_
        rw [hin x hx, Option.some.injEq] at hxa
        rwa [hxa]
      rw [hfirst, ih hnd ha, Nat.zero_add]

/-- Walked round and round, a segment is met as often in any round. -/
theorem card_segmentAt [DecidableEq α] (hnd : l.Nodup) (ha : a ∈ l) (start : Nat) :
    ((Finset.Ico start (start + (l.map length).sum)).filter fun x =>
      segmentAt length l (x % (l.map length).sum) = some a).card = length a := by
  have hperiodic : Function.Periodic (fun x => segmentAt length l (x % (l.map length).sum) = some a)
      (l.map length).sum := by
    intro x
    simp only [Nat.add_mod_right]
  have hround : ∀ x ∈ Finset.range (l.map length).sum,
      (segmentAt length l (x % (l.map length).sum) = some a ↔ segmentAt length l x = some a) := by
    intro x hx
    rw [Nat.mod_eq_of_lt (Finset.mem_range.mp hx)]
  rw [Nat.filter_Ico_card_eq_of_periodic start _ _ hperiodic, Nat.count_eq_card_filter_range, Finset.filter_congr hround,
    ← Nat.count_eq_card_filter_range, count_segmentAt hnd ha]

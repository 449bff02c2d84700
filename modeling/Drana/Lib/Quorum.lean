/-
Weighted quorums: what two sets weigh together beyond the whole, they share.
-/
import Mathlib.Algebra.BigOperators.Group.Finset.Basic
import Mathlib.Algebra.Order.BigOperators.Group.Finset
import Mathlib.Algebra.Order.Ring.Int

namespace Quorum

variable {α : Type} [DecidableEq α] {S A B : Finset α} {w : α → Nat}

/-- The weight of a set. -/
def weight (w : α → Nat) (A : Finset α) : Nat := ∑ a ∈ A, w a

omit [DecidableEq α] in
theorem weight_mono (h : A ⊆ B) : weight w A ≤ weight w B := Finset.sum_le_sum_of_subset h

/-- **Two quorums overlap** by what they weigh beyond the whole. -/
theorem weight_inter (hA : A ⊆ S) (hB : B ⊆ S) : weight w A + weight w B ≤ weight w (A ∩ B) + weight w S := by
  have hsum : weight w (A ∪ B) + weight w (A ∩ B) = weight w A + weight w B := Finset.sum_union_inter
  have hunion : weight w (A ∪ B) ≤ weight w S := weight_mono (Finset.union_subset hA hB)
  omega

end Quorum

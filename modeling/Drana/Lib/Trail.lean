/-
Trails of a relation, and how they get shorter where the relation is composed
with itself.
-/
import Mathlib.Tactic.Common

/-- A trail of `n` steps. -/
inductive Trail {α : Type} (R : α → α → Prop) : Nat → α → α → Prop
  | nil {a : α} : Trail R 0 a a
  | cons {n : Nat} {a b c : α} : R a b → Trail R n b c → Trail R (n + 1) a c

namespace Trail

variable {α : Type} {R S : α → α → Prop} {m n : Nat} {a b : α}

theorem mono (h : Trail R n a b) (hR : ∀ a b, R a b → S a b) : Trail S n a b := by
  induction h with
  | nil => exact .nil
  | cons hab _ ih => exact .cons (hR _ _ hab) ih

/-- **Halving**: two steps at a time. -/
theorem halve (hrefl : ∀ a, R a a) (hcomp : ∀ a b c, R a b → R b c → S a c) (h : Trail R m a b) (hm : m ≤ 2 * n) :
    ∃ m' ≤ n, Trail S m' a b := by
  induction n generalizing m a with
  | zero =>
    cases h with
    | nil => exact ⟨0, Nat.le_refl _, .nil⟩
    | cons => omega
  | succ n ih =>
    cases h with
    | nil => exact ⟨0, Nat.zero_le _, .nil⟩
    | cons hac hcb =>
      cases hcb with
      | nil => exact ⟨1, by omega, .cons (hcomp _ _ _ hac (hrefl _)) .nil⟩
      | cons hcd hdb =>
        obtain ⟨m', hm', htrail⟩ := ih hdb (by omega)
        exact ⟨m' + 1, by omega, .cons (hcomp _ _ _ hac hcd) htrail⟩

end Trail

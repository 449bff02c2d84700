/-
Go's `uint64` arithmetic. `+` and `-` wrap; an `Arith` says which of the two
are to be stopped at instead, so that the same program text also says that a
run wraps nowhere: it runs to the same end with the stop put in.
-/
import Drana.Lib.Except
import Mathlib.Algebra.Order.Ring.Int

/-- Which of `+` and `-` stop the run where they would wrap. -/
structure Arith where
  trapAdd : Bool
  trapSub : Bool
deriving DecidableEq

namespace Arith

/-- Go: both wrap. -/
def go : Arith := ⟨false, false⟩

/-- Sums that would wrap stop the run; differences wrap. -/
def sums : Arith := ⟨true, false⟩

/-- Sums and differences that would wrap stop the run. -/
def strict : Arith := ⟨true, true⟩

def add (ar : Arith) (a b : UInt64) : Except String UInt64 :=
  if ar.trapAdd = true ∧ 2 ^ 64 ≤ a.toNat + b.toNat then .error "uint64 sum wraps" else .ok (a + b)

def sub (ar : Arith) (a b : UInt64) : Except String UInt64 :=
  if ar.trapSub = true ∧ a < b then .error "uint64 difference wraps" else .ok (a - b)

variable {ar : Arith} {a b c : UInt64}

/-- The smaller of the two. -/
theorem toNat_capped : (if b > a then a else b).toNat = min a.toNat b.toNat := by
  split
  · next h =>
    have h := UInt64.lt_iff_toNat_lt.mp h
    omega
  · next h =>
    have h := UInt64.le_iff_toNat_le.mp (UInt64.not_lt.mp h)
    omega

theorem add_ok (h : ar.add a b = .ok c) : c = a + b := by
  unfold add at h
  split at h
  · cases h
  · exact (Except.ok.inj h).symm

theorem sub_ok (h : ar.sub a b = .ok c) : c = a - b := by
  unfold sub at h
  split at h
  · cases h
  · exact (Except.ok.inj h).symm

@[simp] theorem go_add : go.add a b = .ok (a + b) := by simp [add, go]
@[simp] theorem go_sub : go.sub a b = .ok (a - b) := by simp [sub, go]
@[simp] theorem sums_sub : sums.sub a b = .ok (a - b) := by simp [sub, sums]

theorem add_toNat (h : ar.add a b = .ok c) (htrap : ar.trapAdd = true) :
    c.toNat = a.toNat + b.toNat := by
  have hc := add_ok h
  unfold add at h
  split at h
  · cases h
  · next hn =>
    subst hc
    rw [UInt64.toNat_add]
    have : ¬ 2 ^ 64 ≤ a.toNat + b.toNat := fun hle => hn ⟨htrap, hle⟩
    exact Nat.mod_eq_of_lt (by omega)

theorem sub_toNat (h : ar.sub a b = .ok c) (hle : b.toNat ≤ a.toNat) :
    c.toNat + b.toNat = a.toNat := by
  rw [sub_ok h, UInt64.toNat_sub_of_le _ _ (UInt64.le_iff_toNat_le.mpr hle)]
  omega

/-- A difference that does not wrap is the same difference with the stop in. -/
theorem sub_strict (hle : b.toNat ≤ a.toNat) : ar.sub a b = .ok (a - b) := by
  unfold sub
  rw [if_neg]
  rintro ⟨-, hlt⟩
  rw [UInt64.lt_iff_toNat_lt] at hlt
  omega

/-- Sums and differences that do not wrap are the same with any stops in. -/
theorem add_exact {ar' : Arith} (h : ar.add a b = .ok c) (hfit : a.toNat + b.toNat < 2 ^ 64) : ar'.add a b = .ok c := by
  rw [add_ok h]
  unfold add
  rw [if_neg]
  rintro ⟨-, hle⟩
  omega

theorem sub_exact {ar' : Arith} (h : ar.sub a b = .ok c) (hle : b.toNat ≤ a.toNat) : ar'.sub a b = .ok c := by
  rw [sub_ok h]
  exact sub_strict hle

theorem strict_add_lt (h : strict.add a b = .ok c) : a.toNat + b.toNat < 2 ^ 64 :=
  add_toNat h rfl ▸ c.toNat_lt

theorem strict_sub_le (h : strict.sub a b = .ok c) : b.toNat ≤ a.toNat := by
  unfold sub at h
  split at h
  · cases h
  · next hle =>
    simp only [strict, true_and, UInt64.lt_iff_toNat_lt] at hle
    omega

/-- The stop at differences, put into `ar`. -/
def noBorrow (ar : Arith) : Arith := { ar with trapSub := true }

theorem noBorrow_add (h : ar.add a b = .ok c) : ar.noBorrow.add a b = .ok c := h

theorem noBorrow_sub (h : ar.sub a b = .ok c) (hle : b.toNat ≤ a.toNat) : ar.noBorrow.sub a b = .ok c := by
  rw [sub_ok h]
  exact sub_strict hle

/-- `ar` stops wherever `ar'` does. -/
structure Stops (ar ar' : Arith) : Prop where
  add : ar'.trapAdd = true → ar.trapAdd = true
  sub : ar'.trapSub = true → ar.trapSub = true

theorem stops_go (ar : Arith) : Stops ar go := ⟨by simp [go], by simp [go]⟩

theorem Stops.add_extends {ar' : Arith} (hs : Stops ar ar') : Except.Extends (ar.add a b) (ar'.add a b) := by
  intro c h
  unfold Arith.add at h ⊢
  split at h
  · cases h
  · next hn => rw [if_neg fun hc => hn ⟨hs.add hc.1, hc.2⟩, ← h]

theorem Stops.sub_extends {ar' : Arith} (hs : Stops ar ar') : Except.Extends (ar.sub a b) (ar'.sub a b) := by
  intro c h
  unfold Arith.sub at h ⊢
  split at h
  · cases h
  · next hn => rw [if_neg fun hc => hn ⟨hs.sub hc.1, hc.2⟩, ← h]

end Arith

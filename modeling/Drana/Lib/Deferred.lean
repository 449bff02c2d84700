/-
Promises that are paid after a fixed delay. Until then a promise may be cut,
the oldest ones of an owner first; one that has nothing left is void. Each is
paid or void once, and paid at its time.
-/
import Mathlib.Algebra.Order.Group.Multiset
import Mathlib.Tactic.Abel
import Mathlib.Algebra.Order.Ring.Int

namespace Deferred

variable {O : Type}

/-- An amount promised at a time, and what was cut from it since. -/
structure Promise (O : Type) where
  owner : O
  amount : Nat
  made : Nat
  taken : Nat

namespace Promise

def left (p : Promise O) : Nat := p.amount - p.taken

/-- A promise as it was made. -/
def origin (p : Promise O) : O × Nat × Nat := (p.owner, p.amount, p.made)

def cut (p : Promise O) (n : Nat) : Promise O := { p with taken := p.taken + min p.left n }

@[simp] theorem cut_origin (p : Promise O) (n : Nat) : (p.cut n).origin = p.origin := rfl

@[simp] theorem cut_left (p : Promise O) (n : Nat) : (p.cut n).left = p.left - n := by
  simp only [cut, left]
  omega

end Promise

variable [DecidableEq O]

/-- `n` is cut from the promises to `o`, first ones first. -/
def cut (o : O) : Nat → List (Promise O) → List (Promise O)
  | _, [] => []
  | n, p :: ps => if p.owner = o then p.cut n :: cut o (n - p.left) ps else p :: cut o n ps

@[simp] theorem cut_zero (o : O) (ps : List (Promise O)) : cut o 0 ps = ps := by
  induction ps with
  | nil => rfl
  | cons p ps ih =>
    rw [cut, Nat.zero_sub, ih]
    split
    · simp [Promise.cut]
    · rfl

/-- A property that cuts keep. -/
theorem forall_cut {P : Promise O → Prop} (hP : ∀ p n, P p → P (p.cut n)) {o : O} {n : Nat} {ps : List (Promise O)}
    (h : ∀ p ∈ ps, P p) : ∀ p ∈ cut o n ps, P p := by
  induction ps generalizing n with
  | nil => exact fun p hp => absurd hp List.not_mem_nil
  | cons q ps ih =>
    have hq := h q List.mem_cons_self
    have hrest := fun n => ih (n := n) fun p hp => h p (List.mem_cons_of_mem q hp)
    rw [cut]
    split
    · exact List.forall_mem_cons.mpr ⟨hP q n hq, hrest _⟩
    · exact List.forall_mem_cons.mpr ⟨hq, hrest _⟩

@[simp] theorem map_origin_cut (o : O) (n : Nat) (ps : List (Promise O)) :
    (cut o n ps).map Promise.origin = ps.map Promise.origin := by
  induction ps generalizing n with
  | nil => rfl
  | cons p ps ih =>
    rw [cut]
    split
    · rw [List.map_cons, List.map_cons, ih, Promise.cut_origin]
    · rw [List.map_cons, List.map_cons, ih]

/-- What happens at one time: first what is due is paid, then cuts are made, then promises. -/
structure Turn (O : Type) where
  time : Nat
  cuts : List (O × Nat)
  promises : List (O × Nat)

/-- The promises open, paid and void. -/
structure Ledger (O : Type) where
  queue : List (Promise O) := []
  paid : List (Promise O × Nat) := []
  void : List (Promise O) := []

namespace Ledger

variable {delay k : Nat} {l : Ledger O} {t : Turn O}

/-- What is due at time `k`. -/
def due (delay k : Nat) (l : Ledger O) : List (Promise O) := l.queue.filter fun p => p.made + delay ≤ k

def release (delay k : Nat) (l : Ledger O) : Ledger O :=
  { l with
    queue := l.queue.filter fun p => ¬ p.made + delay ≤ k
    paid := l.paid ++ (l.due delay k).map fun p => (p, k) }

def cutOne (l : Ledger O) (c : O × Nat) : Ledger O :=
  { l with
    queue := (Deferred.cut c.1 c.2 l.queue).filter fun p => 0 < p.left
    void := l.void ++ (Deferred.cut c.1 c.2 l.queue).filter fun p => ¬ 0 < p.left }

def promise (k : Nat) (l : Ledger O) (u : O × Nat) : Ledger O := { l with queue := l.queue ++ [⟨u.1, u.2, k, 0⟩] }

def turn (delay : Nat) (l : Ledger O) (t : Turn O) : Ledger O :=
  t.promises.foldl (promise t.time) (t.cuts.foldl cutOne (l.release delay t.time))

/-- All promises, as they were made. -/
def origins (l : Ledger O) : Multiset (O × Nat × Nat) :=
  Multiset.ofList (l.queue.map Promise.origin) + Multiset.ofList (l.paid.map fun p => p.1.origin) +
    Multiset.ofList (l.void.map Promise.origin)

/-- A turn pays what is due, and nothing else. -/
theorem turn_paid (l : Ledger O) (t : Turn O) :
    (l.turn delay t).paid = l.paid ++ (l.due delay t.time).map fun p => (p, t.time) := by
  have hcuts : ∀ (cs : List (O × Nat)) (l : Ledger O), (cs.foldl cutOne l).paid = l.paid := by
    intro cs
    induction cs with
    | nil => exact fun _ => rfl
    | cons c cs ih => exact fun l => ih (l.cutOne c)
  have hpromises : ∀ (us : List (O × Nat)) (l : Ledger O), (us.foldl (promise t.time) l).paid = l.paid := by
    intro us
    induction us with
    | nil => exact fun _ => rfl
    | cons u us ih => exact fun l => ih (l.promise t.time u)
  rw [turn, hpromises, hcuts]
  rfl

/-! ## Nothing is lost -/

omit [DecidableEq O] in
theorem map_split (f : Promise O → O × Nat × Nat) (P : Promise O → Prop) [DecidablePred P] (ps : List (Promise O)) :
    Multiset.ofList (ps.map f) =
      Multiset.ofList ((ps.filter fun p => P p).map f) + Multiset.ofList ((ps.filter fun p => ¬ P p).map f) := by
  have hsplit := (List.filter_append_perm (fun p => decide (P p)) ps).symm.map f
  rw [Multiset.coe_add, ← List.map_append]
  simpa only [decide_not] using Multiset.coe_eq_coe.mpr hsplit

omit [DecidableEq O] in
theorem origins_release (l : Ledger O) : (l.release delay k).origins = l.origins := by
  have hpaid : (l.release delay k).paid.map (fun p => p.1.origin) =
      l.paid.map (fun p => p.1.origin) ++ (l.due delay k).map Promise.origin := by
    simp [release, Function.comp_def]
  rw [origins, origins, hpaid, ← Multiset.coe_add, map_split Promise.origin (fun p => p.made + delay ≤ k) l.queue]
  simp only [release, due]
  abel

theorem origins_cutOne (l : Ledger O) (c : O × Nat) : (l.cutOne c).origins = l.origins := by
  rw [origins, origins, ← map_origin_cut c.1 c.2 l.queue,
    map_split Promise.origin (fun p => 0 < p.left) (Deferred.cut c.1 c.2 l.queue)]
  simp only [cutOne, List.map_append, ← Multiset.coe_add]
  abel

omit [DecidableEq O] in
theorem origins_promise (l : Ledger O) (u : O × Nat) : (l.promise k u).origins = l.origins + {(u.1, u.2, k)} := by
  simp only [origins, promise, List.map_append, List.map_cons, List.map_nil, ← Multiset.coe_add, Promise.origin,
    Multiset.coe_singleton]
  abel

/-- A turn adds the promises it makes. -/
theorem origins_turn (l : Ledger O) (t : Turn O) : (l.turn delay t).origins =
    l.origins + Multiset.ofList (t.promises.map fun u => (u.1, u.2, t.time)) := by
  have hcuts : ∀ (cs : List (O × Nat)) (l : Ledger O), (cs.foldl cutOne l).origins = l.origins := by
    intro cs
    induction cs with
    | nil => exact fun _ => rfl
    | cons c cs ih =>
      intro l
      rw [List.foldl_cons, ih, origins_cutOne]
  have hpromises : ∀ (us : List (O × Nat)) (l : Ledger O), (us.foldl (promise t.time) l).origins =
      l.origins + Multiset.ofList (us.map fun u => (u.1, u.2, t.time)) := by
    intro us
    induction us with
    | nil => exact fun _ => (add_zero _).symm
    | cons u us ih =>
      intro l
      rw [List.foldl_cons, ih, origins_promise, List.map_cons, ← Multiset.cons_coe, ← Multiset.singleton_add, add_assoc]
  rw [turn, hpromises, hcuts, origins_release]

/-! ## Everything is on time -/

/-- A promise that waits at time `k`: made by then, not due, and not all cut. -/
structure Waiting (delay k : Nat) (p : Promise O) : Prop where
  made : p.made ≤ k
  early : k < p.made + delay
  left : 0 < p.left
  taken : p.taken ≤ p.amount

/-- At the end of time `k`. -/
structure OnTime (delay k : Nat) (l : Ledger O) : Prop where
  queue : ∀ p ∈ l.queue, Waiting delay k p
  paid : ∀ x ∈ l.paid, x.2 = x.1.made + delay
  void : ∀ p ∈ l.void, p.taken = p.amount

namespace OnTime

omit [DecidableEq O] in
/-- What is due is due just now. -/
theorem due (h : OnTime delay k l) {p : Promise O} (hp : p ∈ l.due delay (k + 1)) : p.made + delay = k + 1 := by
  obtain ⟨hq, hdue⟩ := List.mem_filter.mp hp
  have hearly := (h.queue p hq).early
  have hdue : p.made + delay ≤ k + 1 := of_decide_eq_true hdue
  omega

omit [DecidableEq O] in
theorem release (h : OnTime delay k l) : OnTime delay (k + 1) (l.release delay (k + 1)) where
  queue p hp := by
    obtain ⟨hq, hnot⟩ := List.mem_filter.mp hp
    have hnot : ¬ p.made + delay ≤ k + 1 := of_decide_eq_true hnot
    obtain ⟨hmade, -, hleft, htaken⟩ := h.queue p hq
    exact ⟨Nat.le_succ_of_le hmade, Nat.lt_of_not_le hnot, hleft, htaken⟩
  paid x hx := by
    rcases List.mem_append.mp hx with hx | hx
    · exact h.paid x hx
    · obtain ⟨p, hp, rfl⟩ := List.mem_map.mp hx
      exact (h.due hp).symm
  void := h.void

theorem cutOne (h : OnTime delay k l) (c : O × Nat) : OnTime delay k (l.cutOne c) := by
  have hcut : ∀ p ∈ Deferred.cut c.1 c.2 l.queue, (p.made ≤ k ∧ k < p.made + delay) ∧ p.taken ≤ p.amount := by
    refine forall_cut (fun p n hp => ⟨hp.1, ?_⟩) fun p hp =>
      ⟨⟨(h.queue p hp).made, (h.queue p hp).early⟩, (h.queue p hp).taken⟩
    have htaken := hp.2
    simp only [Promise.cut, Promise.left]
    omega
  constructor
  · intro p hp
    obtain ⟨hp, hleft⟩ := List.mem_filter.mp hp
    obtain ⟨⟨hmade, hearly⟩, htaken⟩ := hcut p hp
    exact ⟨hmade, hearly, of_decide_eq_true hleft, htaken⟩
  · exact h.paid
  · intro p hp
    rcases List.mem_append.mp hp with hp | hp
    · exact h.void p hp
    · obtain ⟨hp, hleft⟩ := List.mem_filter.mp hp
      have hleft : ¬ 0 < p.left := of_decide_eq_true hleft
      have htaken := (hcut p hp).2
      simp only [Promise.left] at hleft
      omega

omit [DecidableEq O] in
theorem promise (hd : 0 < delay) (h : OnTime delay k l) {u : O × Nat} (hu : 0 < u.2) :
    OnTime delay k (l.promise k u) := by
  refine { h with queue := fun p hp => ?_ }
  rcases List.mem_append.mp hp with hp | hp
  · exact h.queue p hp
  · rw [List.mem_singleton.mp hp]
    exact ⟨Nat.le_refl k, Nat.lt_add_of_pos_right hd, hu, Nat.zero_le _⟩

/-- **A turn keeps everything on time.** -/
theorem turn (hd : 0 < delay) (h : OnTime delay k l) (ht : t.time = k + 1) (hpos : ∀ u ∈ t.promises, 0 < u.2) :
    OnTime delay (k + 1) (l.turn delay t) := by
  have hcuts : ∀ (cs : List (O × Nat)) (l : Ledger O), OnTime delay (k + 1) l →
      OnTime delay (k + 1) (cs.foldl Ledger.cutOne l) := by
    intro cs
    induction cs with
    | nil => exact fun _ h => h
    | cons c cs ih => exact fun l h => ih _ (h.cutOne c)
  have hpromises : ∀ (us : List (O × Nat)) (l : Ledger O), (∀ u ∈ us, 0 < u.2) → OnTime delay (k + 1) l →
      OnTime delay (k + 1) (us.foldl (Ledger.promise (k + 1)) l) := by
    intro us
    induction us with
    | nil => exact fun _ _ h => h
    | cons u us ih =>
      intro l hus h
      exact ih _ (fun u hu => hus u (List.mem_cons_of_mem _ hu)) (h.promise hd (hus u List.mem_cons_self))
  rw [Ledger.turn, ht]
  exact hpromises _ _ hpos (hcuts _ _ h.release)

omit [DecidableEq O] in
/-- **What was made at `m` is settled at `m + delay`**: each promise paid then, or void. -/
theorem settled (h : OnTime delay k l) {m : Nat} (hm : m + delay ≤ k) : l.origins.filter (fun o => o.2.2 = m) =
    Multiset.ofList ((l.paid.filter fun x => x.2 = m + delay).map fun x => x.1.origin) +
      Multiset.ofList ((l.void.filter fun p => p.made = m).map Promise.origin) := by
  have hqueue : l.queue.filter (fun p => p.made = m) = [] := by
    refine List.filter_eq_nil_iff.mpr fun p hp hmade => ?_
    have hearly := (h.queue p hp).early
    have hmade : p.made = m := of_decide_eq_true hmade
    omega
  have hpaid : l.paid.filter (fun x => x.1.made = m) = l.paid.filter fun x => x.2 = m + delay := by
    refine List.filter_congr fun x hx => ?_
    simp only [h.paid x hx, Nat.add_right_cancel_iff]
  have hfilter : ∀ {α : Type} (f : α → O × Nat × Nat) (xs : List α),
      Multiset.filter (fun o => o.2.2 = m) (Multiset.ofList (xs.map f)) =
        Multiset.ofList ((xs.filter fun x => (f x).2.2 = m).map f) := by
    intro α f xs
    rw [Multiset.filter_coe, List.filter_map]
    rfl
  rw [origins, Multiset.filter_add, Multiset.filter_add, hfilter, hfilter, hfilter]
  change Multiset.ofList ((l.queue.filter fun p => p.made = m).map Promise.origin) +
    Multiset.ofList ((l.paid.filter fun x => x.1.made = m).map fun x => x.1.origin) + _ = _
  rw [hqueue, hpaid, List.map_nil, Multiset.coe_nil, zero_add]
  rfl

end OnTime

end Ledger

end Deferred

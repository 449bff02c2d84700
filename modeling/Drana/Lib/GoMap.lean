/-
Go's `map`: a finite map whose iteration order the language leaves open.
`MapRange` is one choice of that order; sums over a map do not depend on it.
-/
import Mathlib.Data.Finmap
import Mathlib.Data.List.Sort
import Mathlib.Algebra.BigOperators.Group.Multiset.Basic
import Mathlib.Algebra.BigOperators.Ring.Multiset
import Mathlib.Algebra.BigOperators.Group.Finset.Piecewise
import Mathlib.Algebra.Order.BigOperators.Group.Multiset
import Mathlib.Algebra.Order.Ring.Int

/-- A Go `map[K]V`. -/
abbrev GoMap (K V : Type) := Finmap fun _ : K => V

namespace GoMap

variable {K V : Type}

/-- The pairs of a map. -/
def pairs (m : GoMap K V) : Multiset (K × V) := m.entries.map fun e => (e.1, e.2)

/-- `∑ f k v` over the pairs of a map. -/
def total (f : K → V → Nat) (m : GoMap K V) : Nat := (m.pairs.map fun e => f e.1 e.2).sum

variable [DecidableEq K]

/-- The term of `total` at one key. -/
def «at» (f : K → V → Nat) (k : K) (m : GoMap K V) : Nat := (m.lookup k).elim 0 (f k)

variable {f g : K → V → Nat} {m : GoMap K V} {k k' : K} {v w : V}

theorem at_of_lookup (h : m.lookup k = some v) : m.at f k = f k v := by simp [GoMap.at, h]

theorem at_of_none (h : m.lookup k = none) : m.at f k = 0 := by simp [GoMap.at, h]

omit [DecidableEq K] in
@[simp] theorem total_empty : total f (∅ : GoMap K V) = 0 := rfl

theorem insert_erase (h : m.lookup k = some v) : (m.erase k).insert k v = m :=
  Finmap.ext_lookup fun k' => by
    by_cases hk : k' = k
    · subst hk; rw [Finmap.lookup_insert, h]
    · rw [Finmap.lookup_insert_of_ne _ hk, Finmap.lookup_erase_ne hk]

theorem insert_of_erase : (m.erase k).insert k v = m.insert k v :=
  Finmap.ext_lookup fun k' => by
    by_cases hk : k' = k
    · subst hk; rw [Finmap.lookup_insert, Finmap.lookup_insert]
    · rw [Finmap.lookup_insert_of_ne _ hk, Finmap.lookup_insert_of_ne _ hk, Finmap.lookup_erase_ne hk]

theorem insert_lookup (h : m.lookup k = some v) : m.insert k v = m := by
  rw [← insert_of_erase, insert_erase h]

theorem pairs_insert_of_notMem (h : k ∉ m) : pairs (m.insert k v) = (k, v) ::ₘ m.pairs := by
  rw [pairs, pairs, Finmap.entries_insert_of_notMem h, Multiset.map_cons]

theorem total_insert_of_notMem (h : k ∉ m) : total f (m.insert k v) = f k v + m.total f := by
  rw [total, pairs_insert_of_notMem h, Multiset.map_cons, Multiset.sum_cons, total]

/-- Erasing a key takes its term away. -/
theorem total_erase : total f (m.erase k) + m.at f k = m.total f := by
  cases h : m.lookup k with
  | none =>
    have hk : k ∉ m := Finmap.lookup_eq_none.mp h
    have : m.erase k = m := Finmap.ext_lookup fun k' => by
      by_cases hk' : k' = k
      · subst hk'; rw [Finmap.lookup_erase, h]
      · rw [Finmap.lookup_erase_ne hk']
    rw [this, at_of_none h, Nat.add_zero]
  | some v =>
    have := total_insert_of_notMem (f := f) (v := v) (Finmap.notMem_erase_self (a := k) (s := m))
    rw [insert_erase h] at this
    rw [at_of_lookup h, this, Nat.add_comm]

/-- Writing a key replaces its term. -/
theorem total_insert : total f (m.insert k v) + m.at f k = m.total f + f k v := by
  have h := total_insert_of_notMem (f := f) (v := v) (Finmap.notMem_erase_self (a := k) (s := m))
  rw [insert_of_erase] at h
  rw [h, ← total_erase (k := k) (m := m)]
  omega

theorem at_le_total : m.at f k ≤ m.total f := by
  have := total_erase (f := f) (m := m) (k := k)
  omega

theorem total_congr (h : ∀ k v, m.lookup k = some v → f k v = g k v) : m.total f = m.total g := by
  simp only [total, pairs, Multiset.map_map]
  refine congrArg _ (Multiset.map_congr rfl fun e he => ?_)
  exact h e.1 e.2 (Finmap.lookup_eq_some_iff.mpr he)

omit [DecidableEq K] in
theorem total_add : m.total (fun k v => f k v + g k v) = m.total f + m.total g := by
  simp only [total, Multiset.sum_map_add]

omit [DecidableEq K] in
theorem total_mul {c : Nat} : m.total (fun k v => c * f k v) = c * m.total f := by
  simp only [total, Multiset.sum_map_mul_left]

/-- Shares of `c` per `d`, rounded down, and what the rounding leaves. -/
theorem total_div_mod {c d : Nat} :
    d * m.total (fun k v => c * f k v / d) + m.total (fun k v => c * f k v % d) = c * m.total f := by
  rw [← total_mul, ← total_add, ← total_mul]
  exact total_congr fun k v _ => Nat.div_add_mod _ _

theorem total_mono (h : ∀ k v, m.lookup k = some v → f k v ≤ g k v) : m.total f ≤ m.total g := by
  have hsplit : m.total g = m.total fun k v => f k v + (g k v - f k v) :=
    total_congr fun k v hk => by have := h k v hk; omega
  rw [hsplit, total_add]
  exact Nat.le_add_right _ _

theorem total_eq_zero (h : ∀ k v, m.lookup k = some v → f k v = 0) : m.total f = 0 := by
  rw [total_congr (g := fun _ _ => 0) h]
  simp [total]

/-- Terms that each belong to a key of another map, and for each key sum to no
more than its term there, sum to no more than the other map. -/
theorem total_le_total {L W : Type} [DecidableEq L] {n : GoMap L W} {h : L → W → Nat} (owner : K → L)
    (howned : ∀ k v, m.lookup k = some v → f k v ≠ 0 → owner k ∈ n)
    (hle : ∀ l w, n.lookup l = some w → (m.total fun k v => if owner k = l then f k v else 0) ≤ h l w) :
    m.total f ≤ n.total h := by
  -- One key of the other map after the other.
  induction hcard : n.keys.card generalizing n f with
  | zero =>
    rw [total_eq_zero fun k v hk => ?_]
    · exact Nat.zero_le _
    by_contra hne
    have hmem := Finmap.mem_keys.mpr (howned k v hk hne)
    rw [Finset.card_eq_zero.mp hcard] at hmem
    exact absurd hmem (Finset.notMem_empty _)
  | succ j ih =>
    obtain ⟨l, hl⟩ := Finset.card_pos.mp (by omega : 0 < n.keys.card)
    obtain ⟨w, hw⟩ := Option.isSome_iff_exists.mp (Finmap.lookup_isSome.mpr (Finmap.mem_keys.mp hl))
    have hsplit : m.total f = (m.total fun k v => if owner k = l then f k v else 0) +
        m.total fun k v => if owner k = l then 0 else f k v := by
      rw [← total_add]
      exact total_congr fun k v _ => by split <;> simp
    have hone := hle l w hw
    have hrest : (m.total fun k v => if owner k = l then 0 else f k v) ≤ total h (n.erase l) := by
      refine ih (fun k v hk hne => ?_) (fun l' w' hl' => ?_) ?_
      · split at hne
        · exact absurd rfl hne
        · next hother => exact Finmap.mem_erase.mpr ⟨hother, howned k v hk hne⟩
      · have hne : l' ≠ l := by
          rintro rfl
          rw [Finmap.lookup_erase] at hl'
          cases hl'
        rw [Finmap.lookup_erase_ne hne] at hl'
        refine le_trans (total_mono fun k v _ => ?_) (hle l' w' hl')
        split
        · split
          · exact Nat.zero_le _
          · exact Nat.le_refl _
        · exact Nat.le_refl _
      · rw [Finmap.keys_erase, Finset.card_erase_of_mem hl, hcard]
        rfl
    have hat := total_erase (f := h) (m := n) (k := l)
    rw [at_of_lookup hw] at hat
    omega

theorem mem_pairs : (k, v) ∈ m.pairs ↔ m.lookup k = some v := by
  simp only [pairs, Multiset.mem_map, Prod.mk.injEq]
  constructor
  · rintro ⟨⟨k', v'⟩, he, rfl, rfl⟩
    exact Finmap.lookup_eq_some_iff.mpr he
  · intro h
    exact ⟨⟨k, v⟩, Finmap.lookup_eq_some_iff.mp h, rfl, rfl⟩

/-- A loop that writes one pair after another. -/
def insertAll (m : GoMap K V) (l : List (K × V)) : GoMap K V := l.foldl (fun m e => m.insert e.1 e.2) m

theorem insertAll_append {l l' : List (K × V)} : insertAll m (l ++ l') = insertAll (insertAll m l) l' :=
  List.foldl_append

/-- Distinct keys are read back as written; other keys keep what they had. -/
theorem lookup_insertAll {l : List (K × V)} (hn : (l.map Prod.fst).Nodup) :
    (insertAll m l).lookup k = some v ↔ (k, v) ∈ l ∨ k ∉ l.map Prod.fst ∧ m.lookup k = some v := by
  induction l generalizing m with
  | nil => simp [insertAll]
  | cons e l ih =>
    obtain ⟨hnot, hn⟩ := List.nodup_cons.mp hn
    rw [insertAll, List.foldl_cons, ← insertAll, ih hn]
    simp only [List.map_cons, List.mem_cons]
    by_cases hk : k = e.1
    · subst hk
      have hmem : (e.1, v) ∉ l := fun h => hnot (List.mem_map.mpr ⟨_, h, rfl⟩)
      rw [Finmap.lookup_insert]
      constructor
      · rintro (h | ⟨-, h⟩)
        · exact absurd h hmem
        · exact .inl (.inl (Prod.ext rfl (Option.some.inj h).symm))
      · rintro ((h | h) | ⟨h, -⟩)
        · exact .inr ⟨hnot, congrArg some (congrArg Prod.snd h).symm⟩
        · exact absurd h hmem
        · exact absurd (.inl rfl) h
    · rw [Finmap.lookup_insert_of_ne _ hk]
      have hne : (k, v) ≠ e := fun h => hk (congrArg Prod.fst h)
      simp [hk, hne]

/-- Whatever is read back was written, or was there. -/
theorem mem_of_lookup_insertAll {l : List (K × V)} (h : (insertAll m l).lookup k = some v) :
    (k, v) ∈ l ∨ m.lookup k = some v := by
  induction l generalizing m with
  | nil => exact .inr h
  | cons e l ih =>
    rcases ih h with h | h
    · exact .inl (List.mem_cons_of_mem e h)
    · by_cases hk : k = e.1
      · subst hk
        rw [Finmap.lookup_insert] at h
        exact .inl (List.mem_cons.mpr (.inl (Prod.ext rfl (Option.some.inj h).symm)))
      · rw [Finmap.lookup_insert_of_ne _ hk] at h
        exact .inr h

/-- The last pair of a key is what is read back. -/
theorem lookup_insertAll_last {l l' : List (K × V)} (h : k ∉ l'.map Prod.fst) :
    (insertAll m (l ++ (k, v) :: l')).lookup k = some v := by
  rw [insertAll_append]
  generalize insertAll m l = m
  rw [insertAll, List.foldl_cons, ← insertAll]
  have hl : (m.insert k v).lookup k = some v := Finmap.lookup_insert m
  generalize m.insert k v = m' at hl ⊢
  induction l' generalizing m' with
  | nil => exact hl
  | cons e l' ih =>
    simp only [List.map_cons, List.mem_cons, not_or] at h
    rw [insertAll, List.foldl_cons, ← insertAll]
    refine ih h.2 _ ?_
    rw [Finmap.lookup_insert_of_ne _ h.1, hl]

theorem total_insertAll {l : List (K × V)} : total f (insertAll m l) ≤ m.total f + (l.map fun e => f e.1 e.2).sum := by
  induction l generalizing m with
  | nil => exact Nat.le_refl _
  | cons e l ih =>
    have hrest := ih (m := m.insert e.1 e.2)
    have hone := total_insert (f := f) (m := m) (k := e.1) (v := e.2)
    rw [insertAll, List.foldl_cons, ← insertAll, List.map_cons, List.sum_cons]
    omega

theorem total_eq_sum_keys : m.total f = ∑ k ∈ m.keys, m.at f k := by
  have hkeys : ∑ k ∈ m.keys, m.at f k = (m.entries.map fun e => m.at f e.1).sum := by
    change ((m.entries.map Sigma.fst).map fun k => m.at f k).sum = _
    rw [Multiset.map_map]
    rfl
  rw [hkeys, total, pairs, Multiset.map_map]
  refine congrArg _ (Multiset.map_congr rfl fun e he => ?_)
  exact (at_of_lookup (Finmap.lookup_eq_some_iff.mpr he)).symm

/-- How many keys are of a kind. -/
theorem total_eq_card {p : K → Prop} [DecidablePred p] :
    m.total (fun k _ => if p k then 1 else 0) = (m.keys.filter p).card := by
  rw [total_eq_sum_keys, Finset.card_filter]
  refine Finset.sum_congr rfl fun k hk => ?_
  obtain ⟨v, hv⟩ := Option.isSome_iff_exists.mp (Finmap.lookup_isSome.mpr (Finmap.mem_keys.mp hk))
  rw [at_of_lookup hv]

omit [DecidableEq K] in
theorem nodup_keys : (m.pairs.map Prod.fst).Nodup := by
  simp only [pairs, Multiset.map_map]
  exact m.nodupKeys.nodup_keys

end GoMap

/-- One order in which Go ranges over a map. -/
structure MapRange (K V : Type) where
  list : GoMap K V → List (K × V)
  pairs : ∀ m, (list m : Multiset (K × V)) = GoMap.pairs m

namespace MapRange

variable {K V : Type} {r r' : MapRange K V} {m : GoMap K V}

theorem perm (r r' : MapRange K V) (m : GoMap K V) : (r.list m).Perm (r'.list m) :=
  Multiset.coe_eq_coe.mp ((r.pairs m).trans (r'.pairs m).symm)

/-- A map is ranged over in any order. -/
theorem exists_list (r : MapRange K V) {l : List (K × V)} (h : l.Perm (r.list m)) :
    ∃ r' : MapRange K V, r'.list m = l := by
  classical
  refine ⟨⟨fun m' => if m' = m then l else r.list m', fun m' => ?_⟩, if_pos rfl⟩
  split
  · next hm =>
    rw [hm, ← r.pairs]
    exact Multiset.coe_eq_coe.mpr h
  · exact r.pairs m'

/-- The other way round. -/
def reversed (r : MapRange K V) : MapRange K V where
  list m := (r.list m).reverse
  pairs m := (Multiset.coe_reverse _).trans (r.pairs m)

/-- A loop over the map adds up to `total`. -/
theorem sum_list {f : K → V → Nat} : ((r.list m).map fun e => f e.1 e.2).sum = m.total f := by
  rw [GoMap.total, ← r.pairs m, Multiset.map_coe, Multiset.sum_coe]

variable [DecidableEq K]

theorem mem_list {k : K} {v : V} : (k, v) ∈ r.list m ↔ m.lookup k = some v := by
  rw [← GoMap.mem_pairs, ← r.pairs m, Multiset.mem_coe]

omit [DecidableEq K] in
theorem nodup_keys : ((r.list m).map Prod.fst).Nodup := by
  have := GoMap.nodup_keys (m := m)
  rw [← r.pairs m, Multiset.map_coe, Multiset.coe_nodup] at this
  exact this

omit [DecidableEq K] in
theorem nodup_list : (r.list m).Nodup := List.Nodup.of_map _ nodup_keys

/-- A new map with each pair put in. -/
def copy (r : MapRange K V) (m : GoMap K V) : GoMap K V := (r.list m).foldl (fun c e => c.insert e.1 e.2) ∅

/-- Pairs with distinct keys put into a map are there, and the rest is as it was. -/
theorem lookup_foldl_insert {l : List (K × V)} (hl : (l.map Prod.fst).Nodup) {c : GoMap K V} {k : K} {v : V} :
    (l.foldl (fun c e => c.insert e.1 e.2) c).lookup k = some v ↔
      (k, v) ∈ l ∨ k ∉ l.map Prod.fst ∧ c.lookup k = some v := by
  induction l generalizing c with
  | nil => simp
  | cons e l ih =>
    rw [List.map_cons, List.nodup_cons] at hl
    rw [List.foldl_cons, ih hl.2, List.map_cons, List.mem_cons, List.mem_cons]
    by_cases hk : k = e.1
    · subst hk
      have hnot : ∀ v, (e.1, v) ∉ l := fun v hv => hl.1 (List.mem_map.mpr ⟨_, hv, rfl⟩)
      rw [Finmap.lookup_insert]
      simp [hnot, hl.1, Prod.ext_iff, eq_comm]
    · rw [Finmap.lookup_insert_of_ne _ hk]
      simp [Prod.ext_iff, hk]

theorem copy_eq : r.copy m = m := by
  refine Finmap.ext_lookup fun k => Option.ext fun v => ?_
  rw [copy, lookup_foldl_insert nodup_keys, mem_list]
  simp

variable (le : K → K → Prop) [DecidableRel le] [Std.Total le] [IsTrans K le] [Std.Antisymm le]

/-- Insertion sort of a finite set, by a total order. -/
def sortKeys (s : Finset K) : List K :=
  Quot.liftOn s.1 (fun l => l.insertionSort le) fun l₁ l₂ h =>
    ((List.perm_insertionSort le l₁).trans (h.trans (List.perm_insertionSort le l₂).symm)).eq_of_pairwise
      (fun _ _ _ _ => Std.Antisymm.antisymm _ _)
      (List.pairwise_insertionSort le l₁) (List.pairwise_insertionSort le l₂)

omit [DecidableEq K] in
theorem coe_sortKeys (s : Finset K) : (sortKeys le s : Multiset K) = s.1 := by
  obtain ⟨⟨l⟩, hl⟩ := s
  exact Multiset.coe_eq_coe.mpr (List.perm_insertionSort le l)

/-- Ranging in ascending order of the keys. -/
def sorted : MapRange K V where
  list m := (sortKeys le m.keys).filterMap fun k => (m.lookup k).map fun v => (k, v)
  pairs m := by
    rw [← Multiset.filterMap_coe, coe_sortKeys]
    refine (Multiset.Nodup.ext ?_ ?_).mpr fun e => ?_
    · refine Multiset.Nodup.filterMap _ (fun k k' e he he' => ?_) m.keys.2
      simp only [Option.mem_def, Option.map_eq_some_iff] at he he'
      obtain ⟨v, -, rfl⟩ := he
      obtain ⟨v', -, h⟩ := he'
      exact (congrArg Prod.fst h).symm
    · exact Multiset.Nodup.of_map _ GoMap.nodup_keys
    · obtain ⟨k, v⟩ := e
      simp only [Multiset.mem_filterMap, Option.map_eq_some_iff, Prod.mk.injEq, GoMap.mem_pairs]
      constructor
      · rintro ⟨k', -, v', h, rfl, rfl⟩
        exact h
      · intro h
        exact ⟨k, Finmap.mem_keys.mpr (Finmap.mem_of_lookup_eq_some h), v, h, rfl, rfl⟩

/-- Ranging in ascending order of the keys' bytes. -/
def ascending (bytes : K → List UInt8) (hb : bytes.Injective) : MapRange K V :=
  have : Std.Total fun k k' => bytes k ≤ bytes k' := ⟨fun _ _ => List.le_total _ _⟩
  have : IsTrans K fun k k' => bytes k ≤ bytes k' := ⟨fun _ _ _ => List.le_trans⟩
  have : Std.Antisymm fun k k' => bytes k ≤ bytes k' := ⟨fun _ _ h h' => hb (List.le_antisymm h h')⟩
  sorted fun k k' => bytes k ≤ bytes k'

end MapRange

/-
Pages of a list whose elements are ranked, each page cut from an order of its
own. Elements of one rank come in any order, so the pages together hold each
element once exactly when no rank is broken by the end of a page.
-/
import Mathlib

namespace Pages

variable {α : Type} {rank : α → Nat} {l all : List α} {size k i m : Nat} {x y : α}

/-- The `k`-th page, counted from zero. -/
def page (size k : Nat) (l : List α) : List α := (l.drop (k * size)).take size

/-- All the elements, the highest rank first. -/
structure Ranked (rank : α → Nat) (all l : List α) : Prop where
  perm : l.Perm all
  sorted : l.Pairwise fun x y => rank y ≤ rank x

/-- How many elements come before all of the rank of `x`. -/
def above (rank : α → Nat) (all : List α) (x : α) : Nat := all.countP (rank x < rank ·)

/-- How many elements are of the rank of `x`. -/
def peers (rank : α → Nat) (all : List α) (x : α) : Nat := all.countP (rank · = rank x)

/-- The elements of a rank are on one page. -/
def Unbroken (rank : α → Nat) (size : Nat) (all : List α) : Prop :=
  ∀ x ∈ all, above rank all x / size = (above rank all x + peers rank all x - 1) / size

/-! ## Where an element is -/

theorem mem_page (hsize : 0 < size) (hn : l.Nodup) (hi : i < l.length) : l[i] ∈ page size k l ↔ i / size = k := by
  rw [page, List.mem_take_iff_getElem, Nat.div_eq_iff hsize]
  constructor
  · rintro ⟨j, hj, heq⟩
    rw [List.getElem_drop, hn.getElem_inj_iff] at heq
    rw [List.length_drop] at hj
    omega
  · rintro ⟨hlo, hhi⟩
    refine ⟨i - k * size, by rw [List.length_drop]; omega, ?_⟩
    rw [List.getElem_drop, hn.getElem_inj_iff]
    omega

theorem count_page [DecidableEq α] (hsize : 0 < size) (hn : l.Nodup) (hi : i < l.length) :
    (page size k l).count l[i] = if k = i / size then 1 else 0 := by
  have hnodup : (page size k l).Nodup := hn.sublist ((List.take_sublist ..).trans (List.drop_sublist ..))
  split
  · next h => exact List.count_eq_one_of_mem hnodup ((mem_page hsize hn hi).mpr h.symm)
  · next h => exact List.count_eq_zero.mpr fun hm => h ((mem_page hsize hn hi).mp hm).symm

theorem above_add_peers : above rank all x + peers rank all x = all.countP (rank x ≤ rank ·) := by
  induction all with
  | nil => rfl
  | cons y all ih =>
    simp only [above, peers, List.countP_cons, decide_eq_true_eq] at ih ⊢
    split <;> split <;> split <;> omega

/-- What ranks no lower than the element at `i` is counted up to there at least. -/
theorem Ranked.le_countP (h : Ranked rank all l) {p : α → Bool} (hi : i < l.length)
    (hp : ∀ y ∈ l, rank l[i] ≤ rank y → p y = true) : i + 1 ≤ l.countP p := by
  have htake : (l.take (i + 1)).countP p = i + 1 := by
    have hall : ∀ y ∈ l.take (i + 1), p y = true := by
      intro y hy
      obtain ⟨j, hj, rfl⟩ := List.mem_take_iff_getElem.mp hy
      refine hp _ (List.getElem_mem _) ?_
      rcases Nat.lt_or_ge j i with hlt | hge
      · exact List.pairwise_iff_getElem.mp h.sorted j i (by omega) hi hlt
      · obtain rfl : j = i := by omega
        exact Nat.le_refl _
    rw [List.countP_eq_length.mpr hall, List.length_take]
    omega
  have hle := (List.take_sublist (i + 1) l).countP_le (p := p)
  omega

/-- What ranks no higher than the element at `i` is not counted by what counts only higher ranks. -/
theorem Ranked.countP_le (h : Ranked rank all l) {p : α → Bool} (hi : i < l.length)
    (hp : ∀ y ∈ l, rank y ≤ rank l[i] → p y = false) : l.countP p ≤ i := by
  have hdrop : (l.drop i).countP p = 0 := by
    refine List.countP_eq_zero.mpr fun y hy => ?_
    obtain ⟨j, hj, rfl⟩ := List.mem_drop_iff_getElem.mp hy
    have hle : rank l[i + j] ≤ rank l[i] := by
      rcases Nat.eq_zero_or_pos j with rfl | hpos
      · exact Nat.le_refl _
      · exact List.pairwise_iff_getElem.mp h.sorted i (i + j) hi (by omega) (by omega)
    simp [hp _ (List.getElem_mem _) hle]
  have hsplit : l.countP p = (l.take i).countP p + (l.drop i).countP p := by
    rw [← List.countP_append, List.take_append_drop]
  have hle : (l.take i).countP p ≤ (l.take i).length := List.countP_le_length
  rw [List.length_take] at hle
  omega

/-- An element comes after those above it and, with its peers, before the others. -/
theorem Ranked.position (h : Ranked rank all l) (hi : i < l.length) :
    above rank all l[i] ≤ i ∧ i < above rank all l[i] + peers rank all l[i] := by
  constructor
  · rw [above, ← h.perm.countP_eq]
    exact h.countP_le hi fun y _ hy => by simpa using hy
  · rw [above_add_peers, ← h.perm.countP_eq]
    exact h.le_countP hi fun y _ hy => by simpa using hy

/-- Only elements of a rank are between those above and those below. -/
theorem Ranked.rank_eq (h : Ranked rank all l) (hi : i < l.length) (hlo : above rank all x ≤ i)
    (hhi : i < above rank all x + peers rank all x) : rank l[i] = rank x := by
  rw [above_add_peers, ← h.perm.countP_eq] at hhi
  rw [above, ← h.perm.countP_eq] at hlo
  by_contra hne
  rcases Nat.lt_or_gt_of_ne hne with hlt | hgt
  · have := h.countP_le (p := fun y => rank x ≤ rank y) hi fun y _ hy => by simp; omega
    omega
  · have := h.le_countP (p := fun y => rank x < rank y) hi fun y _ hy => by simp; omega
    omega

/-! ## The pages together -/

/-- Pages cut each from its own order. -/
def pages (size m : Nat) (ls : Nat → List α) : List α := (List.range m).flatMap fun k => page size k (ls k)

theorem sum_range_ite (m j : Nat) :
    ((List.range m).map fun k => if k = j then 1 else 0).sum = if j < m then 1 else 0 := by
  induction m with
  | zero => rfl
  | succ m ih =>
    rw [List.range_succ, List.map_append, List.sum_append, ih, List.map_singleton, List.sum_singleton]
    split <;> split <;> split <;> omega

/-- Where no rank is broken, every element is on one page, once. -/
theorem count_pages [DecidableEq α] {ls : Nat → List α} (hsize : 0 < size) (hn : all.Nodup)
    (hall : all.length ≤ m * size) (h : Unbroken rank size all) (hls : ∀ k, Ranked rank all (ls k)) (hx : x ∈ all) :
    (pages size m ls).count x = 1 := by
  have hcount (k : Nat) : (page size k (ls k)).count x = if k = above rank all x / size then 1 else 0 := by
    obtain ⟨i, hi, rfl⟩ := List.mem_iff_getElem.mp ((hls k).perm.mem_iff.mpr hx)
    have hnk : (ls k).Nodup := (hls k).perm.nodup_iff.mpr hn
    obtain ⟨hlo, hhi⟩ := (hls k).position hi
    have heq := h _ hx
    have hle := Nat.div_le_div_right (c := size) hlo
    have hge := Nat.div_le_div_right (c := size)
      (show i ≤ above rank all (ls k)[i] + peers rank all (ls k)[i] - 1 by omega)
    rw [count_page hsize hnk hi, show i / size = above rank all (ls k)[i] / size by omega]
  have hlast : above rank all x / size < m := by
    have hpos : 0 < peers rank all x := List.countP_pos_iff.mpr ⟨x, hx, by simp⟩
    have hsum : above rank all x + peers rank all x ≤ all.length := by
      rw [above_add_peers]
      exact List.countP_le_length
    exact Nat.div_lt_of_lt_mul (by rw [Nat.mul_comm]; omega)
  rw [pages, List.count_flatMap]
  have hmap : List.count x ∘ (fun k => page size k (ls k)) = fun k => if k = above rank all x / size then 1 else 0 :=
    funext hcount
  rw [hmap, sum_range_ite, if_pos hlast]

/-- Two neighbours of one rank change places. -/
theorem Ranked.swap {l' : List α} (h : Ranked rank all (l ++ x :: y :: l')) (hxy : rank x = rank y) :
    Ranked rank all (l ++ y :: x :: l') := by
  obtain ⟨hperm, hsorted⟩ := h
  refine ⟨(List.Perm.append_left l (List.Perm.swap x y l')).trans hperm, ?_⟩
  rw [List.pairwise_append, List.pairwise_cons, List.pairwise_cons] at hsorted ⊢
  obtain ⟨hl, ⟨hx, hy, hl'⟩, hcross⟩ := hsorted
  refine ⟨hl, ⟨fun z hz => ?_, fun z hz => hx z (by simp [hz]), hl'⟩,
    fun a ha b hb => hcross a ha b (by simp at hb ⊢; tauto)⟩
  rcases List.mem_cons.mp hz with rfl | hz
  · omega
  · exact hy z hz

/-- An element can give its place to the next one of its rank. -/
theorem Ranked.exists_swapped {b : Nat} (h : Ranked rank all l) (hb : b + 1 < l.length)
    (hrank : rank l[b] = rank l[b + 1]) :
    ∃ l', Ranked rank all l' ∧ ∃ hlt : b + 1 < l'.length, l'[b + 1] = l[b] := by
  have hsplit : l = l.take b ++ l[b] :: l[b + 1] :: l.drop (b + 2) := by
    rw [List.getElem_cons_drop, List.getElem_cons_drop, List.take_append_drop]
  have hswap := (hsplit ▸ h : Ranked rank all (l.take b ++ l[b] :: l[b + 1] :: l.drop (b + 2))).swap hrank
  have htake : (l.take b).length = b := by
    rw [List.length_take]
    omega
  refine ⟨_, hswap, ?_, ?_⟩
  · rw [hswap.perm.length_eq, ← h.perm.length_eq]
    exact hb
  · rw [List.getElem_append_right (by omega)]
    simp [htake]

/-- Where a rank is broken, the end of a page is between two elements of it. -/
theorem Ranked.exists_straddle (hsize : 0 < size) (hl : Ranked rank all l) (h : ¬ Unbroken rank size all) :
    ∃ k b, (k + 1) * size = b + 1 ∧ ∃ hb : b + 1 < l.length, rank l[b] = rank l[b + 1] := by
  simp only [Unbroken, not_forall] at h
  obtain ⟨x, hx, hne⟩ := h
  obtain ⟨a, ha⟩ : ∃ a, above rank all x = a := ⟨_, rfl⟩
  obtain ⟨e, he⟩ : ∃ e, above rank all x + peers rank all x = e := ⟨_, rfl⟩
  have hlen : e ≤ l.length := by
    rw [← he, above_add_peers, hl.perm.length_eq]
    exact List.countP_le_length
  have hle : a / size ≤ (e - 1) / size := by
    have hpos : 0 < peers rank all x := List.countP_pos_iff.mpr ⟨x, hx, by simp⟩
    exact Nat.div_le_div_right (by omega)
  rw [he, ha] at hne
  obtain ⟨b, hb⟩ : ∃ b, (a / size + 1) * size = b + 1 := by
    rw [Nat.add_mul]
    exact ⟨a / size * size + 1 * size - 1, by omega⟩
  have hab : a ≤ b := by
    have := Nat.lt_div_mul_add hsize (a := a)
    rw [Nat.add_mul, Nat.one_mul] at hb
    omega
  have hbe : b + 1 < e := by
    have : (a / size + 1) * size ≤ e - 1 := (Nat.le_div_iff_mul_le hsize).mp (by omega)
    omega
  refine ⟨a / size, b, hb, by omega, ?_⟩
  rw [hl.rank_eq (x := x) (i := b) (by omega) (by omega) (by omega),
    hl.rank_eq (x := x) (i := b + 1) (by omega) (by omega) (by omega)]

/-- Where a rank is broken, an element can be on the page before and on the page after. -/
theorem exists_count_ne_one [DecidableEq α] (hsize : 0 < size) (hn : all.Nodup) (hall : all.length ≤ m * size)
    (hl : Ranked rank all l) (h : ¬ Unbroken rank size all) :
    ∃ ls : Nat → List α, (∀ k, Ranked rank all (ls k)) ∧ ∃ x ∈ all, (pages size m ls).count x ≠ 1 := by
  obtain ⟨j, b, hend, hb, hrank⟩ := hl.exists_straddle hsize h
  obtain ⟨l', hl', hb', hsame⟩ := hl.exists_swapped hb hrank
  have hnl : l.Nodup := hl.perm.nodup_iff.mpr hn
  have hnl' : l'.Nodup := hl'.perm.nodup_iff.mpr hn
  have hpage : b / size = j := by
    rw [Nat.div_eq_iff hsize]
    rw [Nat.add_mul, Nat.one_mul] at hend
    omega
  have hpage' : (b + 1) / size = j + 1 := by rw [← hend, Nat.mul_div_cancel _ hsize]
  -- The page after comes from the other order.
  refine ⟨fun k => if k = j + 1 then l' else l, fun k => ?_, l[b], hl.perm.mem_iff.mp (List.getElem_mem _), ?_⟩
  · show Ranked rank all (if k = j + 1 then l' else l)
    split
    · exact hl'
    · exact hl
  · have hcount : List.count l[b] ∘ (fun k => page size k (if k = j + 1 then l' else l)) =
        fun k => (if k = j then 1 else 0) + if k = j + 1 then 1 else 0 := by
      funext k
      show (page size k (if k = j + 1 then l' else l)).count l[b] = _
      split
      · next hk => rw [← hsame, count_page hsize hnl' hb', hpage', if_pos hk, if_neg (by omega)]
      · next hk => rw [count_page hsize hnl, hpage]; rfl
    have hm : j + 1 < m := by
      refine Nat.lt_of_mul_lt_mul_right (a := size) ?_
      have := hl.perm.length_eq
      omega
    rw [pages, List.count_flatMap, hcount, List.sum_map_add, sum_range_ite, sum_range_ite, if_pos (by omega), if_pos hm]
    decide

end Pages

/-
Lists trimmed at both ends, and runs in them collapsed to one element. Both
together are idempotent, and what they leave as it is are the lists that
neither begin nor end with a trimmed element and have no two run elements side
by side. Such a list, of two kinds of elements, is non-empty runs of one kind
with a single element of the other kind between them.
-/
import Mathlib.Data.List.DropRight
import Mathlib.Data.List.Chain

namespace List

variable {α : Type} {p q : α → Bool} {c : α} {l : List α}

/-! ## Trimming -/

/-- `l` without the elements at its two ends that are `p`. -/
def trimEnds (p : α → Bool) (l : List α) : List α := (l.dropWhile p).rdropWhile p

/-- Neither end is `p`. -/
def Trimmed (p : α → Bool) (l : List α) : Prop := (∀ a ∈ l.head?, p a = false) ∧ ∀ a ∈ l.getLast?, p a = false

theorem trimmed_eq_iff [DecidableEq α] : Trimmed (· = c) l ↔ l.head? ≠ some c ∧ l.getLast? ≠ some c := by
  have hend (o : Option α) : (∀ a ∈ o, decide (a = c) = false) ↔ o ≠ some c := by
    cases o with
    | none => simp
    | some a => simp
  exact and_congr (hend _) (hend _)

theorem trimEnds_sublist : trimEnds p l <+ l := ( rdropWhile_prefix p _).sublist.trans (dropWhile_sublist p)

theorem trimmed_trimEnds : Trimmed p (trimEnds p l) := by
  constructor
  · intro a ha
    obtain ⟨r, hr⟩ := rdropWhile_prefix p (l.dropWhile p)
    have hhead : (l.dropWhile p).head? = some a := by
      rw [← hr, head?_append_of_ne_nil]
      · exact ha
      · rintro hnil
        rw [trimEnds, hnil] at ha
        cases ha
    have hnot := head?_dropWhile_not p l
    rw [hhead] at hnot
    exact hnot
  · intro a ha
    obtain ⟨hne, rfl⟩ := mem_getLast?_eq_getLast ha
    exact Bool.eq_false_iff.mpr (rdropWhile_last_not p _ hne)

theorem trimEnds_eq_self (h : Trimmed p l) : trimEnds p l = l := by
  obtain ⟨hhead, hlast⟩ := h
  have hdrop : l.dropWhile p = l := by
    cases l with
    | nil => rfl
    | cons a l => rw [dropWhile_cons_of_neg (by simp [hhead a rfl])]
  rw [trimEnds, hdrop, rdropWhile_eq_self_iff]
  intro hne
  simp [hlast _ (getLast?_eq_getLast_of_ne_nil hne)]

/-! ## Collapsing -/

/-- Each run of elements that are `q` becomes one `c`, or none after an element that was in a run. -/
def collapse (q : α → Bool) (c : α) : Bool → List α → List α
  | _, [] => []
  | prev, a :: l =>
    if q a then
      if prev then collapse q c true l else c :: collapse q c true l
    else a :: collapse q c false l

/-- Only `c` is in a run, and runs are of one element. -/
def Collapsed (q : α → Bool) (c : α) (l : List α) : Prop :=
  (∀ a ∈ l, q a = true → a = c) ∧ l.IsChain fun a b => ¬ (q a = true ∧ q b = true)

theorem length_collapse_le (prev : Bool) : (collapse q c prev l).length ≤ l.length := by
  induction l generalizing prev with
  | nil => exact Nat.le_refl _
  | cons a l ih =>
    have htrue := ih true
    have hfalse := ih false
    rw [collapse]
    split
    · split
      · exact Nat.le_succ_of_le htrue
      · exact Nat.succ_le_succ htrue
    · exact Nat.succ_le_succ hfalse

/-- After an element in a run, a collapsed list goes on outside of runs. -/
theorem head?_collapse_true {a : α} (h : (collapse q c true l).head? = some a) : q a = false := by
  induction l with
  | nil => cases h
  | cons b l ih =>
    rw [collapse] at h
    split at h
    · exact ih h
    · next hb =>
      cases h
      simpa using hb

theorem collapsed_collapse (hc : q c = true) (prev : Bool) : Collapsed q c (collapse q c prev l) := by
  induction l generalizing prev with
  | nil => exact ⟨fun a ha => absurd ha not_mem_nil, IsChain.nil⟩
  | cons a l ih =>
    rw [collapse]
    split
    · obtain ⟨hmem, hchain⟩ := ih true
      split
      · exact ⟨hmem, hchain⟩
      · refine ⟨fun b hb hqb => ?_, List.isChain_cons.mpr ⟨fun b hb hq => ?_, hchain⟩⟩
        · rcases mem_cons.mp hb with rfl | hb
          · rfl
          · exact hmem b hb hqb
        · rw [head?_collapse_true hb] at hq
          exact absurd hq.2 (by simp)
    · next ha =>
      obtain ⟨hmem, hchain⟩ := ih false
      refine ⟨fun b hb hqb => ?_, List.isChain_cons.mpr ⟨fun b _ hq => ha hq.1, hchain⟩⟩
      rcases mem_cons.mp hb with rfl | hb
      · exact absurd hqb ha
      · exact hmem b hb hqb

theorem Collapsed.collapse_eq {prev : Bool} (h : Collapsed q c l) (hprev : prev = true → ∀ a ∈ l.head?, q a = false) :
    collapse q c prev l = l := by
  induction l generalizing prev with
  | nil => rfl
  | cons a l ih =>
    obtain ⟨hmem, hchain⟩ := h
    obtain ⟨hhead, hchain⟩ := List.isChain_cons.mp hchain
    have hl : Collapsed q c l := ⟨fun b hb => hmem b (mem_cons_of_mem _ hb), hchain⟩
    rw [collapse]
    split
    · next ha =>
      have hnext := @ih true hl fun _ b hb => by
        have := hhead b hb
        simpa [ha] using this
      cases prev with
      | true =>
        have := hprev rfl a rfl
        rw [ha] at this
        cases this
      | false =>
        rw [if_neg (by simp), hnext, hmem a (mem_cons_self ..) ha]
    · rw [@ih false hl fun h => by cases h]

/-- Ends that are in no run stay. -/
theorem head?_collapse {a : α} (hhead : l.head? = some a) (ha : q a = false) (prev : Bool) :
    (collapse q c prev l).head? = some a := by
  cases l with
  | nil => cases hhead
  | cons b l =>
    cases hhead
    rw [collapse, if_neg (by simp [ha])]
    rfl

theorem getLast?_collapse {a : α} (hlast : l.getLast? = some a) (ha : q a = false) (prev : Bool) :
    (collapse q c prev l).getLast? = some a := by
  induction l generalizing prev with
  | nil => cases hlast
  | cons b l ih =>
    rw [collapse]
    cases l with
    | nil =>
      cases hlast
      have hb : ¬ q b = true := Bool.eq_false_iff.mp ha
      rw [if_neg hb]
      rfl
    | cons d l =>
      have hlast : (d :: l).getLast? = some a := by simpa using hlast
      have hcons {x : α} {prev : Bool} : (x :: collapse q c prev (d :: l)).getLast? = some a := by
        rw [getLast?_cons, ih hlast prev]
        rfl
      split
      · split
        · exact ih hlast true
        · exact hcons
      · exact hcons

/-! ## Both -/

/-- Collapsing leaves a list trimmed that is trimmed of more than the run elements. -/
theorem Trimmed.collapse (hqp : ∀ a, q a = true → p a = true) (h : Trimmed p l) : Trimmed p (l.collapse q c false) := by
  have hq {a : α} (ha : p a = false) : q a = false := by
    by_contra hne
    rw [hqp a (by simpa using hne)] at ha
    cases ha
  by_cases hnil : l = []
  · subst hnil
    exact h
  · have hhead : l.head? = some (l.head hnil) := head?_eq_some_head hnil
    have hlast : l.getLast? = some (l.getLast hnil) := getLast?_eq_getLast_of_ne_nil hnil
    have hfirst := h.1 _ hhead
    have hend := h.2 _ hlast
    refine ⟨fun a ha => ?_, fun a ha => ?_⟩
    · rw [head?_collapse hhead (hq hfirst)] at ha
      cases ha
      exact hfirst
    · rw [getLast?_collapse hlast (hq hend)] at ha
      cases ha
      exact hend

/-- What trimming and collapsing leave as it is. -/
theorem collapse_trimEnds_eq_self_iff (hc : q c = true) :
    collapse q c false (trimEnds p l) = l ↔ Trimmed p l ∧ Collapsed q c l := by
  constructor
  · intro h
    have hlen := length_collapse_le (q := q) (c := c) (l := trimEnds p l) false
    rw [h] at hlen
    have htrim : trimEnds p l = l := trimEnds_sublist.eq_of_length_le hlen
    refine ⟨htrim ▸ trimmed_trimEnds, ?_⟩
    rw [← h]
    exact collapsed_collapse hc false
  · rintro ⟨htrim, hcoll⟩
    rw [trimEnds_eq_self htrim]
    exact hcoll.collapse_eq fun h => by cases h

theorem collapse_trimEnds_idem (hqp : ∀ a, q a = true → p a = true) (hc : q c = true) :
    collapse q c false (trimEnds p (collapse q c false (trimEnds p l))) = collapse q c false (trimEnds p l) :=
  (collapse_trimEnds_eq_self_iff hc).mpr ⟨trimmed_trimEnds.collapse hqp, collapsed_collapse hc false⟩

/-! ## Separating -/

/-- Non-empty runs of elements that are `P`, with one `c` between each and the next. -/
def Separated (c : α) (P : α → Prop) (l : List α) : Prop :=
  ∃ runs : List (List α), runs ≠ [] ∧ (∀ run ∈ runs, run ≠ [] ∧ ∀ a ∈ run, P a) ∧ l = [c].intercalate runs

namespace Separated

variable {P : α → Prop} {a : α} {run : List α}

theorem single (hrun : run ≠ []) (hP : ∀ a ∈ run, P a) : Separated c P run :=
  ⟨[run], cons_ne_nil _ _, by simpa using ⟨hrun, hP⟩, (intercalate_singleton).symm⟩

/-- One more run in front. -/
theorem cons (hrun : run ≠ []) (hP : ∀ a ∈ run, P a) (h : Separated c P l) : Separated c P (run ++ c :: l) := by
  obtain ⟨runs, hne, hruns, rfl⟩ := h
  refine ⟨run :: runs, cons_ne_nil _ _, forall_mem_cons.mpr ⟨⟨hrun, hP⟩, hruns⟩, ?_⟩
  rw [intercalate_cons_of_ne_nil hne, append_assoc]
  rfl

/-- One more element in the first run. -/
theorem longer (ha : P a) (h : Separated c P l) : Separated c P (a :: l) := by
  obtain ⟨runs, hne, hruns, rfl⟩ := h
  cases runs with
  | nil => exact absurd rfl hne
  | cons run runs =>
    obtain ⟨⟨hrun, hP⟩, hruns⟩ := forall_mem_cons.mp hruns
    refine ⟨(a :: run) :: runs, cons_ne_nil _ _, forall_mem_cons.mpr ⟨⟨cons_ne_nil _ _, ?_⟩, hruns⟩, ?_⟩
    · exact forall_mem_cons.mpr ⟨ha, hP⟩
    · cases runs with
      | nil => rw [intercalate_singleton, intercalate_singleton]
      | cons run' runs => rw [intercalate_cons_cons, intercalate_cons_cons, cons_append, cons_append]

/-- What holds of one run, and still holds with one more in front, holds of all separated lists. -/
theorem induct {motive : List α → Prop} (single : ∀ run, run ≠ [] → (∀ a ∈ run, P a) → motive run)
    (cons : ∀ run l, run ≠ [] → (∀ a ∈ run, P a) → Separated c P l → motive l → motive (run ++ c :: l))
    (h : Separated c P l) : motive l := by
  obtain ⟨runs, hne, hruns, rfl⟩ := h
  induction runs with
  | nil => exact absurd rfl hne
  | cons run runs ih =>
    obtain ⟨⟨hrun, hP⟩, hruns⟩ := forall_mem_cons.mp hruns
    by_cases hne : runs = []
    · subst hne
      rw [intercalate_singleton]
      exact single run hrun hP
    · rw [intercalate_cons_of_ne_nil hne, append_assoc]
      exact cons run _ hrun hP ⟨runs, hne, hruns, rfl⟩ (ih hne hruns)

end Separated

/-- **Separated runs**: what neither begins nor ends with the separator, and has no two of them side by side. -/
theorem separated_iff [DecidableEq α] {P : α → Prop} (hc : ¬ P c) : Separated c P l ↔
    l ≠ [] ∧ (∀ a ∈ l, P a ∨ a = c) ∧ Trimmed (· = c) l ∧ l.IsChain fun a b => ¬ (a = c ∧ b = c) := by
  constructor
  · intro h
    have hne {run : List α} (hP : ∀ a ∈ run, P a) {a : α} (ha : a ∈ run) : a ≠ c := fun h => hc (h ▸ hP a ha)
    have hchain {run : List α} (hP : ∀ a ∈ run, P a) : run.IsChain fun a b => ¬ (a = c ∧ b = c) :=
      Pairwise.isChain (pairwise_of_forall_mem_list fun a ha b _ h => hne hP ha h.1)
    refine h.induct (motive := fun l => l ≠ [] ∧ (∀ a ∈ l, P a ∨ a = c) ∧ Trimmed (· = c) l ∧
      l.IsChain fun a b => ¬ (a = c ∧ b = c)) (fun run hrun hP => ?_) fun run l hrun hP _ ih => ?_
    · refine ⟨hrun, fun a ha => .inl (hP a ha), ⟨fun a ha => ?_, fun a ha => ?_⟩, hchain hP⟩
      · exact decide_eq_false (hne hP (mem_of_mem_head? ha))
      · exact decide_eq_false (hne hP (mem_of_getLast? ha))
    · obtain ⟨hnil, hmem, ⟨hhead, hlast⟩, hl⟩ := ih
      refine ⟨append_ne_nil_of_left_ne_nil hrun _, fun a ha => ?_, ⟨fun a ha => ?_, fun a ha => ?_⟩, ?_⟩
      · rcases mem_append.mp ha with ha | ha
        · exact .inl (hP a ha)
        · rcases mem_cons.mp ha with rfl | ha
          · exact .inr rfl
          · exact hmem a ha
      · rw [head?_append_of_ne_nil _ hrun] at ha
        exact decide_eq_false (hne hP (mem_of_mem_head? ha))
      · rw [getLast?_append_of_ne_nil _ (cons_ne_nil _ _), getLast?_cons_of_ne_nil hnil] at ha
        exact hlast a ha
      · refine (hchain hP).append (isChain_cons.mpr ⟨fun a ha h => ?_, hl⟩) fun a ha b hb h => ?_
        · exact of_decide_eq_false (hhead a ha) h.2
        · exact hne hP (mem_of_getLast? ha) h.1
  · rintro ⟨hnil, hmem, ⟨hhead, hlast⟩, hchain⟩
    induction l using twoStepInduction with
    | nil => exact absurd rfl hnil
    | singleton a =>
      have ha : P a := (hmem a (mem_singleton_self a)).resolve_right (of_decide_eq_false (hhead a rfl))
      exact .single hnil fun b hb => mem_singleton.mp hb ▸ ha
    | cons_cons a b l ih ih' =>
      obtain ⟨hab, hchain⟩ := isChain_cons_cons.mp hchain
      have hac : a ≠ c := of_decide_eq_false (hhead a rfl)
      have ha : P a := (hmem a mem_cons_self).resolve_right hac
      rw [getLast?_cons_cons] at hlast
      have hmem : ∀ d ∈ b :: l, P d ∨ d = c := fun d hd => hmem d (mem_cons_of_mem _ hd)
      by_cases hb : b = c
      · -- The first run is `a` alone, and another one follows its separator.
        subst hb
        obtain ⟨hnext, hchain⟩ := isChain_cons.mp hchain
        have hl : l ≠ [] := by
          rintro rfl
          exact of_decide_eq_false (hlast b rfl) rfl
        rw [getLast?_cons_of_ne_nil hl] at hlast
        have hrest : Separated b P l := by
          refine ih hl (fun d hd => hmem d (mem_cons_of_mem _ hd)) hchain (fun d hd => ?_) hlast
          exact decide_eq_false fun h => hnext d hd ⟨rfl, h⟩
        exact .cons (cons_ne_nil a []) (fun d hd => mem_singleton.mp hd ▸ ha) hrest
      · refine .longer ha (ih' b (cons_ne_nil _ _) hmem hchain (fun d hd => ?_) hlast)
        cases hd
        exact decide_eq_false hb

end List

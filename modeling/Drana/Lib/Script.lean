/-
Scripts: queries of a state and statements that change it, one after the other.
A script can be stopped between any two statements, and started again from what
it has left; where its statements are of a kind that need not be done twice,
that leads to what one run would have led to.
-/
import Mathlib.Data.List.Infix

/-- Statements that change a state of type `σ`, some of them chosen by what the state holds. -/
inductive Script (σ : Type) where
  | done : Script σ
  | exec (statement : σ → σ) (rest : Script σ) : Script σ
  | ask (query : σ → Script σ) : Script σ

namespace Script

variable {σ : Type}

def run : Script σ → σ → σ
  | done, x => x
  | exec s rest, x => rest.run (s x)
  | ask k, x => (k x).run x

/-- The states in which a script can be stopped, the last one when it is done. -/
def points : Script σ → σ → List σ
  | done, x => [x]
  | exec s rest, x => x :: rest.points (s x)
  | ask k, x => (k x).points x

def andThen : Script σ → Script σ → Script σ
  | done, q => q
  | exec s rest, q => exec s (rest.andThen q)
  | ask k, q => ask fun x => (k x).andThen q

variable {p q : Script σ} {x y : σ}

theorem run_andThen : (p.andThen q).run x = q.run (p.run x) := by
  induction p generalizing x with
  | done => rfl
  | exec s rest ih => exact ih
  | ask k ih => exact ih x

theorem mem_points_andThen (h : y ∈ (p.andThen q).points x) : y ∈ p.points x ∨ y ∈ q.points (p.run x) := by
  induction p generalizing x with
  | done => exact .inr h
  | exec s rest ih =>
    rcases List.mem_cons.mp h with rfl | h
    · exact .inl List.mem_cons_self
    · exact (ih h).imp_left (List.mem_cons_of_mem x)
  | ask k ih => exact ih x h

theorem run_mem_points : p.run x ∈ p.points x := by
  induction p generalizing x with
  | done => exact List.mem_singleton.mpr rfl
  | exec s rest ih => exact List.mem_cons_of_mem x ih
  | ask k ih => exact ih x

/-! ## What every statement keeps -/

def Keeps (I : σ → Prop) : Script σ → Prop
  | done => True
  | exec s rest => (∀ x, I x → I (s x)) ∧ rest.Keeps I
  | ask k => ∀ x, (k x).Keeps I

variable {I : σ → Prop}

theorem Keeps.andThen (hp : p.Keeps I) (hq : q.Keeps I) : (p.andThen q).Keeps I := by
  induction p with
  | done => exact hq
  | exec s rest ih => exact ⟨hp.1, ih hp.2⟩
  | ask k ih => exact fun x => ih x (hp x)

/-- It holds wherever the script is stopped. -/
theorem Keeps.points (hp : p.Keeps I) (hx : I x) : ∀ y ∈ p.points x, I y := by
  induction p generalizing x with
  | done =>
    intro y hy
    rw [List.mem_singleton.mp hy]
    exact hx
  | exec s rest ih =>
    intro y hy
    rcases List.mem_cons.mp hy with rfl | hy
    · exact hx
    · exact ih hp.2 (hp.1 x hx) y hy
  | ask k ih => exact ih x (hp x) hx

theorem Keeps.run (hp : p.Keeps I) (hx : I x) : I (p.run x) := hp.points hx _ run_mem_points

/-! ## Scripts that do what a list of operations does -/

/-- Operations one after the other. -/
def applyAll (ops : List (σ → σ)) (x : σ) : σ := ops.foldl (fun x o => o x) x

theorem applyAll_append {ops ops' : List (σ → σ)} : applyAll (ops ++ ops') x = applyAll ops' (applyAll ops x) :=
  List.foldl_append

/-- Where the script can be stopped, a first part of the operations has been done. -/
structure Does (ops : List (σ → σ)) (p : Script σ) (x : σ) : Prop where
  run : p.run x = applyAll ops x
  points : ∀ y ∈ p.points x, ∃ before, before <+: ops ∧ y = applyAll before x

namespace Does

variable {ops ops' : List (σ → σ)} {s o : σ → σ}

theorem done : Does [] (Script.done : Script σ) x := by
  refine ⟨rfl, fun y hy => ⟨[], List.prefix_rfl, ?_⟩⟩
  exact List.mem_singleton.mp hy

/-- A statement that changes nothing. -/
theorem skip (hs : s x = x) (h : Does ops p x) : Does ops (exec s p) x := by
  refine ⟨by rw [Script.run, hs]; exact h.run, fun y hy => ?_⟩
  rcases List.mem_cons.mp hy with rfl | hy
  · exact ⟨[], List.nil_prefix, rfl⟩
  · rw [hs] at hy
    exact h.points y hy

theorem exec (hs : s x = o x) (h : Does ops p (o x)) : Does (o :: ops) (exec s p) x := by
  refine ⟨by rw [Script.run, hs]; exact h.run, fun y hy => ?_⟩
  rcases List.mem_cons.mp hy with rfl | hy
  · exact ⟨[], List.nil_prefix, rfl⟩
  · rw [hs] at hy
    obtain ⟨before, hpre, rfl⟩ := h.points y hy
    exact ⟨o :: before, List.cons_prefix_cons.mpr ⟨rfl, hpre⟩, rfl⟩

theorem ask {k : σ → Script σ} (h : Does ops (k x) x) : Does ops (ask k) x := ⟨h.run, h.points⟩

theorem andThen (h : Does ops p x) (h' : Does ops' q (applyAll ops x)) : Does (ops ++ ops') (p.andThen q) x := by
  refine ⟨by rw [run_andThen, h.run, h'.run, applyAll_append], fun y hy => ?_⟩
  rcases mem_points_andThen hy with hy | hy
  · obtain ⟨before, hpre, rfl⟩ := h.points y hy
    exact ⟨before, hpre.trans (List.prefix_append ops ops'), rfl⟩
  · rw [h.run] at hy
    obtain ⟨before, hpre, rfl⟩ := h'.points y hy
    exact ⟨ops ++ before, (List.prefix_append_right_inj ops).mpr hpre, applyAll_append.symm⟩

end Does

/-! ## Doing it again -/

/-- Each operation, once done, has nothing left to do, whatever of them follows. -/
structure Lasting (ops : List (σ → σ)) : Prop where
  once : ∀ o ∈ ops, ∀ x, o (o x) = o x
  stays : ∀ o ∈ ops, ∀ o' ∈ ops, ∀ x, o x = x → o (o' x) = o' x

theorem Lasting.fixed {ops before : List (σ → σ)} {o : σ → σ} (h : Lasting ops) (hb : ∀ o' ∈ before, o' ∈ ops)
    (ho : o ∈ ops)
    (hx : o x = x) : o (applyAll before x) = applyAll before x := by
  induction before generalizing x with
  | nil => exact hx
  | cons o' before ih =>
    rw [List.forall_mem_cons] at hb
    exact ih hb.2 (h.stays o ho o' hb.1 x hx)

/-- What has been done is left as it is. -/
theorem Lasting.redo {ops before : List (σ → σ)} (h : Lasting ops) (hb : ∀ o ∈ before, o ∈ ops) :
    applyAll before (applyAll before x) = applyAll before x := by
  have hall : ∀ (l : List (σ → σ)) (z : σ), (∀ o ∈ l, o z = z) → applyAll l z = z := by
    intro l z hl
    induction l with
    | nil => rfl
    | cons o l ih =>
      rw [List.forall_mem_cons] at hl
      show applyAll l (o z) = z
      rw [hl.1]
      exact ih hl.2
  refine hall before _ fun o ho => ?_
  obtain ⟨l, l', rfl⟩ := List.append_of_mem ho
  rw [applyAll_append]
  show o (applyAll l' (o (applyAll l x))) = applyAll l' (o (applyAll l x))
  have hl' : ∀ o' ∈ l', o' ∈ ops := fun o' ho' => hb o' (List.mem_append_right _ (List.mem_cons_of_mem _ ho'))
  exact h.fixed hl' (hb o ho) (h.once o (hb o ho) _)

/-- **Starting again** after a first part leads where all of them lead. -/
theorem Lasting.again {ops before : List (σ → σ)} (h : Lasting ops) (hpre : before <+: ops) :
    applyAll ops (applyAll before x) = applyAll ops x := by
  obtain ⟨after, rfl⟩ := hpre
  rw [applyAll_append, applyAll_append, h.redo fun o ho => List.mem_append_left _ ho]

end Script

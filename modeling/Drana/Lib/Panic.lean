/-
Go code that may panic: it returns a value or an error, or it does not return.
What cannot panic is lifted into such code, and a run of it returns as long as
no operation in it panics.
-/
import Drana.Lib.Except

/-- How an operation of Go panics. -/
inductive Panic
  | nilDereference
  | indexOutOfRange
  | divideByZero
deriving DecidableEq

/-- Go code with results `α`. -/
abbrev Go (α : Type) := ExceptT String (Except Panic) α

namespace Go

variable {α β : Type}

/-- What is returned, by code that does not panic. -/
def returned (x : Except String α) : Go α := ExceptT.mk (.ok x)

def panic (p : Panic) : Go α := ExceptT.mk (.error p)

/-- The run comes to its end, with a value or with an error. -/
def Returns (x : Go α) : Prop := ∃ r, x = returned r

/-- `*p` -/
def deref : Option α → Go α
  | some a => pure a
  | none => panic .nilDereference

/-- `l[i]` -/
def index (l : List α) (i : Nat) : Go α :=
  match l[i]? with
  | some a => pure a
  | none => panic .indexOutOfRange

/-- Code run for its panics. -/
def tries (x : Go α) : Go Unit := ExceptT.mk (x.run.map fun _ => .ok ())

variable {x : Go α} {f : α → Go β} {r : Except String α}

theorem pure_eq {a : α} : (pure a : Go α) = returned (.ok a) := rfl

theorem pure_returns {a : α} : Returns (pure a : Go α) := ⟨.ok a, rfl⟩

theorem returned_returns : (returned r).Returns := ⟨r, rfl⟩

theorem not_panic_returns {p : Panic} : ¬ (panic p : Go α).Returns := by
  rintro ⟨r, h⟩
  cases h

theorem panic_bind {p : Panic} : (panic p : Go α) >>= f = panic p := rfl

theorem ok_bind {a : α} : (returned (.ok a) : Go α) >>= f = f a := rfl

theorem returned_bind {g : α → Except String β} : (returned r >>= fun a => returned (g a)) = returned (r >>= g) := by
  cases r <;> rfl

/-- A sequence returns if its parts do. -/
theorem Returns.bind (h : x.Returns) (hf : ∀ a, (f a).Returns) : (x >>= f).Returns := by
  obtain ⟨r, rfl⟩ := h
  cases r with
  | ok a => exact hf a
  | error err => exact ⟨.error err, rfl⟩

/-- What returns is tried without effect. -/
theorem tries_bind (h : x.Returns) {y : Go β} : (x.tries >>= fun _ => y) = y := by
  obtain ⟨r, rfl⟩ := h
  rfl

theorem index_returns {l : List α} {i : Nat} (h : i < l.length) : (index l i).Returns := by
  rw [index, List.getElem?_eq_getElem h]
  exact pure_returns

end Go

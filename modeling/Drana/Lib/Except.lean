/-
Running computations that may fail. A Go function that returns an error is
an `Except String` here; these lemmas take a successful run apart, one
statement at a time.
-/
import Mathlib.Data.List.Perm.Basic

namespace Except

variable {ε α β : Type}

@[simp] theorem bind_ok_iff {x : Except ε α} {f : α → Except ε β} {b : β} :
    (x >>= f) = .ok b ↔ ∃ a, x = .ok a ∧ f a = .ok b := by
  cases x <;> simp [bind, Except.bind]

@[simp] theorem ok_bind {a : α} {f : α → Except ε β} : (Except.ok a >>= f) = f a := rfl

@[simp] theorem pure_ok_iff {a b : α} : (pure a : Except ε α) = .ok b ↔ a = b := by
  simp [pure, Except.pure]

/-- The value of a run that succeeds. -/
def value [Inhabited α] : Except ε α → α
  | .ok a => a
  | .error _ => default

theorem ok_value [Inhabited α] {x : Except ε α} (h : x.isOk = true) : x = .ok x.value := by
  cases x with
  | ok a => rfl
  | error e => cases h

theorem exists_ok {x : Except ε α} (h : x.isOk = true) : ∃ a, x = .ok a := by
  cases x with
  | ok a => exact ⟨a, rfl⟩
  | error e => cases h

/-- What goes on after a run that succeeds, and does so whatever its value is, succeeds. -/
theorem bind_total {x : Except ε α} {f : α → Except ε β} (hx : ∃ a, x = .ok a) (hf : ∀ a, ∃ b, f a = .ok b) :
    ∃ b, (x >>= f) = .ok b := by
  obtain ⟨a, rfl⟩ := hx
  exact hf a

@[simp] theorem toOption_eq_some_iff {x : Except ε α} {a : α} : x.toOption = some a ↔ x = .ok a := by
  cases x <;> simp [Except.toOption]

/-- The value of `o`, or the error `e`. -/
def orThrow (o : Option α) (e : ε) : Except ε α :=
  match o with
  | some a => .ok a
  | none => .error e

@[simp] theorem orThrow_ok_iff {o : Option α} {e : ε} {a : α} : orThrow o e = .ok a ↔ o = some a := by
  cases o <;> simp [orThrow]

/-- `if p { return e }`. -/
def throwIf (p : Prop) [Decidable p] (e : ε) : Except ε Unit :=
  if p then .error e else .ok ()

@[simp] theorem throwIf_ok_iff {p : Prop} [Decidable p] {e : ε} {u : Unit} :
    throwIf p e = .ok u ↔ ¬ p := by
  simp [throwIf]

theorem throwIf_of {p : Prop} [Decidable p] {e : ε} (h : p) : throwIf p e = .error e := if_pos h

theorem throwIf_of_not {p : Prop} [Decidable p] {e : ε} (h : ¬ p) : throwIf p e = .ok () := if_neg h

/-- `fmt.Errorf("prefix: %w", err)`. -/
def wrapErr (f : ε → ε) (x : Except ε α) : Except ε α :=
  match x with
  | .ok a => .ok a
  | .error e => .error (f e)

@[simp] theorem wrapErr_ok_iff {f : ε → ε} {x : Except ε α} {a : α} :
    wrapErr f x = .ok a ↔ x = .ok a := by
  cases x <;> simp [wrapErr]

@[simp] theorem foldlM_nil_ok_iff {f : β → α → Except ε β} {b r : β} :
    ([] : List α).foldlM f b = .ok r ↔ b = r := by
  simp

theorem foldlM_cons_ok_iff {f : β → α → Except ε β} {a : α} {l : List α} {b r : β} :
    (a :: l).foldlM f b = .ok r ↔ ∃ b', f b a = .ok b' ∧ l.foldlM f b' = .ok r := by
  simp

/-- What each iteration of a loop keeps, the loop keeps. -/
theorem foldlM_inv {f : β → α → Except ε β} (I : β → Prop) {l : List α} {b r : β}
    (step : ∀ a ∈ l, ∀ b b', I b → f b a = .ok b' → I b') (hb : I b) (h : l.foldlM f b = .ok r) : I r := by
  induction l generalizing b with
  | nil => exact foldlM_nil_ok_iff.mp h ▸ hb
  | cons a l ih =>
    obtain ⟨b', hf, hrest⟩ := foldlM_cons_ok_iff.mp h
    exact ih (fun a' ha' => step a' (List.mem_cons_of_mem a ha')) (step a List.mem_cons_self b b' hb hf) hrest

/-- A loop whose body never fails does not fail. -/
theorem foldlM_total {f : β → α → Except ε β} (h : ∀ b a, ∃ b', f b a = .ok b') (l : List α) (b : β) :
    ∃ r, l.foldlM f b = .ok r := by
  induction l generalizing b with
  | nil => exact ⟨b, rfl⟩
  | cons a l ih =>
    obtain ⟨b', hf⟩ := h b a
    obtain ⟨r, hr⟩ := ih b'
    exact ⟨r, foldlM_cons_ok_iff.mpr ⟨b', hf, hr⟩⟩

/-- `y` succeeds wherever `x` does, and alike. -/
def Extends (x y : Except ε α) : Prop := ∀ a, x = .ok a → y = .ok a

namespace Extends

protected theorem refl {x : Except ε α} : Extends x x := fun _ h => h

theorem bind {x y : Except ε α} {f g : α → Except ε β} (hx : Extends x y) (hf : ∀ a, Extends (f a) (g a)) :
    Extends (x >>= f) (y >>= g) := by
  intro b h
  obtain ⟨a, ha, hb⟩ := bind_ok_iff.mp h
  exact bind_ok_iff.mpr ⟨a, hx a ha, hf a b hb⟩

theorem ite {p : Prop} [Decidable p] {x x' y y' : Except ε α} (h : Extends x x') (h' : Extends y y') :
    Extends (if p then x else y) (if p then x' else y') := by
  split
  · exact h
  · exact h'

theorem wrapErr {e : ε → ε} {x y : Except ε α} (h : Extends x y) : Extends (wrapErr e x) (wrapErr e y) :=
  fun a ha => wrapErr_ok_iff.mpr (h a (wrapErr_ok_iff.mp ha))

theorem foldlM {f g : β → α → Except ε β} (h : ∀ b a, Extends (f b a) (g b a)) (l : List α) (b : β) :
    Extends (l.foldlM f b) (l.foldlM g b) := by
  induction l generalizing b with
  | nil => exact .refl
  | cons a l ih => exact .bind (h b a) fun b' => ih b'

end Extends

end Except

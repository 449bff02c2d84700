/-
Two runs side by side: computations that may fail, with one outcome up to a
relation between their values. And loops whose iterations commute, which do not
depend on the order they take.
-/
import Drana.Lib.Except

namespace Except

variable {ε α β γ δ : Type} {R : α → β → Prop} {Q : γ → δ → Prop}

/-- Values related by `R`, or the same error. -/
def Both (R : α → β → Prop) : Except ε α → Except ε β → Prop
  | .ok a, .ok b => R a b
  | .error e, .error e' => e = e'
  | _, _ => False

namespace Both

theorem ok_left {x : Except ε α} {y : Except ε β} (h : Both R x y) {a : α} (hx : x = .ok a) :
    ∃ b, y = .ok b ∧ R a b := by
  subst hx
  cases y with
  | ok b => exact ⟨b, rfl, h⟩
  | error e => cases h

theorem error_left {x : Except ε α} {y : Except ε β} (h : Both R x y) {e : ε} (hx : x = .error e) :
    y = .error e := by
  subst hx
  cases y with
  | ok b => cases h
  | error e' => exact congrArg Except.error (show e = e' from h).symm

protected theorem refl {R : α → α → Prop} (hR : ∀ a, R a a) (x : Except ε α) : Both R x x := by
  cases x with
  | ok a => exact hR a
  | error e => rfl

/-- The same computation on both sides. -/
theorem eq (x : Except ε α) : Both Eq x x := .refl (fun _ => rfl) x

theorem mono {R' : α → β → Prop} {x : Except ε α} {y : Except ε β} (h : Both R x y)
    (hR : ∀ a b, x = .ok a → y = .ok b → R a b → R' a b) : Both R' x y := by
  cases x with
  | ok a =>
    cases y with
    | ok b => exact hR a b rfl rfl h
    | error e => cases h
  | error e =>
    cases y with
    | ok b => cases h
    | error e' => exact h

theorem bind {x : Except ε α} {y : Except ε β} {f : α → Except ε γ} {g : β → Except ε δ} (h : Both R x y)
    (hf : ∀ a b, x = .ok a → y = .ok b → R a b → Both Q (f a) (g b)) : Both Q (x >>= f) (y >>= g) := by
  cases x with
  | ok a =>
    cases y with
    | ok b => exact hf a b rfl rfl h
    | error e => cases h
  | error e =>
    cases y with
    | ok b => cases h
    | error e' => exact h

theorem throwIf {p p' : Prop} [Decidable p] [Decidable p'] (hp : p ↔ p') (e : ε) :
    Both Eq (throwIf p e) (throwIf p' e) := by
  simp only [Except.throwIf, hp]
  exact .eq _

theorem orThrow {o : Option α} {o' : Option β} (h : Option.Rel R o o') (e : ε) : Both R (orThrow o e) (orThrow o' e) := by
  cases h with
  | some h => exact h
  | none => rfl

theorem wrapErr {e : ε → ε} {x : Except ε α} {y : Except ε β} (h : Both R x y) :
    Both R (wrapErr e x) (wrapErr e y) := by
  cases x with
  | ok a =>
    cases y with
    | ok b => exact h
    | error e' => cases h
  | error e₁ =>
    cases y with
    | ok b => cases h
    | error e₂ => exact congrArg e h

/-- Three runs, the first beside the second and the second beside the third. -/
theorem comp {P : α → δ → Prop} {Q : β → δ → Prop} {x : Except ε α} {y : Except ε β} {z : Except ε δ} (h : Both R x y)
    (h' : Both Q y z) (hP : ∀ a b d, R a b → Q b d → P a d) : Both P x z := by
  cases x with
  | ok a =>
    obtain ⟨b, rfl, hab⟩ := h.ok_left rfl
    obtain ⟨d, rfl, hbd⟩ := h'.ok_left rfl
    exact hP a b d hab hbd
  | error e =>
    obtain rfl := h.error_left rfl
    obtain rfl := h'.error_left rfl
    rfl

/-- One loop over one list, from related values. -/
theorem foldlM {f : α → γ → Except ε α} {g : β → γ → Except ε β} {l : List γ}
    (hf : ∀ c ∈ l, ∀ a b, R a b → Both R (f a c) (g b c)) {a : α} {b : β} (h : R a b) :
    Both R (l.foldlM f a) (l.foldlM g b) := by
  induction l generalizing a b with
  | nil => exact h
  | cons c l ih =>
    rw [List.foldlM_cons, List.foldlM_cons]
    refine .bind (hf c List.mem_cons_self a b h) fun a' b' _ _ h' => ?_
    exact ih (fun d hd => hf d (List.mem_cons_of_mem c hd)) h'

end Both

section Loops

variable {R : α → α → Prop} {f : α → γ → Except ε α}

/-- A loop whose iterations commute up to `R` does not depend on their order, up
to `R`. `I` is what they keep, and what lets them commute. -/
theorem foldlM_perm (I : α → Prop) (hI : ∀ a c a', I a → f a c = .ok a' → I a') (hrefl : ∀ a, R a a)
    (htrans : ∀ a b c, R a b → R b c → R a c) (hcong : ∀ c a b, R a b → Both R (f a c) (f b c))
    (hcomm : ∀ a, I a → ∀ c d, Both R (f a c >>= (f · d)) (f a d >>= (f · c))) {l l' : List γ} (hp : l.Perm l') {a : α}
    (ha : I a) : Both R (l.foldlM f a) (l'.foldlM f a) := by
  induction hp generalizing a with
  | nil => exact hrefl a
  | cons c hp ih =>
    rw [List.foldlM_cons, List.foldlM_cons]
    cases hc : f a c with
    | ok a' => exact ih (hI a c a' ha hc)
    | error e => rfl
  | swap c d l =>
    simp only [List.foldlM_cons, ← bind_assoc]
    exact (hcomm a ha d c).bind fun a' b' _ _ hab => .foldlM (fun c _ => hcong c) hab
  | trans h₁ h₂ ih₁ ih₂ => exact (ih₁ ha).comp (ih₂ ha) htrans

end Loops

end Except

/-- Lists related element by element: each element has its counterpart. -/
theorem List.Forall₂.exists_of_mem {α β : Type} {R : α → β → Prop} {l : List α} {l' : List β} (h : List.Forall₂ R l l')
    {a : α} (ha : a ∈ l) : ∃ b ∈ l', R a b := by
  induction h with
  | nil => cases ha
  | @cons x y l l' hxy _ ih =>
    rcases List.mem_cons.mp ha with rfl | ha
    · exact ⟨y, List.mem_cons_self, hxy⟩
    · obtain ⟨b, hb, hab⟩ := ih ha
      exact ⟨b, List.mem_cons_of_mem y hb, hab⟩

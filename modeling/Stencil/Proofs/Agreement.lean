import Stencil.Error

/-!
# Computations that fail together

Two computations are compared by their outcomes: both fail, with errors that are compared in one
way, or both succeed, with results that are compared in another.
-/

namespace Stencil

/-- Two computations fail together, with errors in the relation `E`, or give results in the relation
`S`. -/
def Agree {ε α β : Type} (E : ε → ε → Prop) (S : α → β → Prop) : Except ε α → Except ε β → Prop
  | .ok a, .ok b => S a b
  | .error e, .error e' => E e e'
  | _, _ => False

namespace Agree

variable {ε α β γ δ : Type} {E : ε → ε → Prop} {S : α → β → Prop} {T : γ → δ → Prop}
  {x : Except ε α} {y : Except ε β}

theorem cases (h : Agree E S x y) :
    (∃ e e', x = .error e ∧ y = .error e' ∧ E e e') ∨ ∃ a b, x = .ok a ∧ y = .ok b ∧ S a b := by
  cases x with
  | error e => cases y with
    | error e' => exact .inl ⟨e, e', rfl, rfl, h⟩
    | ok => exact h.elim
  | ok a => cases y with
    | error => exact h.elim
    | ok b => exact .inr ⟨a, b, rfl, rfl, h⟩

theorem refl (hE : ∀ e, E e e) (x : Except ε α) : Agree E Eq x x := by
  cases x with
  | error e => exact hE e
  | ok a => rfl

theorem bind {f : α → Except ε γ} {g : β → Except ε δ} (h : Agree E S x y)
    (hf : ∀ a b, x = .ok a → y = .ok b → S a b → Agree E T (f a) (g b)) :
    Agree E T (x >>= f) (y >>= g) := by
  rcases h.cases with ⟨e, e', rfl, rfl, he⟩ | ⟨a, b, rfl, rfl, hab⟩
  · exact he
  · exact hf a b rfl rfl hab

theorem map {f : α → γ} {g : β → δ} (h : Agree E S x y) (hf : ∀ a b, S a b → T (f a) (g b)) :
    Agree E T (x.map f) (y.map g) := by
  rcases h.cases with ⟨e, e', rfl, rfl, he⟩ | ⟨a, b, rfl, rfl, hab⟩
  · exact he
  · exact hf a b hab

theorem mono {S' : α → β → Prop} (h : Agree E S x y) (hS : ∀ a b, S a b → S' a b) :
    Agree E S' x y := by
  rcases h.cases with ⟨e, e', rfl, rfl, he⟩ | ⟨a, b, rfl, rfl, hab⟩
  · exact he
  · exact hS a b hab

/-- Computations that give the same results succeed together. -/
theorem ok_iff {x y : Except ε α} (h : Agree E Eq x y) (a : α) : x = .ok a ↔ y = .ok a := by
  rcases h.cases with ⟨e, e', rfl, rfl, -⟩ | ⟨b, c, rfl, rfl, rfl⟩
  · simp
  · rfl

/-- Computations that fail with the same errors fail together. -/
theorem error_iff (h : Agree Eq S x y) (e : ε) : x = .error e ↔ y = .error e := by
  rcases h.cases with ⟨e₁, e₂, rfl, rfl, rfl⟩ | ⟨a, b, rfl, rfl, -⟩
  · simp
  · simp

end Agree

/-- Errors that need not be the same. -/
def Anyhow (_ _ : ReadError) : Prop :=
  True

/-- Computations that succeed together, with the same results, agree if errors do not matter. -/
theorem Agree.of_ok_iff {α : Type} {x y : Except ReadError α} (h : ∀ a, x = .ok a ↔ y = .ok a) :
    Agree Anyhow Eq x y := by
  cases x with
  | error e => cases y with
    | error e' => trivial
    | ok b => cases (h b).mpr rfl
  | ok a =>
    obtain rfl := (h a).mp rfl
    rfl

end Stencil

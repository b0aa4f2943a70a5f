import Stencil.Expr

/-!
# Equality of expressions

Equality of expressions is decided by walking both at once. The nested types are walked by one
function each.
-/

namespace Stencil

mutual

/-- Equality of expressions. -/
def Expr.decideEq : (a b : Expr) → Decidable (a = b)
  | ⟨c, s⟩, ⟨c', s'⟩ =>
    match decEq c c', Expr.decideEqSteps s s' with
    | isTrue hc, isTrue hs => isTrue (by rw [hc, hs])
    | isFalse hc, _ => isFalse fun h => hc (by injection h)
    | _, isFalse hs => isFalse fun h => hs (by injection h)
termination_by structural a => a

/-- Equality of pipelines. -/
def Expr.decideEqSteps : (a b : List (Step Expr)) → Decidable (a = b)
  | [], [] => isTrue rfl
  | [], _ :: _ => isFalse (by simp)
  | _ :: _, [] => isFalse (by simp)
  | s :: ss, t :: ts =>
    match Expr.decideEqStep s t, Expr.decideEqSteps ss ts with
    | isTrue hs, isTrue ht => isTrue (by rw [hs, ht])
    | isFalse hs, _ => isFalse fun h => hs (by injection h)
    | _, isFalse ht => isFalse fun h => ht (by injection h)
termination_by structural a => a

/-- Equality of steps. -/
def Expr.decideEqStep : (a b : Step Expr) → Decidable (a = b)
  | .apply n as, .apply m bs =>
    match decEq n m, Expr.decideEqArgs as bs with
    | isTrue h₁, isTrue h₂ => isTrue (by rw [h₁, h₂])
    | isFalse h₁, _ => isFalse fun h => h₁ (by injection h)
    | _, isFalse h₂ => isFalse fun h => h₂ (by injection h)
  | .truncate l e k, .truncate l' e' k' =>
    match Expr.decideEq l l', Expr.decideEqOption e e', decEq k k' with
    | isTrue h₁, isTrue h₂, isTrue h₃ => isTrue (by rw [h₁, h₂, h₃])
    | isFalse h₁, _, _ => isFalse fun h => h₁ (by injection h)
    | _, isFalse h₂, _ => isFalse fun h => h₂ (by injection h)
    | _, _, isFalse h₃ => isFalse fun h => h₃ (by injection h)
  | .replace o n c, .replace o' n' c' =>
    match Expr.decideEq o o', Expr.decideEq n n', Expr.decideEqOption c c' with
    | isTrue h₁, isTrue h₂, isTrue h₃ => isTrue (by rw [h₁, h₂, h₃])
    | isFalse h₁, _, _ => isFalse fun h => h₁ (by injection h)
    | _, isFalse h₂, _ => isFalse fun h => h₂ (by injection h)
    | _, _, isFalse h₃ => isFalse fun h => h₃ (by injection h)
  | .select k v, .select k' v' =>
    match Expr.decideEq k k', Expr.decideEqOption v v' with
    | isTrue h₁, isTrue h₂ => isTrue (by rw [h₁, h₂])
    | isFalse h₁, _ => isFalse fun h => h₁ (by injection h)
    | _, isFalse h₂ => isFalse fun h => h₂ (by injection h)
  | .sort k r, .sort k' r' =>
    match Expr.decideEqOption k k', decEq r r' with
    | isTrue h₁, isTrue h₂ => isTrue (by rw [h₁, h₂])
    | isFalse h₁, _ => isFalse fun h => h₁ (by injection h)
    | _, isFalse h₂ => isFalse fun h => h₂ (by injection h)
  | .apply .., .truncate .. | .apply .., .replace .. | .apply .., .select ..
  | .apply .., .sort .. | .truncate .., .apply .. | .truncate .., .replace ..
  | .truncate .., .select .. | .truncate .., .sort .. | .replace .., .apply ..
  | .replace .., .truncate .. | .replace .., .select .. | .replace .., .sort ..
  | .select .., .apply .. | .select .., .truncate .. | .select .., .replace ..
  | .select .., .sort .. | .sort .., .apply .. | .sort .., .truncate ..
  | .sort .., .replace .. | .sort .., .select .. => isFalse (by simp)
termination_by structural a => a

/-- Equality of argument lists. -/
def Expr.decideEqArgs : (a b : List Expr) → Decidable (a = b)
  | [], [] => isTrue rfl
  | [], _ :: _ => isFalse (by simp)
  | _ :: _, [] => isFalse (by simp)
  | a :: as, b :: bs =>
    match Expr.decideEq a b, Expr.decideEqArgs as bs with
    | isTrue h₁, isTrue h₂ => isTrue (by rw [h₁, h₂])
    | isFalse h₁, _ => isFalse fun h => h₁ (by injection h)
    | _, isFalse h₂ => isFalse fun h => h₂ (by injection h)
termination_by structural a => a

/-- Equality of optional arguments. -/
def Expr.decideEqOption : (a b : Option Expr) → Decidable (a = b)
  | none, none => isTrue rfl
  | none, some _ => isFalse (by simp)
  | some _, none => isFalse (by simp)
  | some a, some b =>
    match Expr.decideEq a b with
    | isTrue h => isTrue (by rw [h])
    | isFalse h => isFalse fun e => h (by injection e)
termination_by structural a => a

end

instance : DecidableEq Expr := Expr.decideEq

end Stencil

import Stencil.Node

/-!
# Equality of templates

Equality of nodes is decided by walking both at once, markers included.

## Main results

* `Node.decideEq` : the decision procedure, and the instance `DecidableEq Node`.
-/

namespace Stencil

mutual

/-- Equality of nodes. -/
def Node.decideEq : (a b : Node) → Decidable (a = b)
  | .text c, .text c' =>
    match decEq c c' with
    | isTrue h => isTrue (by rw [h])
    | isFalse h => isFalse fun e => h (by injection e)
  | .output x t, .output x' t' =>
    match decEq x x', decEq t t' with
    | isTrue h₁, isTrue h₂ => isTrue (by rw [h₁, h₂])
    | isFalse h, _ => isFalse fun e => h (by injection e)
    | _, isFalse h => isFalse fun e => h (by injection e)
  | .conditional v bs t et, .conditional v' bs' t' et' =>
    match decEq (v, t, et) (v', t', et'), Node.decideEqBranches bs bs' with
    | isTrue h₁, isTrue h₂ => isTrue (by simp_all)
    | isFalse h, _ => isFalse (by simp_all)
    | _, isFalse h => isFalse (by simp_all)
  | .loop n c cs es t lt et, .loop n' c' cs' es' t' lt' et' =>
    match decEq (n, c, t, lt, et) (n', c', t', lt', et'), Node.decideEqList cs cs',
      Node.decideEqOption es es' with
    | isTrue h₁, isTrue h₂, isTrue h₃ => isTrue (by simp_all)
    | isFalse h, _, _ => isFalse (by simp_all)
    | _, isFalse h, _ => isFalse (by simp_all)
    | _, _, isFalse h => isFalse (by simp_all)
  | .assignment n x cs t et, .assignment n' x' cs' t' et' =>
    match decEq (n, x, t, et) (n', x', t', et'), Node.decideEqOption cs cs' with
    | isTrue h₁, isTrue h₂ => isTrue (by simp_all)
    | isFalse h, _ => isFalse (by simp_all)
    | _, isFalse h => isFalse (by simp_all)
  | .comment c t et, .comment c' t' et' =>
    match decEq (c, t, et) (c', t', et') with
    | isTrue h => isTrue (by simp_all)
    | isFalse h => isFalse (by simp_all)
  | .raw c t et, .raw c' t' et' =>
    match decEq (c, t, et) (c', t', et') with
    | isTrue h => isTrue (by simp_all)
    | isFalse h => isFalse (by simp_all)
  | .subtemplate x i t, .subtemplate x' i' t' =>
    match decEq (x, i, t) (x', i', t') with
    | isTrue h => isTrue (by simp_all)
    | isFalse h => isFalse (by simp_all)
  | .tag n a cs t, .tag n' a' cs' t' =>
    match decEq (n, a, t) (n', a', t'), Node.decideEqList cs cs' with
    | isTrue h₁, isTrue h₂ => isTrue (by simp_all)
    | isFalse h, _ => isFalse (by simp_all)
    | _, isFalse h => isFalse (by simp_all)
  | .text .., .output .. | .text .., .conditional .. | .text .., .loop ..
  | .text .., .assignment .. | .text .., .comment .. | .text .., .raw ..
  | .text .., .subtemplate .. | .text .., .tag .. | .output .., .text ..
  | .output .., .conditional .. | .output .., .loop .. | .output .., .assignment ..
  | .output .., .comment .. | .output .., .raw .. | .output .., .subtemplate ..
  | .output .., .tag .. | .conditional .., .text .. | .conditional .., .output ..
  | .conditional .., .loop .. | .conditional .., .assignment .. | .conditional .., .comment ..
  | .conditional .., .raw .. | .conditional .., .subtemplate .. | .conditional .., .tag ..
  | .loop .., .text .. | .loop .., .output .. | .loop .., .conditional ..
  | .loop .., .assignment .. | .loop .., .comment .. | .loop .., .raw ..
  | .loop .., .subtemplate .. | .loop .., .tag .. | .assignment .., .text ..
  | .assignment .., .output .. | .assignment .., .conditional .. | .assignment .., .loop ..
  | .assignment .., .comment .. | .assignment .., .raw .. | .assignment .., .subtemplate ..
  | .assignment .., .tag .. | .comment .., .text .. | .comment .., .output ..
  | .comment .., .conditional .. | .comment .., .loop .. | .comment .., .assignment ..
  | .comment .., .raw .. | .comment .., .subtemplate .. | .comment .., .tag .. | .raw .., .text ..
  | .raw .., .output .. | .raw .., .conditional .. | .raw .., .loop .. | .raw .., .assignment ..
  | .raw .., .comment .. | .raw .., .subtemplate .. | .raw .., .tag .. | .subtemplate .., .text ..
  | .subtemplate .., .output .. | .subtemplate .., .conditional .. | .subtemplate .., .loop ..
  | .subtemplate .., .assignment .. | .subtemplate .., .comment .. | .subtemplate .., .raw ..
  | .subtemplate .., .tag .. | .tag .., .text .. | .tag .., .output .. | .tag .., .conditional ..
  | .tag .., .loop .. | .tag .., .assignment .. | .tag .., .comment .. | .tag .., .raw ..
  | .tag .., .subtemplate .. => isFalse (by simp)
termination_by structural a => a

/-- Equality of node lists. -/
def Node.decideEqList : (a b : List Node) → Decidable (a = b)
  | [], [] => isTrue rfl
  | [], _ :: _ => isFalse (by simp)
  | _ :: _, [] => isFalse (by simp)
  | a :: as, b :: bs =>
    match Node.decideEq a b, Node.decideEqList as bs with
    | isTrue h₁, isTrue h₂ => isTrue (by rw [h₁, h₂])
    | isFalse h, _ => isFalse fun e => h (by injection e)
    | _, isFalse h => isFalse fun e => h (by injection e)
termination_by structural a => a

/-- Equality of optional node lists. -/
def Node.decideEqOption : (a b : Option (List Node)) → Decidable (a = b)
  | none, none => isTrue rfl
  | none, some _ => isFalse (by simp)
  | some _, none => isFalse (by simp)
  | some a, some b =>
    match Node.decideEqList a b with
    | isTrue h => isTrue (by rw [h])
    | isFalse h => isFalse fun e => h (by injection e)
termination_by structural a => a

/-- Equality of arms. -/
def Node.decideEqBranch : (a b : Branch (List Node)) → Decidable (a = b)
  | ⟨c, b, t⟩, ⟨c', b', t'⟩ =>
    match decEq (c, t) (c', t'), Node.decideEqList b b' with
    | isTrue h₁, isTrue h₂ => isTrue (by simp_all)
    | isFalse h, _ => isFalse (by simp_all)
    | _, isFalse h => isFalse (by simp_all)
termination_by structural a => a

/-- Equality of lists of arms. -/
def Node.decideEqBranches : (a b : List (Branch (List Node))) → Decidable (a = b)
  | [], [] => isTrue rfl
  | [], _ :: _ => isFalse (by simp)
  | _ :: _, [] => isFalse (by simp)
  | a :: as, b :: bs =>
    match Node.decideEqBranch a b, Node.decideEqBranches as bs with
    | isTrue h₁, isTrue h₂ => isTrue (by rw [h₁, h₂])
    | isFalse h, _ => isFalse fun e => h (by injection e)
    | _, isFalse h => isFalse fun e => h (by injection e)
termination_by structural a => a

end

instance : DecidableEq Node := Node.decideEq

end Stencil

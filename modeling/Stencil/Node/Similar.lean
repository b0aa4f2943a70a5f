import Stencil.Node
import Stencil.Text.Blank
import Stencil.Text.Literal

/-!
# Templates that say the same

Two templates are similar if they differ only in how they were written down: in whitespace-control
markers, in the quotes around string literals, and in blanks around the arguments of a tag that is
passed on.
-/

namespace Stencil

/-- Literals are compared without their quotes, all else exactly. -/
def Part.similar : Part → Part → Bool
  | literal a, literal b => Text.unquoted a == Text.unquoted b
  | a, b => a == b

/-- Access chains are compared part by part. -/
def Part.similarChain : List Part → List Part → Bool
  | [], [] => true
  | a :: as, b :: bs => a.similar b && similarChain as bs
  | _, _ => false

mutual

/-- Expressions that differ at most in the quotes of their literals. -/
def Expr.similar : (a b : Expr) → Bool
  | ⟨c, s⟩, ⟨c', s'⟩ => Part.similarChain c c' && Expr.similarSteps s s'
termination_by structural a => a

/-- Pipelines are compared step by step. -/
def Expr.similarSteps : (a b : List (Step Expr)) → Bool
  | [], [] => true
  | s :: ss, t :: ts => Expr.similarStep s t && Expr.similarSteps ss ts
  | _, _ => false
termination_by structural a => a

/-- Steps of one kind are compared argument by argument. -/
def Expr.similarStep : (a b : Step Expr) → Bool
  | .apply n as, .apply m bs => n == m && Expr.similarArgs as bs
  | .truncate l e k, .truncate l' e' k' =>
      k == k' && Expr.similar l l' && Expr.similarOption e e'
  | .replace o n c, .replace o' n' c' =>
      Expr.similar o o' && Expr.similar n n' && Expr.similarOption c c'
  | .select k v, .select k' v' => Expr.similar k k' && Expr.similarOption v v'
  | .sort k r, .sort k' r' => r == r' && Expr.similarOption k k'
  | _, _ => false
termination_by structural a => a

/-- Argument lists are compared in order. -/
def Expr.similarArgs : (a b : List Expr) → Bool
  | [], [] => true
  | a :: as, b :: bs => Expr.similar a b && Expr.similarArgs as bs
  | _, _ => false
termination_by structural a => a

/-- An argument is similar to an argument, and a missing one to a missing one. -/
def Expr.similarOption : (a b : Option Expr) → Bool
  | none, none => true
  | some a, some b => Expr.similar a b
  | _, _ => false
termination_by structural a => a

end

mutual

/-- Nodes that differ at most in how they were written down. -/
def Node.similar : (a b : Node) → Bool
  | .text c, .text c' => c == c'
  | .output e _, .output e' _ => e.similar e'
  | .conditional v bs _ _, .conditional v' bs' _ _ => v == v' && Node.similarBranches bs bs'
  | .loop n c cs es _ _ _, .loop n' c' cs' es' _ _ _ =>
      n == n' && c.similar c' && Node.similarList cs cs' && Node.similarOption es es'
  | .assignment t e cs _ _, .assignment t' e' cs' _ _ =>
      t == t' && Expr.similarOption e e' && Node.similarOption cs cs'
  | .comment c _ _, .comment c' _ _ => c == c'
  | .raw c _ _, .raw c' _ _ => c == c'
  | .subtemplate e i _, .subtemplate e' i' _ => i == i' && e.similar e'
  | .tag n a cs _, .tag n' a' cs' _ =>
      n == n' && Text.trimmed a == Text.trimmed a' && Node.similarList cs cs'
  | _, _ => false
termination_by structural a => a

/-- Node lists are compared in order. -/
def Node.similarList : (a b : List Node) → Bool
  | [], [] => true
  | a :: as, b :: bs => Node.similar a b && Node.similarList as bs
  | _, _ => false
termination_by structural a => a

/-- A node list is similar to a node list, and a missing one to a missing one. -/
def Node.similarOption : (a b : Option (List Node)) → Bool
  | none, none => true
  | some a, some b => Node.similarList a b
  | _, _ => false
termination_by structural a => a

/-- Arms are compared by condition and body. -/
def Node.similarBranch : (a b : Branch (List Node)) → Bool
  | ⟨c, b, _⟩, ⟨c', b', _⟩ => Expr.similarOption c c' && Node.similarList b b'
termination_by structural a => a

/-- Lists of arms are compared in order. -/
def Node.similarBranches : (a b : List (Branch (List Node))) → Bool
  | [], [] => true
  | a :: as, b :: bs => Node.similarBranch a b && Node.similarBranches as bs
  | _, _ => false
termination_by structural a => a

end

end Stencil

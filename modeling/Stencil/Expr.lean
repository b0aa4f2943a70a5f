import Stencil.Builtin
import Stencil.Operator

/-!
# Expressions

An expression is an access chain followed by a pipeline of steps that are applied from left to
right. A binary operator is a step that carries its right operand, so that `(price + tax) * qty`
is the chain `price` with the steps *add* `tax` and *multiply* `qty`, and a filter is a step that
carries its arguments.

`Step` takes the type of its arguments as a parameter: an expression is a chain with steps over
expressions, and the same steps over rendered arguments are what a writer works on.

## Main definitions

* `Part` : one element of an access chain.
* `Step` : one step of a pipeline.
* `Expr` : an access chain and its pipeline.
* `Expr.ident`, `Expr.literal`, `Expr.null`, `Expr.path` : the smallest expressions.
* `Expr.pipe`, `Expr.apply`, `Expr.negate` : longer pipelines.
-/

namespace Stencil

/-- One element of an access chain. -/
inductive Part where
  /-- A variable or a property name. -/
  | ident (name : String)
  /-- A literal exactly as it was written, its quotes included. -/
  | literal (text : String)
  /-- An integer subscript. -/
  | index (value : Int64)
  /-- The null value. -/
  | null
  /-- The blank value, the empty string where a language has none. -/
  | blank
  /-- The loop object inside the body of a loop. -/
  | loopVar
deriving DecidableEq, Repr

/-- The name of the loop property that counts down to one. -/
def loopRevindex : String := "__REVINDEX__"

/-- The name of the loop property that counts down to zero. -/
def loopRevindex0 : String := "__REVINDEX0__"

/-- What a plain step applies. -/
inductive StepName where
  /-- An operator. -/
  | op (op : Operator)
  /-- A filter that both languages know. -/
  | builtin (filter : Builtin)
  /-- A filter that is passed on under its own name. -/
  | custom (name : String)
deriving DecidableEq, Repr

/-- One step of a pipeline, with arguments in `ε`. -/
inductive Step (ε : Type) where
  /-- An operator or a filter whose arguments are a plain list. -/
  | apply (name : StepName) (args : List ε)
  /-- Cutting a text to a length, with an ellipsis and possibly inside a word. -/
  | truncate (length : ε) (ellipsis : Option ε) (killWords : Bool)
  /-- Replacement in a text, at most `count` times. -/
  | replace (old new : ε) (count : Option ε)
  /-- Selection by a property, for its truth or for a value. -/
  | select (key : ε) (value : Option ε)
  /-- Sorting, possibly by a property. -/
  | sort (key : Option ε) (reverse : Bool)
deriving DecidableEq, Repr

/-- An access chain and the pipeline applied to it. -/
structure Expr where
  /-- The access chain. -/
  chain : List Part := []
  /-- The steps, in the order in which they are applied. -/
  steps : List (Step Expr) := []

namespace Step

variable {α β : Type}

/-- The operator of a step, if it is one. -/
def operator? : Step α → Option Operator
  | apply (.op op) _ => some op
  | _ => none

/-- The same step over other arguments. -/
def map (f : α → β) : Step α → Step β
  | apply name args => apply name (args.map f)
  | truncate length ellipsis killWords => truncate (f length) (ellipsis.map f) killWords
  | replace old new count => replace (f old) (f new) (count.map f)
  | select key value => select (f key) (value.map f)
  | sort key reverse => sort (key.map f) reverse

/-- The arguments of a step, in order. -/
def args : Step α → List α
  | apply _ args => args
  | truncate length ellipsis _ => length :: ellipsis.toList
  | replace old new count => old :: new :: count.toList
  | select key value => key :: value.toList
  | sort key _ => key.toList

@[simp] theorem operator?_map (f : α → β) : (s : Step α) → (s.map f).operator? = s.operator?
  | apply (.op _) _ | apply (.builtin _) _ | apply (.custom _) _ => rfl
  | truncate .. | replace .. | select .. | sort .. => rfl

end Step

namespace Expr

/-- The expression with nothing in it. -/
def empty : Expr := {}

/-- A chain with no steps. -/
def ofChain (chain : List Part) : Expr := { chain }

/-- A plain name. -/
def ident (name : String) : Expr := ofChain [.ident name]

/-- A literal as written. -/
def literal (text : String) : Expr := ofChain [.literal text]

/-- The null value. -/
def null : Expr := ofChain [.null]

/-- The names between the dots of a path. -/
def path (path : String) : Expr :=
  ofChain ((path.toList.splitOn '.').map fun name => .ident (String.ofList name))

/-- The expression with one more step. -/
def pipe (e : Expr) (step : Step Expr) : Expr :=
  { e with steps := e.steps ++ [step] }

/-- The expression with an operator applied to it; a unary operator drops the operand. -/
def apply (e : Expr) (op : Operator) (operand : Expr) : Expr :=
  e.pipe (.apply (.op op) (if op.isUnary then [] else [operand]))

/-- The negated expression. -/
def negate (e : Expr) : Expr :=
  e.pipe (.apply (.op .not) [])

/-- The expression with a shared filter applied to it. -/
def builtin (e : Expr) (filter : Builtin) (args : List Expr) : Expr :=
  e.pipe (.apply (.builtin filter) args)

/-- An expression with neither chain nor steps. -/
def isEmpty (e : Expr) : Bool :=
  e.chain.isEmpty && e.steps.isEmpty

/-- The literal that an expression consists of. -/
def literal? : Expr → Option String
  | ⟨[.literal text], []⟩ => some text
  | _ => none

/-- The operator of the last step. -/
def lastOperator? (e : Expr) : Option Operator :=
  e.steps.getLast?.bind Step.operator?

end Expr

end Stencil

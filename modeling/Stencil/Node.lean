import Stencil.Expr.Equality
import Stencil.Trim

/-!
# Templates

A template is a list of nodes. Both languages are read into this form and written from it. Each tag
of a block keeps its own whitespace-control markers.

`Branch` takes the type of its body as a parameter: the branches of a conditional hold nodes, and
the same branches with written bodies are what a writer works on.

## Main definitions

* `Branch` : an arm of a conditional.
* `Node` : a node of a template.
* `Node.kind` : the name of the kind of a node.
* `Node.withTrim`, `Node.withEndTrim` : other markers on the first or the last tag of a node.
-/

namespace Stencil

/-- How a conditional chooses its branch. -/
inductive Variant where
  /-- The first branch whose condition holds. -/
  | ifTrue
  /-- The same with the first condition negated. -/
  | ifFalse
  /-- The first branch whose value equals the subject, which the first condition gives. -/
  | caseOf
deriving DecidableEq, Repr

/-- The keyword of a conditional. -/
def Variant.keyword : Variant → String
  | ifTrue => "if"
  | ifFalse => "unless"
  | caseOf => "case"

/-- An arm of a conditional. -/
structure Branch (β : Type) where
  /-- The condition; the arm without one is taken when no other is. -/
  condition : Option Expr
  /-- What the arm renders. -/
  body : β
  /-- The markers of the tag that opens the arm, unset on the first one. -/
  trim : Trim := .unset
deriving DecidableEq

/-- The same arm with another body. -/
def Branch.map {α β : Type} (f : α → β) (b : Branch α) : Branch β :=
  { b with body := f b.body }

/-- A node of a template. -/
inductive Node where
  /-- Text that is rendered as it stands. -/
  | text (content : String)
  /-- The value of an expression. -/
  | output (expression : Expr) (trim : Trim)
  /-- A choice between branches. -/
  | conditional (kind : Variant) (branches : List (Branch (List Node))) (trim endTrim : Trim)
  /-- A loop over a collection, possibly with nodes for an empty one. -/
  | loop (name : String) (collection : Expr) (children : List Node)
      (elseChildren : Option (List Node)) (trim elseTrim endTrim : Trim)
  /-- An assignment of a value, or else of rendered nodes. -/
  | assignment (target : String) (expression : Option Expr) (children : Option (List Node))
      (trim endTrim : Trim)
  /-- A comment. -/
  | comment (content : String) (trim endTrim : Trim)
  /-- Text that is never read as template syntax. -/
  | raw (content : String) (trim endTrim : Trim)
  /-- Another template at this place. -/
  | subtemplate (template : Expr) (ignoreMissing : Bool) (trim : Trim)
  /-- A tag that is passed on as it stands. -/
  | tag (name args : String) (children : List Node) (trim : Trim)

namespace Node

/-- The name of the kind of a node. -/
def kind : Node → String
  | text .. => "text"
  | output .. => "output"
  | conditional .. => "conditional"
  | loop .. => "loop"
  | assignment .. => "assignment"
  | comment .. => "comment"
  | raw .. => "raw"
  | subtemplate .. => "include"
  | tag .. => "tag"

/-- The node with other markers on its first tag; text has none. -/
def withTrim (trim : Trim) : Node → Node
  | text content => text content
  | output e _ => output e trim
  | conditional v bs _ et => conditional v bs trim et
  | loop n c cs es _ lt et => loop n c cs es trim lt et
  | assignment t e cs _ et => assignment t e cs trim et
  | comment content _ et => comment content trim et
  | raw content _ et => raw content trim et
  | subtemplate e i _ => subtemplate e i trim
  | tag n a cs _ => tag n a cs trim

/-- The node with other markers on its last tag; a node of a single tag is left alone. -/
def withEndTrim (endTrim : Trim) : Node → Node
  | conditional v bs t _ => conditional v bs t endTrim
  | loop n c cs es t lt _ => loop n c cs es t lt endTrim
  | assignment t e cs tr _ => assignment t e cs tr endTrim
  | comment content t _ => comment content t endTrim
  | raw content t _ => raw content t endTrim
  | other => other

/-! ### Nodes without markers -/

/-- An output without markers. -/
def ofExpr (e : Expr) : Node :=
  output e .unset

/-- A comment without markers. -/
def ofComment (content : String) : Node :=
  comment content .unset .unset

/-- A raw block without markers. -/
def ofRaw (content : String) : Node :=
  raw content .unset .unset

/-- A subtemplate that must exist. -/
def ofTemplate (template : Expr) : Node :=
  subtemplate template false .unset

/-- A tag that is passed on. -/
def ofTag (name args : String) : Node :=
  tag name args [] .unset

/-- The assignment of a value. -/
def assign (target : String) (e : Expr) : Node :=
  assignment target (some e) none .unset .unset

/-- The assignment of rendered nodes. -/
def capture (target : String) (children : List Node) : Node :=
  assignment target none (some children) .unset .unset

/-- A loop without alternative. -/
def forEach (name : String) (collection : Expr) (children : List Node) : Node :=
  loop name collection children none .unset .unset .unset

/-- A chain of conditions. -/
def ifChain (branches : List (Branch (List Node))) : Node :=
  conditional .ifTrue branches .unset .unset

end Node

/-- The arm for an alternative, if there is one: its nodes and the markers of its tag. -/
def Branch.ofAlternative (alternative : Option (List Node × Trim)) : List (Branch (List Node)) :=
  alternative.toList.map fun (body, trim) => ⟨none, body, trim⟩

end Stencil

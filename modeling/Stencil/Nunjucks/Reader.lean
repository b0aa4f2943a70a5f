import Stencil.Expr.FilterArgs
import Stencil.Node
import Stencil.Nunjucks.Comment
import Stencil.Nunjucks.Marker
import Stencil.Nunjucks.Tree
import Stencil.Nunjucks.Words
import Stencil.Scope

/-!
# Reading Nunjucks

A Nunjucks source is read with its comments lifted out. The loop object is recognised by the name
`loop` inside the body of a loop; literals keep their spelling; a term without neutral form is an
error. Markers and raw blocks are recovered from the source, and the symbols of lifted comments
become comments again.

## Main definitions

* `Nunjucks.Term.toExpr` : the expression of a term.
* `Nunjucks.Element.toNodes` : the nodes of a tree.
* `Nunjucks.read` : the template of a source.
-/

namespace Stencil.Nunjucks

/-! ### Filters -/

/-- The error for an argument that is missing. -/
def missingArg (filter key : String) : ReadError :=
  .unexpectedPart (quoted key ++ " argument to " ++ quoted filter) "nothing"

/-- An argument that is a truth value; without it, it is false. -/
def flagArg (a : FilterArgs) (index : Nat) (key : String) : Except ReadError Bool :=
  match a.get? index key with
  | none => .ok false
  | some e =>
    match e.literal? with
    | some "true" | some "True" => .ok true
    | some "false" | some "False" => .ok false
    | _ => .error (.unsupported (.flagArgument key a.filter))

/-- The step that a filter stands for. -/
def filterStep (a : FilterArgs) : Except ReadError (Step Expr) := do
  let require := a.require (missingArg a.filter)
  match a.filter with
  | "truncate" =>
    let length ← require 0 "length"
    let killWords ← flagArg a 1 "killwords"
    return .truncate length (a.get? 2 "end") killWords
  | "replace" => return .replace (← require 0 "old") (← require 1 "new") (a.get? 2 "maxCount")
  | "selectattr" => return .select (← require 0 "attribute") (a.get? 1 "value")
  | "sort" =>
    let reverse ← flagArg a 0 "reverse"
    return .sort (a.get? 2 "attribute") reverse
  | name =>
    let positional ← a.positionalOnly
    match Builtin.ofNunjucks? name with
    | some filter => return .apply (.builtin filter) positional
    | none => return .apply (.custom name) positional

/-! ### Expressions -/

/-- A key that is an identifier reads as a name; `ofLoop` holds right after the loop object. -/
def keyPart (ofLoop : Bool) (text : Piece) : Part :=
  let content := Text.unquoted text.toString
  if Text.isIdentifier content then
    let name := String.ofList content
    .ident (if ofLoop then chainWords.neutralProperty name else name)
  else .literal text.toString

/-- The part of a chain that a subscript stands for. -/
def subscriptPart (ofLoop : Bool) : Term → Except ReadError Part
  | .literal .string text => .ok (keyPart ofLoop text)
  | .literal .number text =>
    match Text.int64? text.text with
    | some i => .ok (.index i)
    | none => .error (.unsupported (.subscript text.toString))
  | _ => .error (.unsupported .dynamicSubscript)

/-- The expression of a property of a value. -/
def lookupExpr (base : Expr) (key : Term) : Except ReadError Expr :=
  if base.steps.isEmpty then
    (subscriptPart (base.chain == [.loopVar]) key).map fun part =>
      .ofChain (base.chain ++ [part])
  else .error (.unsupported .accessOnComputed)

/-- The expression of two operands; membership has its container on the right. -/
def binaryExpr (op : Binary) (left right : Expr) : Expr :=
  if op = .member then right.apply op.operator left else left.apply op.operator right

mutual

/-- The expression of a term. -/
def Term.toExpr (scope : Scope) : Term → Except ReadError Expr
  | .symbol name =>
    if scope.inLoop && name.toString == chainWords.loopVar then .ok (.ofChain [.loopVar])
    else .ok (.ident name.toString)
  | .literal .none _ => .ok .null
  | .literal _ text => .ok (.literal text.toString)
  | .lookup target key => do
    let base ← Term.toExpr scope target
    lookupExpr base key
  | .group inner => Term.toExpr scope inner
  | .filter name target args keywords => do
    let base ← Term.toExpr scope target
    let positional ← Term.toExprs scope args
    let keywords ← Term.toKeywords scope keywords
    let step ← filterStep ⟨name, positional, keywords⟩
    return base.pipe step
  | .binary op left right => do
    let left ← Term.toExpr scope left
    let right ← Term.toExpr scope right
    return binaryExpr op left right
  | .comparison first [(c, second)] => do
    let first ← Term.toExpr scope first
    let second ← Term.toExpr scope second
    return first.apply c.operator second
  | .comparison .. => .error (.unsupported .chainedComparison)
  | .negated target => do
    let e ← Term.toExpr scope target
    return e.negate
  | .opposite (.literal .number text) => .ok (.literal ("-" ++ text.toString))
  | .opposite _ => .error (.unsupported .negation)
  | .test .. => .error (.unsupported .isTest)
  | .call .. => .error (.unsupported .functionCall)
  | .choice .. => .error (.unsupported .inlineIf)
  | .array _ => .error (.unsupported .arrayLiteral)
  | .dict _ => .error (.unsupported .dictLiteral)

/-- The expressions of a list of terms. -/
def Term.toExprs (scope : Scope) : List Term → Except ReadError (List Expr)
  | [] => .ok []
  | t :: ts => do
    let e ← Term.toExpr scope t
    let es ← Term.toExprs scope ts
    return e :: es

/-- The expressions of arguments known by their name. -/
def Term.toKeywords (scope : Scope) :
    List (String × Term) → Except ReadError (List (String × Expr))
  | [] => .ok []
  | (key, t) :: ts => do
    let e ← Term.toExpr scope t
    let es ← Term.toKeywords scope ts
    return (key, e) :: es

end

/-! ### Conditionals -/

/-- An arm that is taken when no other is and renders nothing. -/
def isIdleElse (b : Branch (List Node)) : Bool :=
  b.condition.isNone && b.body.isEmpty && b.trim.isUnset

/-- The last step of an expression negates it. -/
def isNegation (e : Expr) : Bool :=
  e.lastOperator? == some .not

/-- A single arm with a negated condition is taken for the opposite choice with the condition
itself, also if an idle arm follows it. -/
def recogniseVariant (branches : List (Branch (List Node))) : Variant × List (Branch (List Node)) :=
  match branches with
  | ⟨some condition, body, trim⟩ :: rest =>
    if rest.all isIdleElse && rest.length ≤ 1 && isNegation condition then
      (.ifFalse, [⟨some { condition with steps := condition.steps.dropLast }, body, trim⟩])
    else (.ifTrue, branches)
  | _ => (.ifTrue, branches)

/-! ### Elements -/

/-- The markers of the delimiters around an offset. -/
def Lifted.markers (l : Lifted) (offset : Nat) : Trim :=
  (Place.at l.source offset).markers

/-- The node of a text: a raw block if it stands after an opening tag of one. -/
def Lifted.dataNode (l : Lifted) (text : Piece) : Node :=
  let before := Place.at l.source text.start
  if before.isAfterRaw then
    .raw (String.ofList (l.restore text.text)) before.markersBefore
      (Place.at l.source text.stop).markersAfter
  else .text text.toString

/-- The comment that a term stands for. -/
def Lifted.termComment? (l : Lifted) : Term → Option Comment
  | .symbol name => l.comment? name.text
  | _ => none

/-- The node of a lifted comment. -/
def Comment.toNode (c : Comment) : Node :=
  .comment c.body ⟨c.trimLeft, false⟩ ⟨false, c.trimRight⟩

/-- The node of an output. -/
def Lifted.outputNode (l : Lifted) (scope : Scope) (pos : Nat) (value : Term) :
    Except ReadError Node :=
  match l.termComment? value with
  | some c => .ok c.toNode
  | none => (value.toExpr scope).map fun e => .output e (l.markers pos)

mutual

/-- The node of an element. -/
def Element.toNode (l : Lifted) (scope : Scope) : Element → Except ReadError Node
  | .data text => .ok (l.dataNode text)
  | .output pos value => l.outputNode scope pos value
  | .conditional ⟨pos, condition, body⟩ rest otherwise endPos => do
    let condition ← condition.toExpr scope
    let body ← Element.toNodes l scope body
    let arms ← Element.clauseArms l scope rest
    let alternative ← Element.toAlternative l scope otherwise
    let (kind, branches) :=
      recogniseVariant (⟨some condition, body, .unset⟩ :: arms ++ Branch.ofAlternative alternative)
    return .conditional kind branches (l.markers pos) (l.markers endPos)
  | .loop pos names collection body otherwise endPos => do
    let collection ← collection.toExpr scope
    let children ← Element.toNodes l .loopBody body
    let alternative ← Element.toAlternative l scope otherwise
    let elseTrim := match alternative with
      | some (_, trim) => trim
      | none => .unset
    return .loop (", ".intercalate names) collection children (alternative.map (·.1))
      (l.markers pos) elseTrim (l.markers endPos)
  | .assign pos targets value => do
    let value ← value.toExpr scope
    return .assignment (", ".intercalate targets) (some value) none (l.markers pos) .unset
  | .capture pos targets body endPos => do
    let children ← Element.toNodes l scope body
    return .assignment (", ".intercalate targets) none (some children) (l.markers pos)
      (l.markers endPos)
  | .subtemplate pos template ignoreMissing => do
    let template ← template.toExpr scope
    return .subtemplate template ignoreMissing (l.markers pos)

/-- The nodes of a list of elements. -/
def Element.toNodes (l : Lifted) (scope : Scope) : List Element → Except ReadError (List Node)
  | [] => .ok []
  | e :: es => do
    let node ← Element.toNode l scope e
    let nodes ← Element.toNodes l scope es
    return node :: nodes

/-- The arms of the clauses of a conditional after the first one. -/
def Element.clauseArms (l : Lifted) (scope : Scope) :
    List (Clause Element) → Except ReadError (List (Branch (List Node)))
  | [] => .ok []
  | ⟨pos, condition, body⟩ :: clauses => do
    let condition ← condition.toExpr scope
    let body ← Element.toNodes l scope body
    let arms ← Element.clauseArms l scope clauses
    return ⟨some condition, body, l.markers pos⟩ :: arms

/-- The nodes of an alternative and the markers of its tag. -/
def Element.toAlternative (l : Lifted) (scope : Scope) :
    Option (Alternative Element) → Except ReadError (Option (List Node × Trim))
  | none => .ok none
  | some ⟨pos, body⟩ => do
    let body ← Element.toNodes l scope body
    return some (body, l.markers pos)

end

/-- The template of a source. -/
def read (source : String) : Except ReadError (List Node) :=
  let lifted := liftComments source.toList
  (parse lifted.source).bind (Element.toNodes lifted {})

end Stencil.Nunjucks

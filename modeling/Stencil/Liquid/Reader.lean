import Stencil.Expr.FilterArgs
import Stencil.Expr.Postfix
import Stencil.Liquid.Arithmetic
import Stencil.Liquid.Tree
import Stencil.Liquid.Words
import Stencil.Node
import Stencil.Scope

/-!
# Reading Liquid

A Liquid tree is read element by element. The loop object is recognised by the name `forloop` inside
the body of a loop; filters that are operators become operator steps; literals keep their spelling.

The value of an assignment, the collection of a loop and the name of a subtemplate are read as
fragments: as the only output of a source of their own. A fragment is shorter than the source around
it, so the length of the source bounds how deeply fragments nest.

## Main definitions

* `Liquid.Operand.toExpr`, `Liquid.Chain.toExpr`, `Liquid.Value.toExpr` : expressions.
* `Liquid.Element.toNodes` : the nodes of a tree.
* `Liquid.readFragment` : the expression of a fragment.
* `Liquid.read` : the template of a source.
-/

namespace Stencil.Liquid

/-! ### Expressions -/

/-- A key that is an identifier reads as a name. -/
def keyPart (quoted : Piece) : Part :=
  let content := unquoteKey quoted
  if Text.isIdentifier content then .ident (String.ofList content) else .literal quoted.toString

/-- The part of a chain that an access stands for; `ofLoop` holds right after the loop object. -/
def Access.toPart (ofLoop : Bool) : Access → Part
  | name n => .ident (if ofLoop then chainWords.neutralProperty n else n)
  | index i => .index i
  | key quoted => keyPart quoted

/-- The parts of a chain that accesses stand for. -/
def accessParts (ofLoop : Bool) : List Access → List Part
  | [] => []
  | a :: as => a.toPart ofLoop :: as.map (Access.toPart false)

/-- The expression that a keyword stands for. -/
def Keyword.toExpr (text : Piece) : Keyword → Expr
  | true | false => .literal text.toString
  | nil | null => .null
  | blank => .ofChain [.blank]
  | empty => .literal "empty"

/-- The expression that an operand stands for. -/
def Operand.toExpr (scope : Scope) : Operand → Expr
  | quoted text | number text => .literal text.toString
  | keyword word text => word.toExpr text
  | property root accesses _ =>
    let ofLoop := scope.inLoop && root == chainWords.loopVar
    .ofChain ((if ofLoop then .loopVar else .ident root) :: accessParts ofLoop accesses)

/-- The postfix entry that an entry of a chain stands for. -/
def Entry.toPostfix (scope : Scope) : Entry → Postfix
  | operand o => .operand (o.toExpr scope)
  | connector c _ => .operator c.operator

/-- The expression that a chain stands for. -/
def Chain.toExpr (scope : Scope) (c : Chain) : Expr :=
  Postfix.fold (c.postfixEntries.map (Entry.toPostfix scope))

/-- The arguments of a filter. -/
def Filter.toArgs (scope : Scope) (f : Filter) : FilterArgs where
  filter := f.name
  positional := f.args.filterMap fun
    | .positional value => some (value.toExpr scope)
    | .keyword .. => none
  keywords := f.args.filterMap fun
    | .positional _ => none
    | .keyword key value => some (key, value.toExpr scope)

/-- The error for an argument that is missing. -/
def Filter.missing (f : Filter) (key : String) : ReadError :=
  .badSyntax f.span.start (.missingFilterArgument f.name key)

/-- The step that a filter stands for. -/
def Filter.toStep (scope : Scope) (f : Filter) : Except ReadError (Step Expr) := do
  let args := f.toArgs scope
  let require := args.require f.missing
  match operatorOfFilter? f.name with
  | some op =>
    let operand ← require 0 "operand"
    let _ ← args.positionalOnly
    return .apply (.op op) [operand]
  | none =>
    match f.name with
    | "truncate" => return .truncate (← require 0 "length") (args.get? 1 "ellipsis") false
    | "replace" => return .replace (← require 0 "old") (← require 1 "new") none
    | "where" => return .select (← require 0 "attribute") (args.get? 1 "value")
    | "sort" => return .sort (args.get? 0 "attribute") false
    | name =>
      let positional ← args.positionalOnly
      match Builtin.ofLiquid? name with
      | some filter => return .apply (.builtin filter) positional
      | none => return .apply (.custom name) positional

/-- The expression after some filters. -/
def applyFilters (scope : Scope) (e : Expr) : List Filter → Except ReadError Expr
  | [] => .ok e
  | f :: fs => do
    let step ← f.toStep scope
    applyFilters scope (e.pipe step) fs

/-- The expression that a value stands for. -/
def Value.toExpr (scope : Scope) (v : Value) : Except ReadError Expr :=
  applyFilters scope (v.initial.toExpr scope) v.filters

/-- The piece holds a single operand and nothing else. -/
def isSingleOperand (p : Piece) : Bool :=
  match parseValue p with
  | .ok ⟨⟨_, []⟩, []⟩ => true
  | _ => false

/-! ### Elements -/

/-- How fragments are read. -/
abbrev FragmentReader := Scope → List Char → Except ReadError Expr

/-- A word that changes what a loop runs over. -/
def loopModifiers : List (List Char) :=
  ["limit".toList, "offset".toList, "reversed".toList, "cols".toList]

/-- The first modifier in the collection part of a loop header. -/
def loopModifier? (collection : List Char) : Option (List Char) :=
  (((Text.words collection).drop 1).map fun word => word.takeWhile (· != ':')).find? fun word =>
    loopModifiers.contains word

/-- The variable and the collection of a loop. -/
def readLoopHeader (fragment : FragmentReader) (scope : Scope) (args : List Char) :
    Except ReadError (String × Expr) :=
  match Text.cut? " in ".toList args with
  | none => .error (.unsupported (.loopHeader (String.ofList args)))
  | some (name, collection) =>
    let name := Text.trim name
    if name.isEmpty then .error (.unsupported (.loopHeader (String.ofList args)))
    else
      match loopModifier? collection with
      | some word => .error (.unsupported (.loopModifier (String.ofList word)))
      | none => (fragment scope collection).map fun e => (String.ofList name, e)

/-- The node of an assignment. -/
def readAssign (fragment : FragmentReader) (scope : Scope) (tag : Tag) : Except ReadError Node :=
  match Text.cut? ['='] tag.args.text with
  | none => .error (.badSyntax tag.span.start .missingAssignedValue)
  | some (target, value) =>
    let target := Text.trim target
    if target.isEmpty then .error (.badSyntax tag.span.start .emptyAssignTarget)
    else
      (fragment scope value).map fun e =>
        .assignment (String.ofList target) (some e) none tag.trim .unset

/-- The node of a tag that is passed on as it stands. -/
def passOn (tag : Tag) : Node :=
  .tag tag.name tag.args.toString [] tag.trim

/-- The node of a tag that opens no block. -/
def readSingleTag (fragment : FragmentReader) (scope : Scope) (tag : Tag) :
    Except ReadError Node :=
  if tag.name == "assign" then readAssign fragment scope tag
  else if tag.name == "include" && isSingleOperand tag.args then
    (fragment scope tag.args.text).map fun e => .subtemplate e false tag.trim
  else .ok (passOn tag)

/-- The node of a verbatim block. -/
def readVerbatimBlock (opening : Tag) (content : Piece) (closing : Tag) : Node :=
  if opening.name == "comment" then .comment content.toString opening.trim closing.trim
  else .raw content.toString opening.trim closing.trim

/-- What the first tag of a conditional makes of it. -/
def conditionalKind (opening : Tag) : Variant :=
  if opening.name == "unless" then .ifFalse else .ifTrue

/-- The condition of a `when` clause: its only value, or the list of its values as written. -/
def whenCondition (scope : Scope) (tag : Tag) : List Operand → Expr
  | [value] => value.toExpr scope
  | _ => .literal tag.args.toString

/-- The target of a capture. -/
def captureTarget (opening : Tag) : Except ReadError String :=
  let target := Text.trim opening.args.text
  if target.isEmpty then .error (.badSyntax opening.span.start .emptyCaptureTarget)
  else .ok (String.ofList target)

mutual

/-- The node of an element. -/
def Element.toNode (fragment : FragmentReader) (scope : Scope) : Element → Except ReadError Node
  | .html text => .ok (.text text.toString)
  | .output value _ trim => (value.toExpr scope).map fun e => .output e trim
  | .tag t => readSingleTag fragment scope t
  | .verbatim opening content closing => .ok (readVerbatimBlock opening content closing)
  | .conditional ⟨head, condition, body⟩ rest otherwise closing => do
    let body ← Element.toNodes fragment scope body
    let arms ← Element.clauseArms fragment scope rest
    let alternative ← Element.toAlternative fragment scope otherwise
    let first : Branch (List Node) := ⟨some (condition.toExpr scope), body, .unset⟩
    return .conditional (conditionalKind head) (first :: arms ++ Branch.ofAlternative alternative)
      head.trim closing.trim
  | .caseOf opening subject whens otherwise closing => do
    let subject ← subject.toExpr scope
    let arms ← Element.whenArms fragment scope whens
    let alternative ← Element.toAlternative fragment scope otherwise
    let first : Branch (List Node) := ⟨some subject, [], .unset⟩
    return .conditional .caseOf (first :: arms ++ Branch.ofAlternative alternative) opening.trim
      closing.trim
  | .loop opening body otherwise closing => do
    let (name, collection) ← readLoopHeader fragment scope opening.args.text
    let children ← Element.toNodes fragment .loopBody body
    let alternative ← Element.toAlternative fragment scope otherwise
    let elseTrim := match alternative with
      | some (_, trim) => trim
      | none => .unset
    return .loop name collection children (alternative.map (·.1)) opening.trim elseTrim closing.trim
  | .capture opening body closing => do
    let target ← captureTarget opening
    let children ← Element.toNodes fragment scope body
    return .assignment target none (some children) opening.trim closing.trim

/-- The nodes of a list of elements. -/
def Element.toNodes (fragment : FragmentReader) (scope : Scope) :
    List Element → Except ReadError (List Node)
  | [] => .ok []
  | e :: es => do
    let node ← Element.toNode fragment scope e
    let nodes ← Element.toNodes fragment scope es
    return node :: nodes

/-- The arms of the clauses of a conditional after the first one. -/
def Element.clauseArms (fragment : FragmentReader) (scope : Scope) :
    List (Clause Element) → Except ReadError (List (Branch (List Node)))
  | [] => .ok []
  | ⟨head, condition, body⟩ :: clauses => do
    let body ← Element.toNodes fragment scope body
    let arms ← Element.clauseArms fragment scope clauses
    return ⟨some (condition.toExpr scope), body, head.trim⟩ :: arms

/-- The arms of the clauses of a case distinction. -/
def Element.whenArms (fragment : FragmentReader) (scope : Scope) :
    List (When Element) → Except ReadError (List (Branch (List Node)))
  | [] => .ok []
  | ⟨head, values, body⟩ :: whens => do
    let body ← Element.toNodes fragment scope body
    let arms ← Element.whenArms fragment scope whens
    return ⟨some (whenCondition scope head values), body, head.trim⟩ :: arms

/-- The nodes of an alternative and the markers of its tag. -/
def Element.toAlternative (fragment : FragmentReader) (scope : Scope) :
    Option (Alternative Element) → Except ReadError (Option (List Node × Trim))
  | none => .ok none
  | some ⟨head, body⟩ => do
    let body ← Element.toNodes fragment scope body
    return some (body, head.trim)

end

/-! ### Sources and fragments -/

/-- The template of a source, given how its fragments are read. -/
def readWith (fragment : FragmentReader) (scope : Scope) (source : String) :
    Except ReadError (List Node) :=
  (parse source).bind (Element.toNodes fragment scope)

/-- The source of a fragment: the text as an output. -/
def fragmentSource (text : List Char) : String :=
  "\x7b\x7b " ++ String.ofList (Text.trim text) ++ " \x7d\x7d"

/-- The expression of a template that consists of one output. -/
def outputExpr : List Node → Except ReadError Expr
  | [.output e _] => .ok e
  | nodes =>
    let got := (nodes.getLast?.map Node.kind).getD "nothing"
    .error (.unexpectedPart "output expression" got)

/-- The expression of a fragment, read with fragments nested at most `depth` deep. -/
def readFragment : (depth : Nat) → FragmentReader
  | 0, _, _ => outputExpr []
  | depth + 1, scope, text =>
    (readWith (readFragment depth) scope (fragmentSource text)).bind outputExpr

/-- The template of a source. -/
def read (source : String) : Except ReadError (List Node) :=
  readWith (readFragment source.length) {} source

end Stencil.Liquid

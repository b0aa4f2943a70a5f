import Stencil.Error
import Stencil.Expr.Equality

/-!
# Writing expressions

A pipeline is written from left to right: an operator between its operands or before the only one,
every other step after a bar. The writer keeps track of what the text so far is at its top level and
puts parentheses exactly where the target language would otherwise group differently; a language
without parentheses refuses the expression.

All that the writer has to know about a language is in a value of type `Grammar`.

## Main definitions

* `Form`, `Rendered` : a written expression and what it is at its top level.
* `OperatorForm` : how a language spells an operator.
* `Grammar` : the expression grammar of a language.
* `Grammar.render` : the text of an expression in a language.
-/

namespace Stencil

/-- What a written expression is at its top level. -/
inductive Form where
  /-- An access chain, a literal or a text in parentheses. -/
  | atom
  /-- The application of an operator of some precedence. -/
  | operator (precedence : Nat)
  /-- The application of a filter. -/
  | pipe
deriving DecidableEq, Repr

/-- A written expression. -/
structure Rendered where
  /-- The text. -/
  text : String
  /-- What the text is at its top level. -/
  form : Form
deriving DecidableEq, Repr

/-- How a language spells an operator. -/
inductive OperatorForm where
  /-- Between the operands. -/
  | between (token : String)
  /-- Between the operands, which change places. -/
  | swapped (token : String)
  /-- Before the only operand. -/
  | leading (token : String)
  /-- As a filter. -/
  | filter
deriving DecidableEq, Repr

/-- An argument of a step and what it is written as. -/
structure Argument where
  /-- The argument. -/
  expr : Expr
  /-- Its text, if the language can write it. -/
  rendered : Except WriteError Rendered

/-- The text of an argument. -/
def Argument.text (a : Argument) : Except WriteError String :=
  a.rendered.map (·.text)

/-- The expression grammar of a language. -/
structure Grammar where
  /-- The name of the language in errors. -/
  language : String
  /-- The text of an access chain. -/
  chain : List Part → Except WriteError String
  /-- The spelling of an operator, if the language has it. -/
  operatorForm : Operator → Except WriteError OperatorForm
  /-- The text of a step that is written as a filter, without the bar. -/
  step : Step Argument → Except WriteError String
  /-- The binding strength of an operator. -/
  precedence : Operator → Nat := Operator.precedence
  /-- Operators of equal strength group from right to left. -/
  rightAssociative : Bool := false
  /-- There are grouping parentheses. -/
  hasGrouping : Bool := true
  /-- A filter binds tighter than every operator. -/
  filtersBindTight : Bool := true
  /-- An expression that is put into parentheses as a whole. -/
  wrapWhole : Expr → Bool := fun _ => false

namespace Grammar

variable (g : Grammar)

/-- A text in parentheses. -/
def parens (text : String) : String :=
  "(" ++ text ++ ")"

/-- The text, grouped if `needed`. -/
def group (text : String) (needed : Bool) : Except WriteError String :=
  if needed then
    if g.hasGrouping then .ok (parens text)
    else .error (.lacks g.language (.grouping text))
  else .ok text

/-- A left operand needs grouping next to an operator of strength `prec`. -/
def needsLeft (prec : Nat) : Form → Bool
  | .atom => false
  | .operator p => p < prec || (p == prec && g.rightAssociative)
  | .pipe => !g.filtersBindTight

/-- A right operand needs grouping next to an operator of strength `prec`. -/
def needsRight (prec : Nat) : Form → Bool
  | .atom => false
  | .operator p => p < prec || (p == prec && !g.rightAssociative)
  | .pipe => !g.filtersBindTight

/-- An only operand needs grouping after an operator of strength `prec`. -/
def needsLeading (prec : Nat) : Form → Bool
  | .atom => false
  | .operator p => p ≤ prec
  | .pipe => !g.filtersBindTight

/-- A filtered text needs grouping before the bar. -/
def needsPipe : Form → Bool
  | .operator _ => true
  | _ => false

/-- The operand of an operator step: its only argument. -/
def operand (op : Operator) : Step Argument → Except WriteError Rendered
  | .apply _ [arg] => arg.rendered
  | _ => .error (.malformed (.operandCount op))

/-- The text after a step that is written as a filter. -/
def extendFilter (acc : Rendered) (step : Step Argument) : Except WriteError Rendered := do
  let filter ← g.step step
  let left ← g.group acc.text (needsPipe acc.form)
  return ⟨left ++ " | " ++ filter, .pipe⟩

/-- The text after an operator step. -/
def extendOperator (acc : Rendered) (op : Operator) (step : Step Argument) :
    Except WriteError Rendered := do
  let prec := g.precedence op
  match ← g.operatorForm op with
  | .between token =>
    let operand ← operand op step
    let left ← g.group acc.text (g.needsLeft prec acc.form)
    let right ← g.group operand.text (g.needsRight prec operand.form)
    return ⟨left ++ " " ++ token ++ " " ++ right, .operator prec⟩
  | .swapped token =>
    let operand ← operand op step
    let right ← g.group acc.text (g.needsRight prec acc.form)
    let left ← g.group operand.text (g.needsLeft prec operand.form)
    return ⟨left ++ " " ++ token ++ " " ++ right, .operator prec⟩
  | .leading token =>
    let inner ← g.group acc.text (g.needsLeading prec acc.form)
    return ⟨token ++ " " ++ inner, .operator prec⟩
  | .filter => g.extendFilter acc step

/-- The text after one more step. -/
def extend (acc : Rendered) (step : Step Argument) : Except WriteError Rendered :=
  match step.operator? with
  | some op => g.extendOperator acc op step
  | none => g.extendFilter acc step

/-- The whole expression, put into parentheses if the grammar asks for it. -/
def wrap (e : Expr) (r : Rendered) : Rendered :=
  if g.wrapWhole e then ⟨parens r.text, .atom⟩ else r

mutual

/-- The text of an expression. -/
def render : Expr → Except WriteError Rendered
  | ⟨chain, steps⟩ => do
    let text ← g.chain chain
    let r ← renderSteps steps ⟨text, .atom⟩
    return g.wrap ⟨chain, steps⟩ r

/-- The text after a pipeline. -/
def renderSteps : List (Step Expr) → Rendered → Except WriteError Rendered
  | [], acc => .ok acc
  | s :: ss, acc => do
    let acc ← g.extend acc (renderArgs s)
    renderSteps ss acc

/-- A step with its arguments written. -/
def renderArgs : Step Expr → Step Argument
  | .apply name args => .apply name (renderList args)
  | .truncate length ellipsis killWords =>
      .truncate ⟨length, render length⟩ (renderOption ellipsis) killWords
  | .replace old new count =>
      .replace ⟨old, render old⟩ ⟨new, render new⟩ (renderOption count)
  | .select key value => .select ⟨key, render key⟩ (renderOption value)
  | .sort key reverse => .sort (renderOption key) reverse

/-- A list of arguments, written. -/
def renderList : List Expr → List Argument
  | [] => []
  | e :: es => ⟨e, render e⟩ :: renderList es

/-- An optional argument, written. -/
def renderOption : Option Expr → Option Argument
  | none => none
  | some e => some ⟨e, render e⟩

end

/-- The text of an expression without what it is at its top level. -/
def text (e : Expr) : Except WriteError String :=
  (g.render e).map (·.text)

/-! ### Writing the arguments of a step -/

theorem renderList_eq_map : (es : List Expr) →
    g.renderList es = es.map fun e => ⟨e, g.render e⟩
  | [] => rfl
  | _ :: es => by simp [renderList, renderList_eq_map es]

theorem renderOption_eq_map : (e : Option Expr) →
    g.renderOption e = e.map fun e => ⟨e, g.render e⟩
  | none => rfl
  | some _ => rfl

theorem renderArgs_eq_map (s : Step Expr) :
    g.renderArgs s = s.map fun e => ⟨e, g.render e⟩ := by
  cases s <;> simp [renderArgs, Step.map, renderList_eq_map, renderOption_eq_map]

end Grammar

end Stencil

import Stencil.Expr.Grammar
import Stencil.Liquid.Arithmetic
import Stencil.Liquid.Words

/-!
# The expression grammar of Liquid

Liquid has no grouping parentheses, groups operators of equal strength from right to left, and
cannot apply filters inside a condition. Arithmetic is spelled as filters, whose arguments are
single access chains. What does not fit is refused.
-/

namespace Stencil.Liquid

/-- The text of an argument, which has to be a single access chain. -/
def atomText (arg : Argument) : Except WriteError String :=
  arg.rendered.bind fun r =>
    match r.form with
    | .atom => .ok r.text
    | _ => .error (.lacks languageName (.compoundArgument r.text))

/-- The arguments of a filter after the first one. -/
def moreArgsText : List Argument → Except WriteError String
  | [] => .ok ""
  | arg :: args => do
    let first ← atomText arg
    let rest ← moreArgsText args
    return ", " ++ first ++ rest

/-- A filter with its arguments. -/
def filterText (name : String) : List Argument → Except WriteError String
  | [] => .ok name
  | arg :: args => do
    let first ← atomText arg
    let rest ← moreArgsText args
    return name ++ ": " ++ first ++ rest

/-- The name of a plain step as a filter. -/
def stepName : StepName → Except WriteError String
  | .op op =>
    match filterOfOperator? op with
    | some name => .ok name
    | none => .error (.malformed (.noFilterSpelling op))
  | .builtin filter => .ok filter.liquidName
  | .custom name => .ok name

/-- The text of a step as a filter. -/
def stepText : Step Argument → Except WriteError String
  | .apply name args => (stepName name).bind fun name => filterText name args
  | .truncate length ellipsis killWords =>
    if killWords then .error (.lacks languageName .killWords)
    else filterText "truncate" (length :: ellipsis.toList)
  | .replace old new count =>
    if count.isSome then .error (.lacks languageName .replaceCount)
    else filterText "replace" [old, new]
  | .select key value => filterText "where" (key :: value.toList)
  | .sort key reverse =>
    (filterText "sort" key.toList).map fun text => if reverse then text ++ " | reverse" else text

/-- The spelling of an operator. -/
def operatorForm : Operator → Except WriteError OperatorForm
  | .equal => .ok (.between "==")
  | .notEqual => .ok (.between "!=")
  | .greater => .ok (.between ">")
  | .greaterEqual => .ok (.between ">=")
  | .less => .ok (.between "<")
  | .lessEqual => .ok (.between "<=")
  | .contains => .ok (.between "contains")
  | .and => .ok (.between "and")
  | .or => .ok (.between "or")
  | .add | .subtract | .multiply | .divide | .modulo | .concat => .ok .filter
  | .not => .error ((WriteError.lacks languageName (.operator "not")).withHint
      "Use an unless block instead")
  | .power => .error (.lacks languageName (.operator "**"))
  | .floorDivide => .error (.lacks languageName (.operator "//"))

/-- Logical operators bind weaker than all others. -/
def operatorPrecedence : Operator → Nat
  | .and | .or => 1
  | _ => 2

/-- The expression grammar. -/
def grammar : Grammar where
  language := languageName
  chain := chainWords.write
  operatorForm := operatorForm
  step := stepText
  precedence := operatorPrecedence
  rightAssociative := true
  hasGrouping := false
  filtersBindTight := false

end Stencil.Liquid

import Stencil.Expr.Grammar
import Stencil.Nunjucks.Words

/-!
# The expression grammar of Nunjucks

Nunjucks has every operator, grouping parentheses, and filters that bind tighter than operators.
Its filters take their arguments in parentheses, some of them by name. An expression of several
steps with arguments by name is put into parentheses as a whole.
-/

namespace Stencil.Nunjucks

/-- A filter with the texts of its arguments. -/
def callText (name : String) (args : List String) : String :=
  if args.isEmpty then name else name ++ "(" ++ ", ".intercalate args ++ ")"

/-- The texts of a list of arguments. -/
def argTexts : List Argument → Except WriteError (List String)
  | [] => .ok []
  | arg :: args => do
    let first ← arg.text
    let rest ← argTexts args
    return first :: rest

/-- The name of a plain step as a filter. -/
def stepName : StepName → Except WriteError String
  | .op op => .error (.malformed (.operatorAsFilter op))
  | .builtin filter => .ok filter.nunjucksName
  | .custom name => .ok name

/-- The text of a truth value. -/
def boolText (b : Bool) : String :=
  if b then "true" else "false"

/-- The arguments of a truncation after the length. The ellipsis comes third, so it needs the second
one before it, and is written out wherever that one is. -/
def truncateArgs (ellipsis : Option Argument) (killWords : Bool) :
    Except WriteError (List String) :=
  match ellipsis with
  | some ellipsis => ellipsis.text.map fun text => [boolText killWords, text]
  | none => .ok (if killWords then [boolText killWords, "'...'"] else [])

/-- The value of a selection, which is left out if it only asks for truth. -/
def selectArgs (value : Option Argument) : List Argument :=
  value.toList.filter fun arg => arg.expr.literal? != some "true"

/-- The key of a sort, by its name. -/
def sortKey : Option Argument → Except WriteError (List String)
  | none => .ok []
  | some key => key.text.map fun text => ["attribute=" ++ text]

/-- The text of a step as a filter. -/
def stepText : Step Argument → Except WriteError String
  | .apply name args => do
    let name ← stepName name
    let args ← argTexts args
    return callText name args
  | .truncate length ellipsis killWords => do
    let length ← length.text
    let rest ← truncateArgs ellipsis killWords
    return callText "truncate" (length :: rest)
  | .replace old new count => (argTexts (old :: new :: count.toList)).map (callText "replace")
  | .select key value => (argTexts (key :: selectArgs value)).map (callText "selectattr")
  | .sort key reverse =>
    (sortKey key).map fun args => callText "sort" (args ++ if reverse then ["reverse=true"] else [])

/-- The spelling of an operator. -/
def operatorForm : Operator → OperatorForm
  | .add => .between "+"
  | .subtract => .between "-"
  | .multiply => .between "*"
  | .divide => .between "/"
  | .floorDivide => .between "//"
  | .modulo => .between "%"
  | .power => .between "**"
  | .concat => .between "~"
  | .equal => .between "=="
  | .notEqual => .between "!="
  | .greater => .between ">"
  | .greaterEqual => .between ">="
  | .less => .between "<"
  | .lessEqual => .between "<="
  | .contains => .swapped "in"
  | .and => .between "and"
  | .or => .between "or"
  | .not => .leading "not"

/-- A step with arguments by name. -/
def usesKeywords {ε : Type} : Step ε → Bool
  | .sort key reverse => key.isSome || reverse
  | _ => false

/-- The expression grammar. -/
def grammar : Grammar where
  language := languageName
  chain := chainWords.write
  operatorForm := fun op => .ok (operatorForm op)
  step := stepText
  wrapWhole := fun e => e.steps.length > 1 && e.steps.any usesKeywords

end Stencil.Nunjucks

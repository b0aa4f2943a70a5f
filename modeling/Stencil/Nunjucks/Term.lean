import Stencil.Operator
import Stencil.Source

/-!
# Nunjucks terms

An expression as it is written in a Nunjucks source. Terms keep parentheses, chains of comparisons
and everything else that the language has, whether or not it has a neutral form.
-/

namespace Stencil.Nunjucks

/-- An operator between two operands. -/
inductive Binary where
  | add
  | subtract
  | multiply
  | divide
  | floorDivide
  | modulo
  | power
  | concat
  | member
  | and
  | or
deriving DecidableEq, Repr

/-- The operator that is meant. Membership has the container on the left. -/
def Binary.operator : Binary → Operator
  | add => .add
  | subtract => .subtract
  | multiply => .multiply
  | divide => .divide
  | floorDivide => .floorDivide
  | modulo => .modulo
  | power => .power
  | concat => .concat
  | member => .contains
  | and => .and
  | or => .or

/-- A comparison. -/
inductive Comparison where
  | equal
  | strictEqual
  | notEqual
  | strictNotEqual
  | less
  | greater
  | lessEqual
  | greaterEqual
deriving DecidableEq, Repr

namespace Comparison

/-- Every comparison. -/
def all : List Comparison :=
  [equal, strictEqual, notEqual, strictNotEqual, less, greater, lessEqual, greaterEqual]

/-- The spelling of a comparison. -/
def text : Comparison → String
  | equal => "=="
  | strictEqual => "==="
  | notEqual => "!="
  | strictNotEqual => "!=="
  | less => "<"
  | greater => ">"
  | lessEqual => "<="
  | greaterEqual => ">="

/-- The comparison with a given spelling. -/
def ofText? (spelling : String) : Option Comparison :=
  all.find? fun c => c.text == spelling

/-- The operator that is meant. Strictness makes no difference. -/
def operator : Comparison → Operator
  | equal | strictEqual => .equal
  | notEqual | strictNotEqual => .notEqual
  | less => .less
  | greater => .greater
  | lessEqual => .lessEqual
  | greaterEqual => .greaterEqual

@[simp] theorem ofText?_text (c : Comparison) : ofText? c.text = some c := by
  cases c <;> decide

end Comparison

/-- The kinds of literals. -/
inductive LiteralKind where
  | string
  | number
  | boolean
  | none
deriving DecidableEq, Repr

/-- An expression as it is written. -/
inductive Term where
  /-- A variable. -/
  | symbol (name : Piece)
  /-- A literal. A property after a dot is a string without quotes. -/
  | literal (kind : LiteralKind) (text : Piece)
  /-- A property of a value. -/
  | lookup (target key : Term)
  /-- A term in parentheses. -/
  | group (inner : Term)
  /-- A filter, with its arguments by position and by keyword. -/
  | filter (name : String) (target : Term) (args : List Term) (keywords : List (String × Term))
  /-- Two terms with an operator between them. -/
  | binary (op : Binary) (left right : Term)
  /-- A term and the comparisons that follow it. -/
  | comparison (first : Term) (rest : List (Comparison × Term))
  /-- A negated condition. -/
  | negated (target : Term)
  /-- A number with its sign changed. -/
  | opposite (target : Term)
  /-- A test. -/
  | test (subject condition : Term)
  /-- A call. -/
  | call (function : Term) (args : List Term)
  /-- A choice between terms. -/
  | choice (condition body : Term) (otherwise : Option Term)
  /-- A list of terms. -/
  | array (items : List Term)
  /-- A list of keys and values. -/
  | dict (entries : List (Term × Term))

end Stencil.Nunjucks

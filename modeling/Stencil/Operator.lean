/-!
# Operators

The operators that expressions are built with, whatever the language spells them like. An operator
is known by an identifier and binds with a strength that every language with grouping parentheses
shares.
-/

namespace Stencil

/-- An operator of the expression algebra. All but `not` take two operands. -/
inductive Operator where
  | add
  | subtract
  | multiply
  | divide
  | floorDivide
  | modulo
  | power
  | concat
  | equal
  | notEqual
  | greater
  | greaterEqual
  | less
  | lessEqual
  | contains
  | and
  | or
  | not
deriving DecidableEq, Repr

namespace Operator

/-- Every operator, arithmetic first and logic last. -/
def all : List Operator :=
  [add, subtract, multiply, divide, floorDivide, modulo, power, concat, equal, notEqual, greater,
   greaterEqual, less, lessEqual, contains, and, or, not]

/-- The identifier of an operator. -/
def id : Operator → String
  | add => "add"
  | subtract => "subtract"
  | multiply => "multiply"
  | divide => "divide"
  | floorDivide => "floor_divide"
  | modulo => "modulo"
  | power => "power"
  | concat => "concat"
  | equal => "equal"
  | notEqual => "not_equal"
  | greater => "greater"
  | greaterEqual => "greater_equal"
  | less => "less"
  | lessEqual => "less_equal"
  | contains => "contains"
  | and => "and"
  | or => "or"
  | not => "not"

/-- The operator with a given identifier. -/
def ofId? (name : String) : Option Operator :=
  all.find? fun op => op.id == name

/-- Binding strength: a larger number binds tighter. -/
def precedence : Operator → Nat
  | or => 10
  | and => 20
  | not => 25
  | equal | notEqual | greater | greaterEqual | less | lessEqual | contains => 30
  | concat => 35
  | add | subtract => 40
  | multiply | divide | floorDivide | modulo => 50
  | power => 60

/-- Only `not` takes a single operand. -/
def isUnary : Operator → Bool
  | not => true
  | _ => false

/-- The operators on truth values. -/
def isLogical : Operator → Bool
  | and | or | not => true
  | _ => false

/-- The operators that bind as comparisons do, membership among them. -/
def isComparison (op : Operator) : Bool :=
  op.precedence == 30

@[simp] theorem ofId?_id (op : Operator) : ofId? op.id = some op := by
  cases op <;> decide

end Operator

end Stencil

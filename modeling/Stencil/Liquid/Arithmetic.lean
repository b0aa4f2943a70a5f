import Stencil.Operator

/-!
# Arithmetic in Liquid

Liquid spells arithmetic and concatenation as filters that take the right operand as their argument.
-/

namespace Stencil.Liquid

/-- The filters that are operators. -/
def arithmetic : List (String × Operator) :=
  [("plus", .add), ("minus", .subtract), ("times", .multiply), ("divided_by", .divide),
   ("modulo", .modulo), ("append", .concat)]

/-- The operator that a filter stands for. -/
def operatorOfFilter? (name : String) : Option Operator :=
  arithmetic.lookup name

/-- The filter that stands for an operator. -/
def filterOfOperator? (op : Operator) : Option String :=
  (arithmetic.find? fun entry => entry.2 == op).map (·.1)

theorem operatorOfFilter?_filterOfOperator? {op : Operator} {name : String}
    (h : filterOfOperator? op = some name) : operatorOfFilter? name = some op := by
  cases op <;> simp_all [filterOfOperator?, arithmetic] <;> subst h <;> decide

end Stencil.Liquid

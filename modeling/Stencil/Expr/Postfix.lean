import Stencil.Expr

/-!
# Postfix streams

A postfix stream lists operands and operators so that an operator stands after its operands. The
stream is folded into one pipeline with a stack: an operator appends itself to the pipeline of its
left operand and takes the right one along.
-/

namespace Stencil

/-- An entry of a postfix stream. -/
inductive Postfix where
  /-- An operand. -/
  | operand (e : Expr)
  /-- An operator on the operands before it. -/
  | operator (op : Operator)

namespace Postfix

/-- The top of a stack, the empty expression if there is none, and what is below it. -/
def pop : List Expr → Expr × List Expr
  | [] => (.empty, [])
  | e :: stack => (e, stack)

/-- The stack, its top first, after one more entry. -/
def push (stack : List Expr) : Postfix → List Expr
  | operand e => e :: stack
  | operator op =>
    let (right, below) := pop stack
    if op.isUnary then right.negate :: below
    else
      let (left, rest) := pop below
      left.apply op right :: rest

/-- The expression that a postfix stream stands for: what is left on top of the stack. -/
def fold (items : List Postfix) : Expr :=
  (pop (items.foldl push [])).1

end Postfix

end Stencil

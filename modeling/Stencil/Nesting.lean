import Stencil.Error

/-!
# Building a tree from a list

A tree of nested blocks is built from a list of items, one item after the other. What has been read
so far is the elements of the innermost open block, and for every open block around it the elements
before that block. An item goes on with the innermost block, or it opens a block or adds an
element.
-/

namespace Stencil

/-- What an item does to the innermost open block. -/
inductive Progress (β ε : Type) where
  /-- Another part of the block begins. -/
  | enter (block : β)
  /-- The block ends. -/
  | close (element : ε)
  /-- The item does not belong to the block. -/
  | foreign

/-- What has been read so far. -/
structure Nesting (β ε : Type) where
  /-- The elements of the innermost open block, the last one first. -/
  elements : List ε := []
  /-- The open blocks, the innermost one first, each with the elements before it. -/
  blocks : List (β × List ε) := []

namespace Nesting

variable {β ε τ : Type}

/-- One more element. -/
def push (n : Nesting β ε) (e : ε) : Nesting β ε :=
  { n with elements := e :: n.elements }

/-- One more open block. -/
def enter (n : Nesting β ε) (block : β) : Nesting β ε :=
  { elements := [], blocks := (block, n.elements) :: n.blocks }

/-- What has been read after an item that may go on with the innermost open block. The function
`step` says what the item does to that block, given the elements of the part that is being read,
and `otherwise` is what comes of an item that does not belong to it. -/
def advance (n : Nesting β ε) (step : β → List ε → Except ReadError (Progress β ε))
    (otherwise : Except ReadError (Nesting β ε)) : Except ReadError (Nesting β ε) :=
  match n.blocks with
  | [] => otherwise
  | (block, before) :: outer =>
    (step block n.elements.reverse).bind fun progress =>
      match progress with
      | .enter next => .ok { elements := [], blocks := (next, before) :: outer }
      | .close element => .ok { elements := element :: before, blocks := outer }
      | .foreign => otherwise

/-- The tree, if all blocks are closed. -/
def finish (n : Nesting β ε) (unclosed : β → ReadError) : Except ReadError (List ε) :=
  match n.blocks with
  | [] => .ok n.elements.reverse
  | (block, _) :: _ => .error (unclosed block)

/-- The tree of what has been read so far and some more items. -/
def run (feed : Nesting β ε → τ → Except ReadError (Nesting β ε)) (unclosed : β → ReadError)
    (n : Nesting β ε) : List τ → Except ReadError (List ε)
  | [] => n.finish unclosed
  | t :: ts => (feed n t).bind fun n => run feed unclosed n ts

end Nesting

/-- The clauses of a conditional, of which there is at least one. -/
structure Clauses (γ : Type) where
  /-- The first clause. -/
  first : γ
  /-- The others, in order. -/
  rest : List γ

/-- One more clause after those that there are, if there are any. -/
def Clauses.extend {γ : Type} (done : Option (Clauses γ)) (clause : γ) : Clauses γ :=
  match done with
  | none => ⟨clause, []⟩
  | some c => { c with rest := c.rest ++ [clause] }

end Stencil

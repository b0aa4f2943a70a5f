import Stencil.Nesting
import Stencil.Nunjucks.Chunk
import Stencil.Nunjucks.Term.Parse

/-!
# Nunjucks trees

The tree of a Nunjucks source: text, outputs and statements, with the blocks that statements open
and close. Trees keep no markers and no comments; what they keep is the offset of the first token
of an output and of the name of every tag.

The tree is built chunk by chunk.

## Main definitions

* `Nunjucks.Element` : an element of a tree.
* `Nunjucks.Block` : a block that has been opened and not yet closed.
* `Nunjucks.feed` : what has been read after one more chunk.
* `Nunjucks.parse` : the tree of a source.
-/

namespace Stencil.Nunjucks

/-- A condition and what is rendered when it is the first to hold. -/
structure Clause (ε : Type) where
  /-- The offset of the tag name. -/
  pos : Nat
  /-- The condition. -/
  condition : Term
  /-- What the clause renders. -/
  body : List ε

/-- What is rendered when nothing else is. -/
structure Alternative (ε : Type) where
  /-- The offset of the tag name. -/
  pos : Nat
  /-- What it renders. -/
  body : List ε

/-- An element of a tree. -/
inductive Element where
  /-- Text. -/
  | data (text : Piece)
  /-- An output. -/
  | output (pos : Nat) (value : Term)
  /-- A chain of conditions. -/
  | conditional (first : Clause Element) (rest : List (Clause Element))
      (otherwise : Option (Alternative Element)) (endPos : Nat)
  /-- A loop. -/
  | loop (pos : Nat) (names : List String) (collection : Term) (body : List Element)
      (otherwise : Option (Alternative Element)) (endPos : Nat)
  /-- An assignment of a value. -/
  | assign (pos : Nat) (targets : List String) (value : Term)
  /-- An assignment of what a body renders. -/
  | capture (pos : Nat) (targets : List String) (body : List Element) (endPos : Nat)
  /-- Another template in this place. -/
  | subtemplate (pos : Nat) (template : Term) (ignoreMissing : Bool)

/-! ### Open blocks -/

/-- A block that has been opened, and the part of it that is being read. -/
inductive Block where
  /-- A clause of a conditional, after the clauses that are done. -/
  | clause (done : Option (Clauses (Clause Element))) (pos : Nat) (condition : Term)
  /-- The alternative of a conditional. -/
  | clauseElse (done : Clauses (Clause Element)) (pos : Nat)
  /-- The body of a loop. -/
  | loop (pos : Nat) (names : List String) (collection : Term)
  /-- The alternative of a loop. -/
  | loopElse (pos : Nat) (names : List String) (collection : Term) (body : List Element)
      (elsePos : Nat)
  /-- The body of a capture. -/
  | capture (pos : Nat) (targets : List String)

/-- The tag that is missed first where the source ends inside a block. -/
def Block.missed : Block → String
  | clause .. => "elif"
  | clauseElse .. => "endif"
  | loop .. => "else"
  | loopElse .. => "endfor"
  | capture .. => "endset"

/-- A term that takes up the rest of a tag. -/
def termToEnd (ending : Ending) (ts : List Token) : Except ReadError Term := do
  let (value, ts) ← parseTerm ending ts
  expectTagEnd ending ts
  return value

/-- What the tag `name` with the tokens `ts` after its name does to an open block, given the
elements of the part that is being read. -/
def Block.advance (block : Block) (ending : Ending) (name : Piece) (ts : List Token)
    (body : List Element) : Except ReadError (Progress Block Element) :=
  let word := name.toString
  match block with
  | clause done pos condition =>
    let clauses := Clauses.extend done ⟨pos, condition, body⟩
    if word == "elif" || word == "elseif" then
      (termToEnd ending ts).map fun next => .enter (.clause clauses name.start next)
    else if word == "else" then
      (expectTagEnd ending ts).map fun _ => .enter (.clauseElse clauses name.start)
    else if word == "endif" then
      (expectTagEnd ending ts).map fun _ =>
        .close (.conditional clauses.first clauses.rest none name.start)
    else .ok .foreign
  | clauseElse done pos =>
    if word == "endif" then
      (expectTagEnd ending ts).map fun _ =>
        .close (.conditional done.first done.rest (some ⟨pos, body⟩) name.start)
    else .ok .foreign
  | loop pos names collection =>
    if word == "else" then
      (expectTagEnd ending ts).map fun _ =>
        .enter (.loopElse pos names collection body name.start)
    else if word == "endfor" then
      (expectTagEnd ending ts).map fun _ =>
        .close (.loop pos names collection body none name.start)
    else .ok .foreign
  | loopElse pos names collection done elsePos =>
    if word == "endfor" then
      (expectTagEnd ending ts).map fun _ =>
        .close (.loop pos names collection done (some ⟨elsePos, body⟩) name.start)
    else .ok .foreign
  | capture pos targets =>
    if word == "endset" then
      (expectTagEnd ending ts).map fun _ => .close (.capture pos targets body name.start)
    else .ok .foreign

/-! ### Statements -/

/-- Names with commas between them. -/
def nameList (ending : Ending) : Parser (List String)
  | ⟨.name, text⟩ :: t :: ts =>
    if t.isSign "," then do
      let (names, ts) ← nameList ending ts
      return (text.toString :: names, ts)
    else .ok ([text.toString], t :: ts)
  | [⟨.name, text⟩] => .ok ([text.toString], [])
  | ts => .error (unexpected ending "a name" ts)

/-- What a tag that goes on with no block does. -/
inductive Statement where
  /-- It opens a block. -/
  | enter (block : Block)
  /-- It stands on its own. -/
  | single (element : Element)

/-- The header of a loop. -/
def readLoop (ending : Ending) (pos : Nat) (ts : List Token) : Except ReadError Statement := do
  let (names, ts) ← nameList ending ts
  match eatName? "in" ts with
  | none => .error (unexpected ending (quoted "in") ts)
  | some ts =>
    let collection ← termToEnd ending ts
    return .enter (.loop pos names collection)

/-- An assignment, or the opening of a capture. -/
def readSet (ending : Ending) (pos : Nat) (ts : List Token) : Except ReadError Statement := do
  let (targets, ts) ← nameList ending ts
  match eatSign? "=" ts with
  | some ts =>
    let value ← termToEnd ending ts
    return .single (.assign pos targets value)
  | none =>
    expectTagEnd ending ts
    return .enter (.capture pos targets)

/-- The permission for a template not to exist. -/
def ignoreMissing (ending : Ending) : Parser Bool := fun ts =>
  match eatName? "ignore" ts with
  | none => .ok (false, ts)
  | some ts =>
    match eatName? "missing" ts with
    | none => .error (unexpected ending (quoted "missing") ts)
    | some ts => .ok (true, ts)

/-- Another template in this place. -/
def readSubtemplate (ending : Ending) (pos : Nat) (ts : List Token) :
    Except ReadError Statement := do
  let (template, ts) ← parseTerm ending ts
  let (ignored, ts) ← ignoreMissing ending ts
  expectTagEnd ending ts
  return .single (.subtemplate pos template ignored)

/-- The statement of a tag. The opening tag of a verbatim block comes here only if it does not end
after its name. -/
def readStatement (ending : Ending) (name : Piece) (ts : List Token) :
    Except ReadError Statement :=
  let word := name.toString
  if word == "if" then
    (termToEnd ending ts).map fun condition => .enter (.clause none name.start condition)
  else if word == "for" then readLoop ending name.start ts
  else if word == "set" then readSet ending name.start ts
  else if word == "include" then readSubtemplate ending name.start ts
  else if word == "raw" || word == "verbatim" then
    .error (unexpected ending "end of block tag" ts)
  else .error (.badSyntax name.start (.unknownBlockTag word))

/-! ### Building a tree -/

/-- What has been read so far. -/
abbrev Builder := Nesting Block Element

/-- A tag that opens a block or stands on its own. -/
def openTag (b : Builder) (ending : Ending) (name : Piece) (ts : List Token) :
    Except ReadError Builder :=
  (readStatement ending name ts).map fun statement =>
    match statement with
    | .enter block => b.enter block
    | .single element => b.push element

/-- The value of an output. -/
def readOutputTerm (inside : Inside) : Except ReadError Term := do
  let (value, ts) ← parseTerm inside.ending inside.tokens
  if ts = [] ∧ inside.ending.kind = .outputEnd then .ok value
  else .error (unexpected inside.ending (quoted "\x7d\x7d") ts)

/-- One more chunk. A tag goes on with the innermost block, or else opens one or stands on its
own. -/
def feed (b : Builder) : Chunk → Except ReadError Builder
  | .data text => .ok (b.push (.data text))
  | .output inside =>
      (readOutputTerm inside).map fun value => b.push (.output inside.start value)
  | .tag inside =>
      (expectName inside.ending inside.tokens).bind fun (name, ts) =>
        b.advance (fun block body => block.advance inside.ending name ts body)
          (openTag b inside.ending name ts)
  | .fault error => .error error

/-- The error for a block that is not closed in a source that ends at byte `stop`. -/
def Block.unclosed (stop : Nat) (block : Block) : ReadError :=
  .badSyntax stop (.endOfTemplate block.missed)

/-- The tree of a source. -/
def parse (source : List Char) : Except ReadError (List Element) :=
  Nesting.run feed (Block.unclosed (Text.byteLength source)) {} (chunks ⟨0, source⟩)

end Stencil.Nunjucks

import Stencil.Liquid.Token
import Stencil.Liquid.Value
import Stencil.Nesting

/-!
# Liquid trees

The tree of a Liquid source: text, outputs and tags, with the blocks that tags open and close. A
block keeps all of its tags. Tags that open no block stand on their own, whatever they are called.

The tree is built token by token.

## Main definitions

* `Liquid.Element` : an element of a tree.
* `Liquid.Block` : a block that has been opened and not yet closed.
* `Liquid.feed` : what has been read after one more token.
* `Liquid.parse` : the tree of a source.
-/

namespace Stencil.Liquid

/-- A condition and what is rendered when it is the first to hold. -/
structure Clause (ε : Type) where
  /-- The tag that opens the clause. -/
  tag : Tag
  /-- The condition. -/
  condition : Chain
  /-- What the clause renders. -/
  body : List ε

/-- The values of a case and what is rendered for them. -/
structure When (ε : Type) where
  /-- The tag that opens the clause. -/
  tag : Tag
  /-- The values. -/
  values : List Operand
  /-- What the clause renders. -/
  body : List ε

/-- What is rendered when nothing else is. -/
structure Alternative (ε : Type) where
  /-- The tag that opens it. -/
  tag : Tag
  /-- What it renders. -/
  body : List ε

/-- An element of a tree. -/
inductive Element where
  /-- Text outside all delimiters. -/
  | html (text : Piece)
  /-- An output. -/
  | output (value : Value) (span : Span) (trim : Trim)
  /-- A tag that opens no block. -/
  | tag (tag : Tag)
  /-- A block whose body is kept as it stands. -/
  | verbatim (opening : Tag) (content : Piece) (closing : Tag)
  /-- A chain of conditions. -/
  | conditional (first : Clause Element) (rest : List (Clause Element))
      (otherwise : Option (Alternative Element)) (closing : Tag)
  /-- A case distinction. -/
  | caseOf (opening : Tag) (subject : Value) (whens : List (When Element))
      (otherwise : Option (Alternative Element)) (closing : Tag)
  /-- A loop. -/
  | loop (opening : Tag) (body : List Element) (otherwise : Option (Alternative Element))
      (closing : Tag)
  /-- A block whose rendering is assigned. -/
  | capture (opening : Tag) (body : List Element) (closing : Tag)

/-! ### Open blocks -/

/-- A block that has been opened, and the part of it that is being read. -/
inductive Block where
  /-- A clause of a conditional, after the clauses that are done. -/
  | clause (opening : Tag) (done : Option (Clauses (Clause Element))) (tag : Tag)
      (condition : Chain)
  /-- The alternative of a conditional. -/
  | clauseElse (opening : Tag) (done : Clauses (Clause Element)) (tag : Tag)
  /-- A case distinction before its first clause. -/
  | caseHead (opening : Tag) (subject : Value)
  /-- A clause of a case distinction. -/
  | caseWhen (opening : Tag) (subject : Value) (done : List (When Element)) (tag : Tag)
      (values : List Operand)
  /-- The alternative of a case distinction. -/
  | caseElse (opening : Tag) (subject : Value) (done : List (When Element)) (tag : Tag)
  /-- The body of a loop. -/
  | loop (opening : Tag)
  /-- The alternative of a loop. -/
  | loopElse (opening : Tag) (body : List Element) (tag : Tag)
  /-- The body of a capture. -/
  | capture (opening : Tag)

/-- The tag that opened a block. -/
def Block.opening : Block → Tag
  | clause opening .. | clauseElse opening .. | caseHead opening .. | caseWhen opening ..
  | caseElse opening .. | loop opening | loopElse opening .. | capture opening => opening

/-- The condition of a tag. -/
def readCondition (tag : Tag) : Except ReadError Chain :=
  if tag.args.text.isEmpty then .error (.badSyntax tag.span.start (.missingCondition tag.name))
  else parseChain tag.args

/-- The next clause of a case distinction. -/
def enterWhen (opening : Tag) (subject : Value) (done : List (When Element)) (tag : Tag) :
    Except ReadError (Progress Block Element) :=
  (parseWhen tag.args).map fun values => .enter (.caseWhen opening subject done tag values)

/-- What `tag` does to an open block, given the elements of the part that is being read. -/
def Block.advance (block : Block) (tag : Tag) (body : List Element) :
    Except ReadError (Progress Block Element) :=
  match block with
  | clause opening done head condition =>
    let clauses := Clauses.extend done ⟨head, condition, body⟩
    if tag.name == "elsif" then
      (readCondition tag).map fun condition => .enter (.clause opening clauses tag condition)
    else if tag.name == "else" then .ok (.enter (.clauseElse opening clauses tag))
    else if tag.name == "end" ++ opening.name then
      .ok (.close (.conditional clauses.first clauses.rest none tag))
    else .ok .foreign
  | clauseElse opening done head =>
    if tag.name == "end" ++ opening.name then
      .ok (.close (.conditional done.first done.rest (some ⟨head, body⟩) tag))
    else .ok .foreign
  | caseHead opening subject =>
    if tag.name == "when" then enterWhen opening subject [] tag
    else if tag.name == "else" then .ok (.enter (.caseElse opening subject [] tag))
    else if tag.name == "endcase" then .ok (.close (.caseOf opening subject [] none tag))
    else .ok .foreign
  | caseWhen opening subject done head values =>
    let whens := done ++ [⟨head, values, body⟩]
    if tag.name == "when" then enterWhen opening subject whens tag
    else if tag.name == "else" then .ok (.enter (.caseElse opening subject whens tag))
    else if tag.name == "endcase" then
      .ok (.close (.caseOf opening subject whens none tag))
    else .ok .foreign
  | caseElse opening subject done head =>
    if tag.name == "endcase" then
      .ok (.close (.caseOf opening subject done (some ⟨head, body⟩) tag))
    else .ok .foreign
  | loop opening =>
    if tag.name == "else" then .ok (.enter (.loopElse opening body tag))
    else if tag.name == "endfor" then .ok (.close (.loop opening body none tag))
    else .ok .foreign
  | loopElse opening done head =>
    if tag.name == "endfor" then .ok (.close (.loop opening done (some ⟨head, body⟩) tag))
    else .ok .foreign
  | capture opening =>
    if tag.name == "endcapture" then .ok (.close (.capture opening body tag)) else .ok .foreign

/-! ### Building a tree -/

/-- The tags that only stand inside a block. -/
def structural : List String :=
  ["else", "elsif", "when", "endif", "endunless", "endcase", "endfor", "endcapture", "endraw",
   "endcomment"]

/-- The block that a tag opens, if it opens one. -/
def Block.open? (tag : Tag) : Except ReadError (Option Block) :=
  if tag.name == "if" || tag.name == "unless" then
    (readCondition tag).map fun condition => some (.clause tag none tag condition)
  else if tag.name == "case" then
    (parseValue tag.args).map fun subject => some (.caseHead tag subject)
  else if tag.name == "for" then .ok (some (.loop tag))
  else if tag.name == "capture" then .ok (some (.capture tag))
  else .ok none

/-- What has been read so far. -/
abbrev Builder := Nesting Block Element

/-- A tag that opens a block or stands on its own. -/
def openTag (b : Builder) (tag : Tag) : Except ReadError Builder :=
  if structural.contains tag.name then
    .error (.badSyntax tag.span.start (.unexpectedTag tag.name))
  else
    (Block.open? tag).map fun block? =>
      match block? with
      | some block => b.enter block
      | none => b.push (.tag tag)

/-- One more token. A tag goes on with the innermost block, or else opens one or stands on its
own. -/
def feed (b : Builder) : Token → Except ReadError Builder
  | .html text => .ok (b.push (.html text))
  | .output inner span trim => (parseValue inner).map fun value => b.push (.output value span trim)
  | .verbatim opening content closing => .ok (b.push (.verbatim opening content closing))
  | .tag tag => b.advance (fun block body => block.advance tag body) (openTag b tag)

/-- The error for a block that is not closed. -/
def Block.unclosed (block : Block) : ReadError :=
  .badSyntax block.opening.span.start (.blockNotClosed block.opening.name)

/-- The tree of a list of tokens. -/
def Element.ofTokens (tokens : List Token) : Except ReadError (List Element) :=
  Nesting.run feed Block.unclosed {} tokens

/-- The tree of a source. -/
def parse (source : String) : Except ReadError (List Element) :=
  (tokenize source).bind Element.ofTokens

end Stencil.Liquid

import Stencil.Text.Blank
import Stencil.Text.Integer
import Stencil.Text.Search

/-!
# Comments of a Nunjucks source

Comments `{# … #}` leave no trace in a Nunjucks tree. To keep them, every comment is lifted out of
the source before it is read, and an output of a symbol with a number stands in its place. Text that
must stay verbatim gets its comments back.
-/

namespace Stencil.Nunjucks

/-- A comment that was lifted out of a source. -/
structure Comment where
  /-- The text between the delimiters, without markers and without blanks around it. -/
  body : String
  /-- The marker of the opening delimiter. -/
  trimLeft : Bool
  /-- The marker of the closing delimiter. -/
  trimRight : Bool
  /-- The whole comment as it was written. -/
  written : String
deriving DecidableEq, Repr

/-- The comment with a given text between its delimiters. A single dash is a left marker. -/
def Comment.ofInner (inner : List Char) : Comment :=
  let left := inner.head? == some '-'
  let afterLeft := if left then inner.tail else inner
  let right := afterLeft.getLast? == some '-'
  { body := String.ofList (Text.trim (if right then afterLeft.dropLast else afterLeft))
    trimLeft := left
    trimRight := right
    written := String.ofList ("\x7b#".toList ++ inner ++ "#\x7d".toList) }

/-- What the symbol of a lifted comment begins with. -/
def symbolHead : List Char := "__COMMENT_".toList

/-- What the symbol of a lifted comment ends with. -/
def symbolTail : List Char := "__".toList

/-- The symbol that stands for the comment with a given number. -/
def commentSymbol (index : Nat) : List Char :=
  symbolHead ++ (toString index).toList ++ symbolTail

/-- The output that stands in the place of the comment with a given number. -/
def placeholder (index : Nat) : List Char :=
  "\x7b\x7b ".toList ++ commentSymbol index ++ " \x7d\x7d".toList

/-- A source without comments, and the comments that were lifted out of it, in order. -/
structure Lifted where
  /-- The source with placeholders. -/
  source : List Char
  /-- The comments. -/
  comments : List Comment
deriving DecidableEq, Repr

/-- One more character of source before what was lifted. -/
def Lifted.consChar (c : Char) (l : Lifted) : Lifted :=
  { l with source := c :: l.source }

/-- One more comment, with its placeholder, before what was lifted. -/
def Lifted.consComment (index : Nat) (comment : Comment) (l : Lifted) : Lifted :=
  { source := placeholder index ++ l.source, comments := comment :: l.comments }

/-- The text between the delimiters of a comment at the start of a source, and the source after the
comment. A comment extends to the first closing delimiter. -/
def commentAt? (cs : List Char) : Option (List Char × List Char) :=
  (Text.strip? "\x7b#".toList cs).bind (Text.cut? "#\x7d".toList)

theorem eq_of_commentAt? {cs inner rest : List Char} (h : commentAt? cs = some (inner, rest)) :
    cs = "\x7b#".toList ++ inner ++ "#\x7d".toList ++ rest := by
  obtain ⟨body, hb, hc⟩ := Option.bind_eq_some_iff.mp h
  simp [Text.eq_append_of_strip? hb, Text.cut?_eq_some hc]

/-- The comments of a source, numbered from `index` on. -/
def liftFrom (index : Nat) (cs : List Char) : Lifted :=
  match _h : commentAt? cs with
  | some (inner, rest) => (liftFrom (index + 1) rest).consComment index (.ofInner inner)
  | none =>
    match cs with
    | [] => ⟨[], []⟩
    | c :: cs => (liftFrom index cs).consChar c
termination_by cs.length
decreasing_by
  · rw [eq_of_commentAt? _h]
    simp
    omega
  · simp

/-- The source with every comment replaced by its placeholder, and the comments. -/
def liftComments (source : List Char) : Lifted :=
  liftFrom 0 source

namespace Lifted

/-- The comment that a symbol stands for. -/
def comment? (l : Lifted) (symbol : List Char) : Option Comment :=
  (Text.strip? symbolHead symbol).bind fun rest =>
    (Text.strip? symbolTail.reverse rest.reverse).bind fun digits =>
      (Text.position? digits.reverse).bind fun index => l.comments[index]?

/-- The text with the placeholders of the given comments, numbered from `index` on, replaced one
comment after the other. -/
def restoreFrom (index : Nat) : List Comment → List Char → List Char
  | [], text => text
  | c :: cs, text =>
      restoreFrom (index + 1) cs (Text.replaceAll (placeholder index) c.written.toList text)

/-- The text with its comments put back. -/
def restore (l : Lifted) (text : List Char) : List Char :=
  restoreFrom 0 l.comments text

end Lifted

end Stencil.Nunjucks

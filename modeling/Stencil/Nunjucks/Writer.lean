import Stencil.Dialect
import Stencil.Nunjucks.Grammar
import Stencil.Nunjucks.Lower

/-!
# Writing Nunjucks

Every node has a Nunjucks form except the tags that leave a loop and case distinctions with several
values in one clause. All conditionals are written as chains of conditions.
-/

namespace Stencil.Nunjucks

open Markup (Written)

/-- The words of the conditional. -/
def conditionalWords : Markup.ConditionalWords :=
  ⟨"if", "elif", "endif"⟩

/-- The words of the assignments. -/
def assignmentWords : Markup.AssignmentWords :=
  ⟨"set", "set", "endset"⟩

/-- A conditional, as the chain of conditions that it becomes. -/
def writeConditional (kind : Variant) (branches : List (Branch Written)) (trim endTrim : Trim) :
    Written :=
  (lower languageName trim branches kind).bind fun lowered =>
    match lowered with
    | .chain trim branches =>
        Markup.conditional grammar.text conditionalWords trim endTrim branches
    | .always body => body
    | .nothing => .ok ""

/-- A comment. Only the outer markers have a place. -/
def commentText (content : String) (trim endTrim : Trim) : String :=
  let body := if content.isEmpty then " " else " " ++ content ++ " "
  "\x7b#" ++ Markup.marker trim.left ++ body ++ Markup.marker endTrim.right ++ "#\x7d"

/-- A subtemplate. -/
def writeSubtemplate (template : Expr) (ignoreMissing : Bool) (trim : Trim) : Written :=
  (grammar.text template).map fun text =>
    Markup.tag ("include " ++ text ++ if ignoreMissing then " ignore missing" else "") trim

/-- A tag that is passed on. The tags that leave a loop do not exist. -/
def writeTag (name args : String) (trim : Trim) : Written :=
  if name == "break" || name == "continue" then
    .error ((WriteError.lacks languageName (.statement name)).withHint
      "Restructure the loop with conditionals instead")
  else .ok (Markup.tagWithArgs name args trim)

/-- How nodes are written. -/
def dialect : Dialect where
  output e trim := (grammar.text e).map fun text => Markup.output text trim
  conditional := writeConditional
  loop := Markup.loop grammar.text
  assignment := Markup.assignment grammar.text assignmentWords
  comment content trim endTrim := .ok (commentText content trim endTrim)
  subtemplate := writeSubtemplate
  tag := writeTag

/-- The Nunjucks source of a template. -/
def write (nodes : List Node) : Except WriteError String :=
  dialect.write nodes

end Stencil.Nunjucks

import Stencil.Dialect
import Stencil.Liquid.Grammar

/-!
# Writing Liquid

Every node has a Liquid form except loops over several variables and subtemplates that may be
missing.
-/

namespace Stencil.Liquid

open Markup (Written)

/-- The words of the conditionals. -/
def conditionalWords : Variant → Markup.ConditionalWords
  | .ifTrue => ⟨"if", "elsif", "endif"⟩
  | .ifFalse => ⟨"unless", "elsif", "endunless"⟩
  | .caseOf => ⟨"case", "when", "endcase"⟩

/-- The words of the assignments. -/
def assignmentWords : Markup.AssignmentWords :=
  ⟨"assign", "capture", "endcapture"⟩

/-- A loop, which has a single variable. -/
def writeLoop (name : String) (collection : Expr) (children : Written)
    (elseChildren : Option Written) (trim elseTrim endTrim : Trim) : Written :=
  if name.toList.contains ',' then .error (.lacks languageName (.loopVariables name))
  else Markup.loop grammar.text name collection children elseChildren trim elseTrim endTrim

/-- A subtemplate, which must exist. -/
def writeSubtemplate (template : Expr) (ignoreMissing : Bool) (trim : Trim) : Written :=
  if ignoreMissing then .error (.lacks languageName .ignoreMissing)
  else (grammar.text template).map fun text => Markup.tag ("include " ++ text) trim

/-- How nodes are written. -/
def dialect : Dialect where
  output e trim := (grammar.text e).map fun text => Markup.output text trim
  conditional kind branches trim endTrim :=
    Markup.conditional grammar.text (conditionalWords kind) trim endTrim branches
  loop := writeLoop
  assignment := Markup.assignment grammar.text assignmentWords
  comment content trim endTrim := .ok (Markup.block "comment" content "endcomment" trim endTrim)
  subtemplate := writeSubtemplate
  tag name args trim := .ok (Markup.tagWithArgs name args trim)

/-- The Liquid source of a template. -/
def write (nodes : List Node) : Except WriteError String :=
  dialect.write nodes

end Stencil.Liquid

import Stencil.Error
import Stencil.Node

/-!
# Delimiters and blocks

Both languages put outputs between `{{` and `}}` and tags between `{%` and `%}`, with a dash for a
whitespace-control marker. Both write a conditional as a tag for each branch and a closing tag,
loops alike, and assignments alike but for the words.
-/

namespace Stencil.Markup

/-- A marker, if it is set. -/
def marker (isSet : Bool) : String :=
  if isSet then "-" else ""

/-- A text between delimiters. -/
def delimit (opening closing body : String) (trim : Trim) : String :=
  opening ++ marker trim.left ++ " " ++ body ++ " " ++ marker trim.right ++ closing

/-- A tag. -/
def tag (body : String) (trim : Trim) : String :=
  delimit "\x7b%" "%\x7d" body trim

/-- An output. -/
def output (body : String) (trim : Trim) : String :=
  delimit "\x7b\x7b" "\x7d\x7d" body trim

/-- A tag with a name and its arguments, if there are any. -/
def tagWithArgs (name args : String) (trim : Trim) : String :=
  tag (if args.isEmpty then name else name ++ " " ++ args) trim

/-- A body that is kept as it stands between two tags. -/
def block (opening body closing : String) (trim endTrim : Trim) : String :=
  tag opening trim ++ body ++ tag closing endTrim

/-- What a writer makes of the nodes of a block. -/
abbrev Written := Except WriteError String

/-! ### Conditionals -/

/-- The words that a language writes a conditional with. -/
structure ConditionalWords where
  /-- The word of the first tag. -/
  opening : String
  /-- The word of a further tag with a condition. -/
  subsequent : String
  /-- The word of the closing tag. -/
  closing : String

/-- The arms of a conditional after the first one. -/
def arms (text : Expr → Written) (subsequent : String) : List (Branch Written) → Written
  | [] => .ok ""
  | ⟨some condition, body, trim⟩ :: rest => do
    let condition ← text condition
    let body ← body
    let rest ← arms text subsequent rest
    return tag (subsequent ++ " " ++ condition) trim ++ body ++ rest
  | ⟨none, body, trim⟩ :: rest => do
    let body ← body
    let rest ← arms text subsequent rest
    return tag "else" trim ++ body ++ rest

/-- A conditional. Its first branch has to have a condition. -/
def conditional (text : Expr → Written) (words : ConditionalWords) (trim endTrim : Trim) :
    List (Branch Written) → Written
  | [] => .ok (tag words.closing endTrim)
  | ⟨none, _, _⟩ :: _ => .error (.malformed (.noLeadingCondition words.opening))
  | ⟨some condition, body, _⟩ :: rest => do
    let condition ← text condition
    let body ← body
    let rest ← arms text words.subsequent rest
    return tag (words.opening ++ " " ++ condition) trim ++ body ++ rest ++
      tag words.closing endTrim

/-! ### Loops and assignments -/

/-- The alternative of a loop. -/
def loopElse (elseTrim : Trim) : Option Written → Written
  | none => .ok ""
  | some body => body.map fun text => tag "else" elseTrim ++ text

/-- A loop. -/
def loop (text : Expr → Written) (name : String) (collection : Expr) (children : Written)
    (elseChildren : Option Written) (trim elseTrim endTrim : Trim) : Written := do
  let collection ← text collection
  let children ← children
  let alternative ← loopElse elseTrim elseChildren
  return tag ("for " ++ name ++ " in " ++ collection) trim ++ children ++ alternative ++
    tag "endfor" endTrim

/-- The words that a language writes assignments with. -/
structure AssignmentWords where
  /-- The word for the assignment of a value. -/
  value : String
  /-- The word of the tag before nodes that are assigned. -/
  opening : String
  /-- The word of the tag after them. -/
  closing : String

/-- An assignment: of a value, or else of rendered nodes. -/
def assignment (text : Expr → Written) (words : AssignmentWords) (target : String)
    (e : Option Expr) (children : Option Written) (trim endTrim : Trim) : Written :=
  match e, children with
  | some e, _ => (text e).map fun value => tag (words.value ++ " " ++ target ++ " = " ++ value) trim
  | none, some children => children.map fun body =>
      block (words.opening ++ " " ++ target) body words.closing trim endTrim
  | none, none => .error (.malformed (.emptyAssignment target))

end Stencil.Markup

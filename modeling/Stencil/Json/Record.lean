import Stencil.Json

/-!
# Records and constants in JSON

A record is an object, or an array of its fields in order. Such an array stands for the object that
gives its items their names, so that a field which may be missing from the object may be missing
from the end of the array.

A tagged record also says of what kind it is: in an object by a field, in an array by the first
item. A pair of a kind and a value is either an object with both or an array of both.

A constant is a string, or an object with null in a single field of that name. Inside a tagged
record there is more freedom: the kind of another one may be given by its number, and an empty
object counts as null in a constant.
-/

namespace Stencil.Json

/-- Whether a value stands inside a tagged record. -/
inductive Position where
  | outside
  | inside
deriving DecidableEq, Repr

/-- A record with fields called `names`, as an object. -/
def record? (names : List String) : Json → Option Json
  | obj fields => some (obj fields)
  | arr items => if items.length ≤ names.length then some (obj (names.zip items)) else none
  | _ => none

@[simp] theorem record?_obj (names : List String) (fields : List (String × Json)) :
    record? names (obj fields) = some (obj fields) := rfl

/-- A pair of a kind and a value, with the names of the two, as an object. -/
def pair? (tag content : String) : Json → Option Json
  | obj fields => some (obj fields)
  | arr [kind, value] => some (obj [(tag, kind), (content, value)])
  | _ => none

@[simp] theorem pair?_obj (tag content : String) (fields : List (String × Json)) :
    pair? tag content (obj fields) = some (obj fields) := rfl

/-- The name of a constant. -/
def constant? (position : Position) : Json → Option String
  | str name => some name
  | obj [(name, null)] => some name
  | obj [(name, obj [])] => if position = .inside then some name else none
  | _ => none

@[simp] theorem constant?_str (position : Position) (name : String) :
    constant? position (str name) = some name := rfl

/-- The kinds of a tagged record in order, each with the names of its fields if it may be written as
an array. -/
abbrev Kinds := List (String × Option (List String))

/-- The kind that a value names, or counts to inside a tagged record. -/
def kind? (position : Position) (kinds : Kinds) : Json → Option String
  | str name => some name
  | number n 0 =>
    if position = .inside ∧ 0 ≤ n then kinds[n.toNat]?.map (·.1) else none
  | _ => none

/-- The kind of a tagged record, and the record as an object. -/
def tagged? (position : Position) (tag : String) (kinds : Kinds) :
    Json → Option (String × Json)
  | obj fields =>
      ((fields.lookup tag).bind (kind? position kinds)).map fun kind => (kind, obj fields)
  | arr (first :: items) => do
    let kind ← kind? position kinds first
    let names ← (kinds.lookup kind).join
    let record ← record? names (arr items)
    return (kind, record)
  | _ => none

@[simp] theorem tagged?_obj (position : Position) (tag kind : String) (kinds : Kinds)
    (fields : List (String × Json)) :
    tagged? position tag kinds (obj ((tag, str kind) :: fields)) =
      some (kind, obj ((tag, str kind) :: fields)) := by
  simp [tagged?, kind?]

end Stencil.Json

/-!
# JSON values

JSON as data: an object keeps its fields in order, and a number is a decimal fraction
`mantissa / 10 ^ scale`.
-/

namespace Stencil

/-- A JSON value. -/
inductive Json where
  | null
  | bool (value : Bool)
  | number (mantissa : Int) (scale : Nat)
  | str (value : String)
  | arr (items : List Json)
  | obj (fields : List (String × Json))

namespace Json

/-- A whole number. -/
def int (n : Int) : Json :=
  number n 0

/-- The value of a whole number. -/
def int? : Json → Option Int
  | number n 0 => some n
  | _ => none

/-- The text of a string. -/
def str? : Json → Option String
  | str s => some s
  | _ => none

/-- The items of an array. -/
def arr? : Json → Option (List Json)
  | arr items => some items
  | _ => none

/-- The first field of an object with a given name. -/
def get? (name : String) : Json → Option Json
  | obj fields => fields.lookup name
  | _ => none

/-- A field that holds a string. -/
def getStr? (name : String) (j : Json) : Option String :=
  (j.get? name).bind str?

/-- A truth value that is false when it is missing. -/
def flag? (name : String) (j : Json) : Option Bool :=
  match j.get? name with
  | none => some false
  | some (bool b) => some b
  | some _ => none

/-- A value that may be missing or null. -/
def option? {α : Type} (decode : Json → Option α) (name : String) (j : Json) : Option (Option α) :=
  match j.get? name with
  | none | some null => some none
  | some v => (decode v).map some

/-- Every item of an array, decoded. -/
def list? {α : Type} (decode : Json → Option α) (j : Json) : Option (List α) :=
  j.arr?.bind fun items => items.mapM decode

/-- A field that is left out when there is nothing in it. -/
def optional (name : String) : Option Json → List (String × Json)
  | none => []
  | some v => [(name, v)]

mutual

/-- How deeply a value is nested: one for a value without parts. -/
def depth : Json → Nat
  | arr items => depthItems items + 1
  | obj fields => depthFields fields + 1
  | _ => 1

/-- The largest depth of the items of an array. -/
def depthItems : List Json → Nat
  | [] => 0
  | j :: js => max (depth j) (depthItems js)

/-- The largest depth of the fields of an object. -/
def depthFields : List (String × Json) → Nat
  | [] => 0
  | (_, j) :: fields => max (depth j) (depthFields fields)

end

end Json

end Stencil

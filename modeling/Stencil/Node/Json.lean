import Stencil.Expr.Json
import Stencil.Node

/-!
# Templates as JSON

A node is a tagged record, an arm of a conditional is a record, and so is a pair of markers. All of
them are written as objects. The markers of a node's first tag are two fields of the node itself and
always present; the markers of its other tags are records of their own, left out when they are
unset. An absent list of children is left out and differs from an empty one.

A node with markers among its fields is never an array.

## Main definitions

* `Node.toJson`, `Node.listToJson` : encoding.
* `Node.ofJson?`, `Node.listOfJson?` : decoding.
-/

namespace Stencil

/-- The two fields of a pair of markers. -/
def Trim.fields (t : Trim) : List (String × Json) :=
  [("trim_left", .bool t.left), ("trim_right", .bool t.right)]

/-- A field with a pair of markers, left out when they are unset. -/
def Trim.optionalField (name : String) (t : Trim) : List (String × Json) :=
  if t.isUnset then [] else [(name, .obj t.fields)]

/-- The markers among the fields of an object. -/
def Trim.ofFields? (j : Json) : Option Trim := do
  let left ← j.flag? "trim_left"
  let right ← j.flag? "trim_right"
  return ⟨left, right⟩

/-- The markers that a JSON value stands for. -/
def Trim.ofJson? (j : Json) : Option Trim :=
  (j.record? ["trim_left", "trim_right"]).bind ofFields?

/-- The markers in a field of their own, unset when it is missing. -/
def Trim.ofField? (name : String) (j : Json) : Option Trim :=
  match j.get? name with
  | none => some .unset
  | some value => ofJson? value

/-- The way of choosing with a given name. -/
def Variant.ofKeyword? : String → Option Variant
  | "if" => some .ifTrue
  | "unless" => some .ifFalse
  | "case" => some .caseOf
  | _ => none

/-- The way of choosing that a JSON value inside a node stands for. -/
def Variant.ofJson? (j : Json) : Option Variant :=
  (j.constant? .inside).bind ofKeyword?

/-! ### Encoding -/

/-- An optional expression as JSON, null when it is absent. -/
def Expr.nullableToJson : Option Expr → Json
  | none => .null
  | some e => e.toJson

mutual

/-- A node as JSON. -/
def Node.toJson : Node → Json
  | .text content => .obj [("type", .str "text"), ("content", .str content)]
  | .output e trim =>
      .obj ([("type", .str "output"), ("expression", e.toJson)] ++ trim.fields)
  | .conditional kind branches trim endTrim =>
      .obj ([("type", .str "conditional"), ("variant", .str kind.keyword),
        ("branches", .arr (Node.branchesToJson branches))] ++ trim.fields ++
        endTrim.optionalField "end_trim")
  | .loop name collection children elseChildren trim elseTrim endTrim =>
      .obj ([("type", .str "loop"), ("variable", .str name), ("collection", collection.toJson),
        ("children", .arr (Node.listToJson children))] ++
        Json.optional "else_children" (Node.optionToJson elseChildren) ++ trim.fields ++
        elseTrim.optionalField "else_trim" ++ endTrim.optionalField "end_trim")
  | .assignment target e children trim endTrim =>
      .obj ([("type", .str "assignment"), ("target", .str target),
        ("expression", Expr.nullableToJson e)] ++
        Json.optional "children" (Node.optionToJson children) ++ trim.fields ++
        endTrim.optionalField "end_trim")
  | .comment content trim endTrim =>
      .obj ([("type", .str "comment"), ("content", .str content)] ++ trim.fields ++
        endTrim.optionalField "end_trim")
  | .raw content trim endTrim =>
      .obj ([("type", .str "raw"), ("content", .str content)] ++ trim.fields ++
        endTrim.optionalField "end_trim")
  | .subtemplate template ignoreMissing trim =>
      .obj ([("type", .str "include"), ("template", template.toJson),
        ("ignore_missing", .bool ignoreMissing)] ++ trim.fields)
  | .tag name args children trim =>
      .obj ([("type", .str "tag"), ("name", .str name), ("args", .str args),
        ("children", .arr (Node.listToJson children))] ++ trim.fields)

/-- A list of nodes as JSON. -/
def Node.listToJson : List Node → List Json
  | [] => []
  | n :: ns => Node.toJson n :: Node.listToJson ns

/-- An optional list of nodes as JSON. -/
def Node.optionToJson : Option (List Node) → Option Json
  | none => none
  | some ns => some (.arr (Node.listToJson ns))

/-- An arm as JSON. -/
def Node.branchToJson : Branch (List Node) → Json
  | ⟨condition, body, trim⟩ =>
      .obj ([("condition", Expr.nullableToJson condition),
          ("children", .arr (Node.listToJson body))] ++
        trim.optionalField "trim")

/-- A list of arms as JSON. -/
def Node.branchesToJson : List (Branch (List Node)) → List Json
  | [] => []
  | b :: bs => Node.branchToJson b :: Node.branchesToJson bs

end

/-! ### Decoding -/

/-- The arm that a JSON value stands for, given how its nodes are decoded. -/
def Branch.ofJson? (node : Json → Option Node) (j : Json) : Option (Branch (List Node)) := do
  let j ← j.record? ["condition", "children", "trim"]
  let condition ← j.option? (Expr.ofJson? .inside) "condition"
  let body ← (j.get? "children").bind (Json.list? node)
  let trim ← Trim.ofField? "trim" j
  return ⟨condition, body, trim⟩

/-- The kinds of nodes. -/
def Node.kinds : Json.Kinds :=
  [("text", some ["content"]), ("output", none), ("conditional", none), ("loop", none),
   ("assignment", none), ("comment", none), ("raw", none), ("include", none), ("tag", none)]

/-- The node of a given kind, from an object with its fields and given how the nodes inside it are
decoded. -/
def Node.ofKind? (node : Json → Option Node) (j : Json) : (kind : String) → Option Node
  | "text" => (j.getStr? "content").map .text
  | "output" => do
    let e ← (j.get? "expression").bind (Expr.ofJson? .inside)
    let trim ← Trim.ofFields? j
    return .output e trim
  | "conditional" => do
    let kind ← (j.get? "variant").bind Variant.ofJson?
    let branches ← (j.get? "branches").bind (Json.list? (Branch.ofJson? node))
    let trim ← Trim.ofFields? j
    let endTrim ← Trim.ofField? "end_trim" j
    return .conditional kind branches trim endTrim
  | "loop" => do
    let name ← j.getStr? "variable"
    let collection ← (j.get? "collection").bind (Expr.ofJson? .inside)
    let children ← (j.get? "children").bind (Json.list? node)
    let elseChildren ← j.option? (Json.list? node) "else_children"
    let trim ← Trim.ofFields? j
    let elseTrim ← Trim.ofField? "else_trim" j
    let endTrim ← Trim.ofField? "end_trim" j
    return .loop name collection children elseChildren trim elseTrim endTrim
  | "assignment" => do
    let target ← j.getStr? "target"
    let e ← j.option? (Expr.ofJson? .inside) "expression"
    let children ← j.option? (Json.list? node) "children"
    let trim ← Trim.ofFields? j
    let endTrim ← Trim.ofField? "end_trim" j
    return .assignment target e children trim endTrim
  | "comment" => do
    let content ← j.getStr? "content"
    let trim ← Trim.ofFields? j
    let endTrim ← Trim.ofField? "end_trim" j
    return .comment content trim endTrim
  | "raw" => do
    let content ← j.getStr? "content"
    let trim ← Trim.ofFields? j
    let endTrim ← Trim.ofField? "end_trim" j
    return .raw content trim endTrim
  | "include" => do
    let template ← (j.get? "template").bind (Expr.ofJson? .inside)
    let ignoreMissing ← j.flag? "ignore_missing"
    let trim ← Trim.ofFields? j
    return .subtemplate template ignoreMissing trim
  | "tag" => do
    let name ← j.getStr? "name"
    let args ← j.getStr? "args"
    let children ← (j.get? "children").bind (Json.list? node)
    let trim ← Trim.ofFields? j
    return .tag name args children trim
  | _ => none

/-- The node that a JSON value nested at most `depth` deep stands for. -/
def Node.ofJsonDepth? : (depth : Nat) → Json.Position → Json → Option Node
  | 0, _, _ => none
  | depth + 1, position, j =>
    (j.tagged? position "type" Node.kinds).bind fun (kind, j) =>
      Node.ofKind? (Node.ofJsonDepth? depth .inside) j kind

/-- The node that a JSON value stands for. -/
def Node.ofJson? (j : Json) : Option Node :=
  Node.ofJsonDepth? j.depth .outside j

/-- The nodes that a JSON array stands for. -/
def Node.listOfJson? (j : Json) : Option (List Node) :=
  Json.list? Node.ofJson? j

end Stencil

import Stencil.Expr
import Stencil.Json.Record
import Stencil.Text.Integer

/-!
# Expressions as JSON

An expression is a record, a step is a tagged record, and a part of a chain is a pair of a kind and
a value. All of them are written as objects. Empty argument lists and absent options are left out,
and decoding gives back exactly what was left out.

## Main definitions

* `Operator.ofJson?`, `Builtin.ofJson?` : constants.
* `Part.toJson`, `Part.ofJson?` : the parts of a chain.
* `Expr.toJson`, `Expr.ofJson?` : expressions.
* `Step.ofJson?` : steps.
-/

namespace Stencil

/-- A part of a chain as JSON. -/
def Part.toJson : Part → Json
  | ident name => .obj [("kind", .str "ident"), ("value", .str name)]
  | literal text => .obj [("kind", .str "literal"), ("value", .str text)]
  | index value => .obj [("kind", .str "index"), ("value", .int value.toInt)]
  | null => .obj [("kind", .str "null")]
  | blank => .obj [("kind", .str "blank")]
  | loopVar => .obj [("kind", .str "loop_var")]

/-- A part without payload, whose value may only be null. -/
def Part.ofBare? (part : Part) (j : Json) : Option Part :=
  match j.get? "value" with
  | none | some .null => some part
  | some _ => none

/-- The part of a chain of a given kind, from an object with its value. -/
def Part.ofKind? (j : Json) : (kind : String) → Option Part
  | "ident" => (j.getStr? "value").map .ident
  | "literal" => (j.getStr? "value").map .literal
  | "index" => (((j.get? "value").bind Json.int?).bind Text.toInt64?).map .index
  | "null" => ofBare? .null j
  | "blank" => ofBare? .blank j
  | "loop_var" => ofBare? .loopVar j
  | _ => none

/-- The part of a chain that a JSON value stands for. -/
def Part.ofJson? (position : Json.Position) (j : Json) : Option Part := do
  let j ← j.pair? "kind" "value"
  let kind ← (j.get? "kind").bind (Json.constant? position)
  ofKind? j kind

/-- The operator that a JSON value stands for. -/
def Operator.ofJson? (position : Json.Position) (j : Json) : Option Operator :=
  (j.constant? position).bind Operator.ofId?

/-- The filter that a JSON value stands for. -/
def Builtin.ofJson? (position : Json.Position) (j : Json) : Option Builtin :=
  (j.constant? position).bind Builtin.ofId?

/-- The name of a step as JSON. -/
def StepName.toJson : StepName → Json
  | op o => .obj [("kind", .str "op"), ("id", .str o.id)]
  | builtin b => .obj [("kind", .str "builtin"), ("id", .str b.id)]
  | custom name => .obj [("kind", .str "custom"), ("id", .str name)]

/-- The name of a step of a given kind. -/
def StepName.ofKind? (id : Json) : (kind : String) → Option StepName
  | "op" => (Operator.ofJson? .inside id).map .op
  | "builtin" => (Builtin.ofJson? .inside id).map .builtin
  | "custom" => id.str?.map .custom
  | _ => none

/-- The name of a step that a JSON value stands for. -/
def StepName.ofJson? (j : Json) : Option StepName := do
  let j ← j.pair? "kind" "id"
  let kind ← (j.get? "kind").bind (Json.constant? .inside)
  let id ← j.get? "id"
  ofKind? id kind

/-! ### Encoding -/

mutual

/-- An expression as JSON. -/
def Expr.toJson : Expr → Json
  | ⟨chain, steps⟩ =>
      .obj [("postfix", .arr (chain.map Part.toJson)), ("filters", .arr (Expr.stepsToJson steps))]

/-- The steps of a pipeline as JSON. -/
def Expr.stepsToJson : List (Step Expr) → List Json
  | [] => []
  | s :: ss => Expr.stepToJson s :: Expr.stepsToJson ss

/-- A step as JSON. -/
def Expr.stepToJson : Step Expr → Json
  | .apply name args =>
      .obj ([("filter", .str "apply"), ("name", name.toJson)] ++
        match Expr.argsToJson args with
        | [] => []
        | items => [("args", .arr items)])
  | .truncate length ellipsis killWords =>
      .obj ([("filter", .str "truncate"), ("length", Expr.toJson length)] ++
        Json.optional "end" (Expr.optionToJson ellipsis) ++ [("kill_words", .bool killWords)])
  | .replace old new count =>
      .obj ([("filter", .str "replace"), ("old", Expr.toJson old), ("new", Expr.toJson new)] ++
        Json.optional "flags" (Expr.optionToJson count))
  | .select key value =>
      .obj ([("filter", .str "where"), ("attribute", Expr.toJson key)] ++
        Json.optional "value" (Expr.optionToJson value))
  | .sort key reverse =>
      .obj ([("filter", .str "sort")] ++ Json.optional "attribute" (Expr.optionToJson key) ++
        [("reverse", .bool reverse)])

/-- The arguments of a step as JSON. -/
def Expr.argsToJson : List Expr → List Json
  | [] => []
  | e :: es => Expr.toJson e :: Expr.argsToJson es

/-- An optional argument as JSON. -/
def Expr.optionToJson : Option Expr → Option Json
  | none => none
  | some e => some (Expr.toJson e)

end

/-! ### Decoding -/

/-- The kinds of steps. -/
def Step.kinds : Json.Kinds :=
  [("apply", some ["name", "args"]), ("truncate", some ["length", "end", "kill_words"]),
   ("replace", some ["old", "new", "flags"]), ("where", some ["attribute", "value"]),
   ("sort", some ["attribute", "reverse"])]

/-- The step of a given kind, from an object with its fields and given how its arguments are
decoded. -/
def Step.ofKind? (expr : Json → Option Expr) (j : Json) : (kind : String) → Option (Step Expr)
  | "apply" => do
    let name ← (j.get? "name").bind StepName.ofJson?
    let args ← match j.get? "args" with
      | none => some []
      | some items => Json.list? expr items
    return .apply name args
  | "truncate" => do
    let length ← (j.get? "length").bind expr
    let ellipsis ← j.option? expr "end"
    let killWords ← j.flag? "kill_words"
    return .truncate length ellipsis killWords
  | "replace" => do
    let old ← (j.get? "old").bind expr
    let new ← (j.get? "new").bind expr
    let count ← j.option? expr "flags"
    return .replace old new count
  | "where" => do
    let key ← (j.get? "attribute").bind expr
    let value ← j.option? expr "value"
    return .select key value
  | "sort" => do
    let key ← j.option? expr "attribute"
    let reverse ← j.flag? "reverse"
    return .sort key reverse
  | _ => none

/-- The step that a JSON value stands for, given how its arguments are decoded. -/
def Step.ofJsonWith? (expr : Json → Option Expr) (position : Json.Position) (j : Json) :
    Option (Step Expr) :=
  (j.tagged? position "filter" kinds).bind fun (kind, j) => ofKind? expr j kind

/-- The expression that a JSON value nested at most `depth` deep stands for. -/
def Expr.ofJsonDepth? : (depth : Nat) → Json.Position → Json → Option Expr
  | 0, _, _ => none
  | depth + 1, position, j => do
    let j ← j.record? ["postfix", "filters"]
    let step := Step.ofJsonWith? (Expr.ofJsonDepth? depth .inside) position
    let chain ← (j.get? "postfix").bind (Json.list? (Part.ofJson? position))
    let steps ← (j.get? "filters").bind (Json.list? step)
    return ⟨chain, steps⟩

/-- The expression that a JSON value stands for. -/
def Expr.ofJson? (position : Json.Position) (j : Json) : Option Expr :=
  Expr.ofJsonDepth? j.depth position j

/-- The step that a JSON value stands for. -/
def Step.ofJson? (position : Json.Position) (j : Json) : Option (Step Expr) :=
  Step.ofJsonWith? (Expr.ofJson? .inside) position j

end Stencil

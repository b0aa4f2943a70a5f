import Stencil.Node.Json

/-!
# Templates survive their encoding

Decoding gives back the template that was encoded. The keys that are left out of the encoding are
those of absent options, of empty argument lists and of unset markers, and a missing key is decoded
to just that value. An absent list of nodes and an empty one are told apart, because the empty one
is written.

The decoders stop at a given depth. A part of an encoded value is nested less deeply than the whole,
so the depth of the encoding is enough.

## Main results

* `Json.list?_map`, `Json.option?_of_lookup` : lists and optional fields are decoded when their
  items are.
* `Expr.ofJson?_toJson` : an expression is decoded from its encoding.
* `Node.ofJsonDepth?_toJson` : so is a node.
* `Node.listOfJson?_listToJson` : so is a template.
-/

namespace Stencil

namespace Json

variable {α : Type} {fields : List (String × Json)} {j : Json}

/-! ### Depth -/

theorem depth_pos (j : Json) : 0 < j.depth := by
  cases j <;> simp [depth]

theorem depth_lt_of_mem_items {items : List Json} (h : j ∈ items) :
    j.depth < (arr items).depth := by
  rw [depth, Nat.lt_succ_iff]
  induction items with
  | nil => cases h
  | cons i items ih =>
    rw [depthItems]
    rcases List.mem_cons.mp h with rfl | h
    · exact Nat.le_max_left ..
    · exact Nat.le_trans (ih h) (Nat.le_max_right ..)

theorem depth_lt_of_mem_fields (name : String) (h : (name, j) ∈ fields) :
    j.depth < (obj fields).depth := by
  rw [depth, Nat.lt_succ_iff]
  induction fields with
  | nil => cases h
  | cons field fields ih =>
    rw [depthFields]
    rcases List.mem_cons.mp h with rfl | h
    · exact Nat.le_max_left ..
    · exact Nat.le_trans (ih h) (Nat.le_max_right ..)

/-! ### Fields -/

@[simp] theorem lookup_optional (key name : String) (value : Option Json) :
    (optional name value).lookup key = if key == name then value else none := by
  cases value with
  | none => simp [optional]
  | some v => by_cases h : key == name <;> simp [optional, List.lookup_cons, h]

theorem list?_map {encode : α → Json} {decode : Json → Option α} {xs : List α}
    (h : ∀ x ∈ xs, decode (encode x) = some x) : list? decode (arr (xs.map encode)) = some xs := by
  show (xs.map encode).mapM decode = some xs
  induction xs with
  | nil => rfl
  | cons x xs ih =>
    rw [List.forall_mem_cons] at h
    simp [h.1, ih h.2]

/-- An optional value is decoded from a field that is left out when it is absent. -/
theorem option?_of_lookup {encode : α → Json} {decode : Json → Option α} {value : Option α}
    (hnull : ∀ x, encode x ≠ null) (h : ∀ x ∈ value, decode (encode x) = some x) (name : String)
    (fields : List (String × Json)) (hfield : fields.lookup name = value.map encode) :
    option? decode name (obj fields) = some value := by
  rw [option?, get?, hfield]
  cases value with
  | none => rfl
  | some x =>
    have hx := h x rfl
    have := hnull x
    generalize encode x = j at *
    cases j <;> simp_all

end Json

/-! ### Expressions -/

theorem Part.ofJson?_toJson (position : Json.Position) (part : Part) :
    Part.ofJson? position part.toJson = some part := by
  cases part <;> simp [Part.toJson, Part.ofJson?, Part.ofKind?, Part.ofBare?, Json.get?,
    Json.getStr?, Json.str?, Json.int, Json.int?, List.lookup_cons, Text.toInt64?_toInt]

theorem StepName.ofJson?_toJson (name : StepName) : StepName.ofJson? name.toJson = some name := by
  cases name <;> simp [StepName.toJson, StepName.ofJson?, StepName.ofKind?, Json.get?,
    List.lookup_cons, Operator.ofJson?, Builtin.ofJson?, Json.str?]

namespace Expr

theorem stepsToJson_eq_map (steps : List (Step Expr)) :
    stepsToJson steps = steps.map stepToJson := by
  induction steps with
  | nil => rfl
  | cons s steps ih => rw [stepsToJson, ih, List.map_cons]

theorem argsToJson_eq_map (args : List Expr) : argsToJson args = args.map toJson := by
  induction args with
  | nil => rfl
  | cons e args ih => rw [argsToJson, ih, List.map_cons]

theorem optionToJson_eq_map (e : Option Expr) : optionToJson e = e.map toJson := by
  cases e <;> rfl

theorem toJson_ne_null (e : Expr) : e.toJson ≠ .null := by
  cases e
  simp [toJson]

/-- A step is decoded when its arguments are. -/
theorem ofJsonWith?_stepToJson {expr : Json → Option Expr} {s : Step Expr}
    (h : ∀ e ∈ s.args, expr e.toJson = some e) (position : Json.Position) :
    Step.ofJsonWith? expr position (stepToJson s) = some s := by
  cases s with
  | apply name args =>
    have hname := StepName.ofJson?_toJson name
    have hargs : Json.list? expr (.arr (args.map toJson)) = some args := Json.list?_map h
    rw [stepToJson, argsToJson_eq_map]
    cases args with
    | nil => simp [Step.ofJsonWith?, Step.ofKind?, Json.get?, List.lookup_cons, hname]
    | cons e args =>
      rw [List.map_cons] at hargs ⊢
      simp [Step.ofJsonWith?, Step.ofKind?, Json.get?, List.lookup_cons, hname, hargs]
  | truncate length ellipsis killWords =>
    have hlength := h length List.mem_cons_self
    have hellipsis : ∀ e ∈ ellipsis, expr e.toJson = some e := by simp_all [Step.args]
    simp [stepToJson, Step.ofJsonWith?, Step.ofKind?, Json.get?, Json.flag?, List.lookup_cons,
      List.lookup_append, optionToJson_eq_map, hlength,
      Json.option?_of_lookup toJson_ne_null hellipsis]
  | replace old new count =>
    have hold := h old List.mem_cons_self
    have hnew := h new (List.mem_cons_of_mem old List.mem_cons_self)
    have hcount : ∀ e ∈ count, expr e.toJson = some e := by simp_all [Step.args]
    simp [stepToJson, Step.ofJsonWith?, Step.ofKind?, Json.get?, List.lookup_cons,
      optionToJson_eq_map, hold, hnew, Json.option?_of_lookup toJson_ne_null hcount]
  | select key value =>
    have hkey := h key List.mem_cons_self
    have hvalue : ∀ e ∈ value, expr e.toJson = some e := by simp_all [Step.args]
    simp [stepToJson, Step.ofJsonWith?, Step.ofKind?, Json.get?, List.lookup_cons,
      optionToJson_eq_map, hkey, Json.option?_of_lookup toJson_ne_null hvalue]
  | sort key reverse =>
    have hkey : ∀ e ∈ key, expr e.toJson = some e := by simp_all [Step.args]
    simp [stepToJson, Step.ofJsonWith?, Step.ofKind?, Json.get?, Json.flag?, List.lookup_cons,
      List.lookup_append, optionToJson_eq_map, Json.option?_of_lookup toJson_ne_null hkey]

/-- An argument is nested less deeply than its step. -/
theorem depth_lt_stepToJson {e : Expr} {s : Step Expr} (h : e ∈ s.args) :
    e.toJson.depth < (stepToJson s).depth := by
  cases s with
  | apply name args =>
    have hitem : e.toJson ∈ args.map toJson := List.mem_map_of_mem h
    rw [stepToJson, argsToJson_eq_map]
    generalize args.map toJson = items at hitem
    cases items with
    | nil => cases hitem
    | cons item items =>
      exact Nat.lt_trans (Json.depth_lt_of_mem_items hitem)
        (Json.depth_lt_of_mem_fields "args" (by simp))
  | truncate length ellipsis killWords =>
    rcases List.mem_cons.mp h with rfl | h
    · exact Json.depth_lt_of_mem_fields "length" (by simp)
    · obtain rfl := Option.mem_toList.mp h
      exact Json.depth_lt_of_mem_fields "end" (by simp [optionToJson, Json.optional])
  | replace old new count =>
    rcases List.mem_cons.mp h with rfl | h
    · exact Json.depth_lt_of_mem_fields "old" (by simp)
    rcases List.mem_cons.mp h with rfl | h
    · exact Json.depth_lt_of_mem_fields "new" (by simp)
    · obtain rfl := Option.mem_toList.mp h
      exact Json.depth_lt_of_mem_fields "flags" (by simp [optionToJson, Json.optional])
  | select key value =>
    rcases List.mem_cons.mp h with rfl | h
    · exact Json.depth_lt_of_mem_fields "attribute" (by simp)
    · obtain rfl := Option.mem_toList.mp h
      exact Json.depth_lt_of_mem_fields "value" (by simp [optionToJson, Json.optional])
  | sort key reverse =>
    obtain rfl := Option.mem_toList.mp h
    exact Json.depth_lt_of_mem_fields "attribute" (by simp [optionToJson, Json.optional])

/-- An argument is nested less deeply than the pipeline of its step. -/
theorem depth_lt_toJson (chain : List Part) {steps : List (Step Expr)} {s : Step Expr} {e : Expr}
    (hs : s ∈ steps) (he : e ∈ s.args) : e.toJson.depth < (toJson ⟨chain, steps⟩).depth := by
  have hstep : stepToJson s ∈ stepsToJson steps := by
    rw [stepsToJson_eq_map]
    exact List.mem_map_of_mem hs
  calc e.toJson.depth < (stepToJson s).depth := depth_lt_stepToJson he
    _ < (Json.arr (stepsToJson steps)).depth := Json.depth_lt_of_mem_items hstep
    _ < (toJson ⟨chain, steps⟩).depth := Json.depth_lt_of_mem_fields "filters" (by simp)

/-- An expression is decoded at any depth that its encoding does not exceed. -/
theorem ofJsonDepth?_toJson {depth : Nat} {e : Expr} (h : e.toJson.depth ≤ depth)
    (position : Json.Position) : ofJsonDepth? depth position e.toJson = some e := by
  induction depth generalizing e position with
  | zero => exact absurd (Json.depth_pos e.toJson) (by omega)
  | succ depth ih =>
    obtain ⟨chain, steps⟩ := e
    have hchain : Json.list? (Part.ofJson? position) (.arr (chain.map Part.toJson)) = some chain :=
      Json.list?_map fun part _ => Part.ofJson?_toJson position part
    have hsteps : Json.list? (Step.ofJsonWith? (ofJsonDepth? depth .inside) position)
        (.arr (stepsToJson steps)) = some steps := by
      rw [stepsToJson_eq_map]
      refine Json.list?_map fun s hs => ofJsonWith?_stepToJson (fun e he => ih ?_ .inside) position
      have := depth_lt_toJson chain hs he
      omega
    simp [ofJsonDepth?, toJson, Json.get?, List.lookup_cons, hchain, hsteps]

theorem ofJson?_toJson (position : Json.Position) (e : Expr) :
    ofJson? position e.toJson = some e :=
  ofJsonDepth?_toJson Nat.le.refl position

/-- An optional expression is decoded from a field that is null when it is absent. -/
theorem option?_of_nullable (e : Option Expr) (name : String) (fields : List (String × Json))
    (hfield : fields.lookup name = some (nullableToJson e)) :
    Json.option? (ofJson? .inside) name (.obj fields) = some e := by
  cases e with
  | none => rw [Json.option?, Json.get?, hfield, nullableToJson]
  | some e =>
    exact Json.option?_of_lookup toJson_ne_null (fun e _ => ofJson?_toJson .inside e) _ _ hfield

end Expr

/-! ### Markers -/

namespace Trim

@[simp] theorem lookup_optionalField (key name : String) (t : Trim) :
    (t.optionalField name).lookup key =
      if key == name then (if t.isUnset then none else some (.obj t.fields)) else none := by
  by_cases ht : t.isUnset <;> by_cases hkey : key == name <;>
    simp [optionalField, List.lookup_cons, ht, hkey]

@[simp] theorem lookup_fields (key : String) (t : Trim) :
    t.fields.lookup key =
      if key == "trim_left" then some (.bool t.left)
      else if key == "trim_right" then some (.bool t.right) else none := by
  by_cases hl : key == "trim_left" <;> by_cases hr : key == "trim_right" <;>
    simp [fields, List.lookup_cons, hl, hr]

theorem ofFields?_of_lookup (t : Trim) (fields : List (String × Json))
    (hleft : fields.lookup "trim_left" = some (.bool t.left))
    (hright : fields.lookup "trim_right" = some (.bool t.right)) :
    ofFields? (.obj fields) = some t := by
  simp [ofFields?, Json.flag?, Json.get?, hleft, hright]

/-- Markers in a field of their own are decoded, also when they are unset and left out. -/
theorem ofField?_of_lookup (t : Trim) (name : String) (fields : List (String × Json))
    (h : fields.lookup name = if t.isUnset then none else some (.obj t.fields)) :
    ofField? name (.obj fields) = some t := by
  rw [ofField?, Json.get?, h]
  by_cases ht : t.isUnset
  · rw [if_pos ht, eq_unset_of_isUnset ht]
  · rw [if_neg ht]
    exact ofFields?_of_lookup t t.fields rfl rfl

end Trim

/-! ### Nodes -/

theorem Variant.ofJson?_keyword (v : Variant) : Variant.ofJson? (.str v.keyword) = some v := by
  cases v <;> rfl

namespace Node

theorem listToJson_eq_map (ns : List Node) : listToJson ns = ns.map toJson := by
  induction ns with
  | nil => rfl
  | cons n ns ih => rw [listToJson, ih, List.map_cons]

theorem branchesToJson_eq_map (bs : List (Branch (List Node))) :
    branchesToJson bs = bs.map branchToJson := by
  induction bs with
  | nil => rfl
  | cons b bs ih => rw [branchesToJson, ih, List.map_cons]

theorem optionToJson_eq_map (ns : Option (List Node)) :
    optionToJson ns = ns.map fun ns => .arr (listToJson ns) := by
  cases ns <;> rfl

section

variable {node : Json → Option Node} {depth : Nat}
  (h : ∀ n : Node, n.toJson.depth < depth → node n.toJson = some n)

include h

theorem list?_listToJson {ns : List Node} (hd : (Json.arr (listToJson ns)).depth ≤ depth) :
    Json.list? node (.arr (listToJson ns)) = some ns := by
  rw [listToJson_eq_map] at hd ⊢
  refine Json.list?_map fun n hn => h n ?_
  have := Json.depth_lt_of_mem_items (List.mem_map_of_mem hn : n.toJson ∈ ns.map toJson)
  omega

theorem ofJson?_branchToJson {b : Branch (List Node)} (hd : (branchToJson b).depth ≤ depth) :
    Branch.ofJson? node (branchToJson b) = some b := by
  obtain ⟨condition, body, trim⟩ := b
  have hchild : (Json.arr (listToJson body)).depth < (branchToJson ⟨condition, body, trim⟩).depth :=
    Json.depth_lt_of_mem_fields "children" (by simp)
  have hbody := list?_listToJson h (Nat.le_of_lt (Nat.lt_of_lt_of_le hchild hd))
  simp [branchToJson, Branch.ofJson?, Json.get?, List.lookup_cons, hbody,
    Expr.option?_of_nullable condition, Trim.ofField?_of_lookup trim]

theorem list?_branchesToJson {bs : List (Branch (List Node))}
    (hd : (Json.arr (branchesToJson bs)).depth ≤ depth) :
    Json.list? (Branch.ofJson? node) (.arr (branchesToJson bs)) = some bs := by
  rw [branchesToJson_eq_map] at hd ⊢
  refine Json.list?_map fun b hb => ofJson?_branchToJson h ?_
  have := Json.depth_lt_of_mem_items (List.mem_map_of_mem hb : branchToJson b ∈ bs.map branchToJson)
  omega

/-- A node is decoded when all nodes are that are nested less deeply. -/
theorem ofKind?_toJson {n : Node} (hd : n.toJson.depth ≤ depth) :
    ofKind? node n.toJson n.kind = some n := by
  -- the nodes in a field of the node are nested less deeply
  have hchildren (name : String) {ns : List Node} {fields : List (String × Json)}
      (hn : n.toJson = .obj fields) (hmem : (name, .arr (listToJson ns)) ∈ fields) :
      Json.list? node (.arr (listToJson ns)) = some ns :=
    list?_listToJson h
      (Nat.le_trans (Nat.le_of_lt (Json.depth_lt_of_mem_fields name hmem)) (hn ▸ hd))
  cases n with
  | text content =>
    simp [toJson, ofKind?, kind, Json.getStr?, Json.get?, List.lookup_cons, Json.str?]
  | output e trim =>
    simp [toJson, ofKind?, kind, Json.get?, List.lookup_cons, Expr.ofJson?_toJson,
      Trim.ofFields?_of_lookup trim]
  | conditional v branches trim endTrim =>
    have hbranches : Json.list? (Branch.ofJson? node) (.arr (branchesToJson branches)) =
        some branches := by
      refine list?_branchesToJson h (Nat.le_trans (Nat.le_of_lt ?_) hd)
      exact Json.depth_lt_of_mem_fields "branches" (by simp)
    simp [toJson, ofKind?, kind, Json.get?, List.lookup_cons, List.lookup_append,
      Variant.ofJson?_keyword,
      hbranches, Trim.ofFields?_of_lookup trim, Trim.ofField?_of_lookup endTrim]
  | loop name collection children elseChildren trim elseTrim endTrim =>
    have hbody : Json.list? node (.arr (listToJson children)) = some children :=
      hchildren "children" rfl (by simp)
    have helse : ∀ ns ∈ elseChildren, Json.list? node (.arr (listToJson ns)) = some ns := by
      rintro ns rfl
      exact hchildren "else_children" rfl (by simp [optionToJson, Json.optional])
    simp [toJson, ofKind?, kind, Json.get?, Json.getStr?, Json.str?, List.lookup_cons,
      List.lookup_append, optionToJson_eq_map, Expr.ofJson?_toJson, hbody,
      Json.option?_of_lookup (fun _ => Json.noConfusion) helse, Trim.ofFields?_of_lookup trim,
      Trim.ofField?_of_lookup elseTrim, Trim.ofField?_of_lookup endTrim]
  | assignment target e children trim endTrim =>
    have hbody : ∀ ns ∈ children, Json.list? node (.arr (listToJson ns)) = some ns := by
      rintro ns rfl
      exact hchildren "children" rfl (by simp [optionToJson, Json.optional])
    simp [toJson, ofKind?, kind, Json.get?, Json.getStr?, Json.str?, List.lookup_cons,
      List.lookup_append, optionToJson_eq_map, Expr.option?_of_nullable e,
      Json.option?_of_lookup (fun _ => Json.noConfusion) hbody, Trim.ofFields?_of_lookup trim,
      Trim.ofField?_of_lookup endTrim]
  | comment content trim endTrim | raw content trim endTrim =>
    simp [toJson, ofKind?, kind, Json.get?, Json.getStr?, Json.str?, List.lookup_cons,
      List.lookup_append, Trim.ofFields?_of_lookup trim, Trim.ofField?_of_lookup endTrim]
  | subtemplate template ignoreMissing trim =>
    simp [toJson, ofKind?, kind, Json.get?, Json.flag?, List.lookup_cons, Expr.ofJson?_toJson,
      Trim.ofFields?_of_lookup trim]
  | tag name args children trim =>
    have hbody : Json.list? node (.arr (listToJson children)) = some children :=
      hchildren "children" rfl (by simp)
    simp [toJson, ofKind?, kind, Json.get?, Json.getStr?, Json.str?, List.lookup_cons, hbody,
      Trim.ofFields?_of_lookup trim]

end

theorem tagged?_toJson (position : Json.Position) (n : Node) :
    n.toJson.tagged? position "type" kinds = some (n.kind, n.toJson) := by
  cases n <;> simp [toJson, kind]

/-- A node is decoded at any depth that its encoding does not exceed. -/
theorem ofJsonDepth?_toJson {depth : Nat} {n : Node} (h : n.toJson.depth ≤ depth)
    (position : Json.Position) : ofJsonDepth? depth position n.toJson = some n := by
  induction depth generalizing n position with
  | zero => exact absurd (Json.depth_pos n.toJson) (by omega)
  | succ depth ih =>
    rw [ofJsonDepth?, tagged?_toJson, Option.bind_some]
    exact ofKind?_toJson (fun m hm => ih (Nat.le_of_lt_succ hm) .inside) h

/-- A template is decoded from its encoding. -/
theorem listOfJson?_listToJson (nodes : List Node) :
    listOfJson? (.arr (listToJson nodes)) = some nodes := by
  rw [listToJson_eq_map]
  exact Json.list?_map fun n _ => ofJsonDepth?_toJson Nat.le.refl .outside

end Node

end Stencil

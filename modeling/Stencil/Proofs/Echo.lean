import Stencil.Proofs.LoopObject
import Stencil.Proofs.Shape
import Stencil.Text.Blank

/-!
# What is read where a template was written

A template that is written and read again need not be the same: a language may spell it in another
way. What is read echoes what was written if it holds the same text, raw blocks and comments, and if
it refers to the loop object only where something in the body of a loop did or had the word that the
language has for that object.

Both parts are put together node by node, along the blocks of the template, whatever the language.
-/

namespace Stencil

/-! ### Contents -/

/-- What a template holds besides its markup, in the order in which it stands there. -/
@[ext] structure Contents where
  /-- The text outside all markup, in one piece. -/
  text : List Char
  /-- The bodies of the raw blocks. -/
  raws : List String
  /-- The comments, without the blanks around them. -/
  comments : List (List Char)
deriving DecidableEq

namespace Contents

/-- Nothing. -/
def nil : Contents :=
  ⟨[], [], []⟩

/-- Text only. -/
def ofText (s : List Char) : Contents :=
  ⟨s, [], []⟩

instance : Append Contents where
  append a b := ⟨a.text ++ b.text, a.raws ++ b.raws, a.comments ++ b.comments⟩

variable (a b c : Contents)

theorem append_def : a ++ b = ⟨a.text ++ b.text, a.raws ++ b.raws, a.comments ++ b.comments⟩ :=
  rfl

@[simp] theorem nil_append : nil ++ a = a := by
  simp [append_def, nil]

@[simp] theorem append_nil : a ++ nil = a := by
  simp [append_def, nil]

@[simp] theorem append_assoc : a ++ b ++ c = a ++ (b ++ c) := by
  simp [append_def]

@[simp] theorem ofText_nil : ofText [] = nil :=
  rfl

theorem ofText_append (s t : List Char) : ofText (s ++ t) = ofText s ++ ofText t := by
  simp [append_def, ofText]

end Contents

namespace Node

/-- What a node holds itself. -/
def content : Node → Contents
  | .text content => .ofText content.toList
  | .raw content _ _ => ⟨[], [content], []⟩
  | .comment content _ _ => ⟨[], [], [Text.trim content.toList]⟩
  | .output .. | .conditional .. | .loop .. | .assignment .. | .subtemplate .. | .tag .. => .nil

/-- What the nodes of a list hold themselves. -/
def collect : List Node → Contents
  | [] => .nil
  | n :: ns => n.content ++ collect ns

/-- The text, raw blocks and comments of a template. -/
def contents (nodes : List Node) : Contents :=
  collect (nested nodes)

/-- The text, raw blocks and comments of a node and all nodes inside it. -/
def whole (n : Node) : Contents :=
  n.content ++ collect (inner n)

theorem collect_append (ns ms : List Node) : collect (ns ++ ms) = collect ns ++ collect ms := by
  induction ns with
  | nil => simp [collect]
  | cons n ns ih => simp [collect, ih]

@[simp] theorem contents_nil : contents [] = .nil := by
  simp [contents, nested, collect]

@[simp] theorem contents_cons (n : Node) (ns : List Node) :
    contents (n :: ns) = n.whole ++ contents ns := by
  simp [contents, nested, whole, collect, collect_append]

theorem contents_append (ns ms : List Node) : contents (ns ++ ms) = contents ns ++ contents ms := by
  induction ns with
  | nil => simp
  | cons n ns ih => simp [ih]

/-- The text, raw blocks and comments of the branches of a conditional. -/
def armContents (arms : List (Branch (List Node))) : Contents :=
  collect (nestedBranches arms)

@[simp] theorem armContents_nil : armContents [] = .nil := by
  simp [armContents, nestedBranches, collect]

@[simp] theorem armContents_cons (b : Branch (List Node)) (bs : List (Branch (List Node))) :
    armContents (b :: bs) = contents b.body ++ armContents bs := by
  simp [armContents, nestedBranches, contents, collect_append]

/-- Only the bodies of branches hold something. -/
theorem armContents_congr {bs cs : List (Branch (List Node))}
    (h : bs.map (·.body) = cs.map (·.body)) : armContents bs = armContents cs := by
  induction bs generalizing cs with
  | nil =>
    obtain rfl := List.map_eq_nil_iff.mp h.symm
    rfl
  | cons b bs ih =>
    obtain ⟨c, cs, rfl, hc, hcs⟩ := List.map_eq_cons_iff.mp h.symm
    rw [armContents_cons, armContents_cons, hc, ih hcs.symm]

variable (trim elseTrim endTrim : Trim)

@[simp] theorem whole_conditional (kind : Variant) (bs : List (Branch (List Node))) :
    whole (.conditional kind bs trim endTrim) = armContents bs := by
  simp [whole, content, inner, armContents]

@[simp] theorem whole_loop (x : String) (e : Expr) (body : List Node)
    (otherwise : Option (List Node)) :
    whole (.loop x e body otherwise trim elseTrim endTrim) =
      contents body ++ armContents (otherwise.toList.map fun nodes => ⟨none, nodes, elseTrim⟩) := by
  simp [whole, content, inner, armContents, contents, nestedBranches_otherwise, collect_append]

@[simp] theorem whole_capture (x : String) (e : Option Expr) (body : List Node) :
    whole (.assignment x e (some body) trim endTrim) = contents body := by
  simp [whole, content, inner, nestedOption, contents]

end Node

/-! ### Echoes -/

/-- The arms of a conditional that stands in a scope do not refer to the loop object. -/
def LoopFreeArms (scope : Scope) (arms : List (Branch (List Node))) : Prop :=
  ∀ b ∈ arms, (∀ e ∈ b.condition, e.LoopFree) ∧ ∀ n ∈ b.body, n.LoopFree scope

section Echo

variable (w : List Char) (scope : Scope)

/-- The arms of a conditional that stands in a scope, as far as they stand in the body of a loop,
neither refer to the loop object nor have the word. -/
def SparingArms (arms : List (Branch (List Node))) : Prop :=
  ∀ b ∈ arms, (scope.inLoop → ∀ e ∈ b.condition, e.Spares w) ∧
    ∀ n ∈ b.body, n.InLoops (Node.Spares w) scope

/-- The node `n'` echoes the node `n` that was written in a scope: it holds the same, and it does
not refer to the loop object if nothing in the bodies of loops did or had the word. -/
structure EchoesNode (n n' : Node) : Prop where
  contents : n'.whole = n.whole
  loopFree : n.InLoops (Node.Spares w) scope → n'.LoopFree scope

/-- The nodes `nodes'` echo the nodes that were written in a scope, after the text `s`. -/
structure Echoes (s : List Char) (nodes nodes' : List Node) : Prop where
  contents : Node.contents nodes' = .ofText s ++ Node.contents nodes
  loopFree : (∀ n ∈ nodes, n.InLoops (Node.Spares w) scope) → ∀ n ∈ nodes', n.LoopFree scope

/-- The arms `arms'` echo the arms that were written in a scope. -/
structure EchoesArms (arms arms' : List (Branch (List Node))) : Prop where
  contents : Node.armContents arms' = Node.armContents arms
  loopFree : SparingArms w scope arms → LoopFreeArms scope arms'

end Echo

variable {w : List Char} {scope : Scope} {s : List Char} {n n' : Node}
  {nodes nodes' body body' : List Node} {arms arms' : List (Branch (List Node))}
  {trim elseTrim endTrim trim' elseTrim' endTrim' : Trim}

theorem Echoes.nil : Echoes w scope [] [] [] :=
  ⟨by simp, by simp⟩

theorem EchoesNode.cons (hn : EchoesNode w scope n n') (h : Echoes w scope [] nodes nodes') :
    Echoes w scope [] (n :: nodes) (n' :: nodes') := by
  refine ⟨by simp [hn.contents, h.contents], fun hA => ?_⟩
  rw [List.forall_mem_cons] at hA ⊢
  exact ⟨hn.loopFree hA.1, h.loopFree hA.2⟩

/-- A text is part of what comes before the rest. -/
theorem Echoes.text {content : String} (h : Echoes w scope (s ++ content.toList) nodes nodes') :
    Echoes w scope s (.text content :: nodes) nodes' := by
  refine ⟨?_, fun hA => h.loopFree (List.forall_mem_cons.mp hA).2⟩
  rw [h.contents, Contents.ofText_append]
  simp [Node.whole, Node.content, Node.inner, Node.collect]

/-- The text before the rest is read as one. -/
theorem Echoes.cons_text (h : Echoes w scope [] nodes nodes') :
    Echoes w scope s nodes (.text (String.ofList s) :: nodes') := by
  refine ⟨?_, fun hA => ?_⟩
  · simp [h.contents, Node.whole, Node.content, Node.inner, Node.collect]
  · rw [List.forall_mem_cons]
    exact ⟨.leaf (by simp [Node.exprs]) rfl, h.loopFree hA⟩

/-- A node without nodes inside it. -/
theorem EchoesNode.leaf (hw : n'.whole = n.whole) (hp : n'.parts scope = [])
    (he : (scope.inLoop → n.Spares w) → ∀ e ∈ n'.exprs, e.LoopFree) : EchoesNode w scope n n' :=
  ⟨hw, fun hA => .leaf (he hA.self) hp⟩

theorem EchoesArms.nil : EchoesArms w scope [] [] :=
  ⟨by simp, fun _ _ hb => absurd hb List.not_mem_nil⟩

theorem EchoesArms.cons {condition condition' : Option Expr}
    (hc : (scope.inLoop → ∀ e ∈ condition, e.Spares w) → ∀ e ∈ condition', e.LoopFree)
    (hb : Echoes w scope [] body body') (h : EchoesArms w scope arms arms') :
    EchoesArms w scope (⟨condition, body, trim⟩ :: arms) (⟨condition', body', trim'⟩ :: arms') := by
  refine ⟨by simp [hb.contents, h.contents], fun hA => ?_⟩
  obtain ⟨⟨hcondition, hbody⟩, harms⟩ := List.forall_mem_cons.mp hA
  exact List.forall_mem_cons.mpr ⟨⟨hc hcondition, hb.loopFree hbody⟩, h.loopFree harms⟩

/-- A conditional echoes whatever holds the same as its arms and makes their conditions safe. -/
theorem EchoesArms.conditional {kind : Variant} (h : EchoesArms w scope arms arms')
    (hw : n.whole = Node.armContents arms)
    (hA : n.InLoops (Node.Spares w) scope → SparingArms w scope arms) :
    EchoesNode w scope n (.conditional kind arms' trim' endTrim') := by
  refine ⟨by simp [h.contents, hw], fun hn => ?_⟩
  have hfree := h.loopFree (hA hn)
  refine .conditional (fun e he => ?_) fun b hb => (hfree b hb).2
  obtain ⟨b, hb, he⟩ := List.mem_filterMap.mp he
  exact (hfree b hb).1 e he

theorem sparingArms_of_conditional {kind : Variant}
    (h : (Node.conditional kind arms trim endTrim).InLoops (Node.Spares w) scope) :
    SparingArms w scope arms := by
  intro b hb
  refine ⟨fun hin e he => (h.self hin).exprs e (List.mem_filterMap.mpr ⟨b, hb, he⟩), fun n hn => ?_⟩
  exact h.inside (scope, n) (List.mem_flatMap.mpr ⟨b, hb, List.mem_map.mpr ⟨n, hn, rfl⟩⟩)

/-- A loop echoes a loop: its body has a scope of its own. -/
theorem EchoesNode.loop {x x' : String} {e e' : Expr} {otherwise : Option (List Node)}
    {alternative : Option (List Node × Trim)}
    (he : (scope.inLoop → (Node.loop x e body otherwise trim elseTrim endTrim).Spares w) →
      e'.LoopFree)
    (hb : Echoes w .loopBody [] body body')
    (ho : EchoesArms w scope (otherwise.toList.map fun nodes => ⟨none, nodes, elseTrim⟩)
      (Branch.ofAlternative alternative)) :
    EchoesNode w scope (.loop x e body otherwise trim elseTrim endTrim)
      (.loop x' e' body' (alternative.map (·.1)) trim' elseTrim' endTrim') := by
  have hcontents : Node.armContents ((alternative.map (·.1)).toList.map
      fun nodes => ⟨none, nodes, elseTrim'⟩) =
        Node.armContents (Branch.ofAlternative alternative) := by
    cases alternative <;> simp [Branch.ofAlternative]
  refine ⟨by simp only [Node.whole_loop, hb.contents, hcontents, ho.contents, Contents.ofText_nil,
    Contents.nil_append], fun hA => ?_⟩
  have hinside := hA.inside
  rw [Node.parts, List.forall_mem_append, List.forall_mem_map, List.forall_mem_map] at hinside
  refine .loop ?_ (hb.loopFree hinside.1) fun ns hns => ?_
  · simpa [Node.exprs] using he hA.self
  · obtain ⟨p, rfl, rfl⟩ := Option.map_eq_some_iff.mp hns
    refine (ho.loopFree ?_ ⟨none, p.1, p.2⟩ (by simp [Branch.ofAlternative])).2
    intro b hb
    obtain ⟨nodes, hnodes, rfl⟩ := List.mem_map.mp hb
    obtain rfl := Option.mem_toList.mp hnodes
    exact ⟨fun _ _ he => absurd he (by simp), hinside.2⟩

/-- A capture echoes a capture. -/
theorem EchoesNode.capture {x x' : String} (hb : Echoes w scope [] body body') :
    EchoesNode w scope (.assignment x none (some body) trim endTrim)
      (.assignment x' none (some body') trim' endTrim') := by
  refine ⟨by simp [hb.contents], fun hA => .capture (by simp [Node.exprs]) (hb.loopFree ?_)⟩
  have hinside := hA.inside
  rwa [Node.parts, Option.getD_some, List.forall_mem_map] at hinside

end Stencil

import Stencil.Node.Equality
import Stencil.Nunjucks.Reader
import Stencil.Proofs.Nunjucks.Items

/-!
# Markers of a Nunjucks template

A tree keeps no markers, only the offset of the first token of every output and tag, and the markers
of a template are searched for from there. What is found belongs to the right delimiters, in the
right order: the outputs and tags of a source, written out one after the other, are those of the
template that is read from it. Only an alternative without markers can be missing, because a
conditional leaves out an alternative that does nothing.

The marker on the left is always the one of the opening delimiter. The marker on the right is the
one of the first closing delimiter that is spelled out from the first token on, which is the one
that ends the output or tag unless a string before it spells out another one.

## Main definitions

* `Slot` : an output or a tag with its markers.
* `Node.slots` : the outputs and tags of a template, in order.
* `Nunjucks.Item.slots` : the same for an item of a tree, with the markers that are found.
* `Nunjucks.sourceSlots` : the same for a source, given how the right markers are told.

## Main results

* `Nunjucks.Element.kept_toNodes` : a template has the outputs and tags of its tree.
* `Nunjucks.kept_of_read` : a template has those of its source, with their markers.
* `Nunjucks.read_recovers_markers` : markers are recovered, and the right ones are those of their
  own delimiters unless a string spells out a delimiter.
-/

namespace Stencil

/-! ### Outputs and tags -/

/-- An output or a tag with its markers. -/
structure Slot where
  /-- The word of a tag. -/
  word : Option String
  /-- The markers. -/
  trim : Trim
deriving DecidableEq, Repr

/-- An alternative without markers. -/
def Slot.isIdle (s : Slot) : Bool :=
  s.word == some "else" && s.trim.isUnset

/-- All but the alternatives without markers. -/
def Slot.kept (ss : List Slot) : List Slot :=
  ss.filter fun s => !s.isIdle

theorem Slot.kept_append (ss ss' : List Slot) :
    Slot.kept (ss ++ ss') = Slot.kept ss ++ Slot.kept ss' :=
  List.filter_append ss ss'

theorem Slot.kept_cons_congr (s : Slot) {ss ss' : List Slot} (h : Slot.kept ss = Slot.kept ss') :
    Slot.kept (s :: ss) = Slot.kept (s :: ss') := by
  have happend : ∀ ss, Slot.kept (s :: ss) = Slot.kept [s] ++ Slot.kept ss :=
    fun ss => Slot.kept_append [s] ss
  rw [happend ss, happend ss', h]

namespace Node

mutual

/-- The outputs and tags of a node, in order. Comments and raw blocks are not among them. -/
def slots : Node → List Slot
  | .text _ | .comment .. | .raw .. => []
  | .output _ trim => [⟨none, trim⟩]
  | .conditional _ [] trim endTrim => [⟨some "if", trim⟩, ⟨some "endif", endTrim⟩]
  | .conditional _ (⟨_, body, _⟩ :: arms) trim endTrim =>
    ⟨some "if", trim⟩ :: (allSlots body ++ (armSlots arms ++ [⟨some "endif", endTrim⟩]))
  | .loop _ _ children none trim _ endTrim =>
    ⟨some "for", trim⟩ :: (allSlots children ++ [⟨some "endfor", endTrim⟩])
  | .loop _ _ children (some otherwise) trim elseTrim endTrim =>
    ⟨some "for", trim⟩ ::
      (allSlots children ++ ⟨some "else", elseTrim⟩ ::
        (allSlots otherwise ++ [⟨some "endfor", endTrim⟩]))
  | .assignment _ _ none trim _ => [⟨some "set", trim⟩]
  | .assignment _ _ (some children) trim endTrim =>
    ⟨some "set", trim⟩ :: (allSlots children ++ [⟨some "endset", endTrim⟩])
  | .subtemplate _ _ trim => [⟨some "include", trim⟩]
  | .tag name _ children trim => ⟨some name, trim⟩ :: allSlots children

/-- The outputs and tags of a list of nodes. -/
def allSlots : List Node → List Slot
  | [] => []
  | n :: ns => slots n ++ allSlots ns

/-- The outputs and tags of the arms of a conditional after the first one. -/
def armSlots : List (Branch (List Node)) → List Slot
  | [] => []
  | ⟨condition, body, trim⟩ :: arms =>
    ⟨some (if condition.isSome then "elif" else "else"), trim⟩ :: (allSlots body ++ armSlots arms)

end

theorem armSlots_append (arms arms' : List (Branch (List Node))) :
    armSlots (arms ++ arms') = armSlots arms ++ armSlots arms' := by
  induction arms with
  | nil => rfl
  | cons arm arms ih => simp [armSlots, ih]

theorem armSlots_ofAlternative (body : List Node) (trim : Trim) :
    armSlots (Branch.ofAlternative (some (body, trim))) = ⟨some "else", trim⟩ :: allSlots body := by
  simp [Branch.ofAlternative, armSlots]

end Node

namespace Nunjucks

/-! ### Trees -/

/-- An output or a tag whose first token has a given offset, with the markers that are found. -/
def Lifted.slot (l : Lifted) (word : Option String) (pos : Nat) : Slot :=
  ⟨word, l.markers pos⟩

/-- The outputs and tags of an item, with the markers that are found. An output that stands for a
lifted comment is not among them. -/
def Item.slots (l : Lifted) : Item → List Slot
  | .data _ => []
  | .output pos value => if (l.termComment? value).isSome then [] else [l.slot none pos]
  | .tag word pos _ _ => [l.slot word pos]

/-- The outputs and tags of a list of items. -/
def Item.allSlots (l : Lifted) (items : List Item) : List Slot :=
  items.flatMap (Item.slots l)

theorem Item.allSlots_append (l : Lifted) (items items' : List Item) :
    Item.allSlots l (items ++ items') = Item.allSlots l items ++ Item.allSlots l items' :=
  List.flatMap_append

theorem Item.allSlots_tag (l : Lifted) (word : String) (pos : Nat) (names : List String)
    (terms : List Term) (items : List Item) :
    Item.allSlots l (.tag word pos names terms :: items) =
      l.slot word pos :: Item.allSlots l items :=
  rfl

/-! ### Templates -/

/-- Arms that do nothing have no markers. -/
theorem kept_armSlots_of_isIdleElse {arms : List (Branch (List Node))} (h : arms.all isIdleElse) :
    Slot.kept (Node.armSlots arms) = [] := by
  induction arms with
  | nil => rfl
  | cons arm arms ih =>
    obtain ⟨condition, body, trim⟩ := arm
    rw [List.all_cons, Bool.and_eq_true] at h
    obtain ⟨harm, harms⟩ := h
    simp only [isIdleElse, Bool.and_eq_true, Option.isNone_iff_eq_none, List.isEmpty_iff] at harm
    obtain ⟨⟨rfl, rfl⟩, htrim⟩ := harm
    obtain rfl := Trim.eq_unset_of_isUnset htrim
    exact ih harms

/-- A conditional that is taken for the opposite choice keeps its tags. -/
theorem kept_recogniseVariant (e : Expr) (body : List Node) (first : Trim)
    (arms : List (Branch (List Node))) (trim endTrim : Trim) :
    Slot.kept (Node.slots (.conditional (recogniseVariant (⟨some e, body, first⟩ :: arms)).1
        (recogniseVariant (⟨some e, body, first⟩ :: arms)).2 trim endTrim)) =
      Slot.kept (⟨some "if", trim⟩ ::
        (Node.allSlots body ++ (Node.armSlots arms ++ [⟨some "endif", endTrim⟩]))) := by
  rw [recogniseVariant]
  split
  · next h =>
    rw [Bool.and_eq_true, Bool.and_eq_true] at h
    rw [Node.slots]
    refine Slot.kept_cons_congr _ ?_
    rw [Slot.kept_append, Slot.kept_append, Slot.kept_append, Slot.kept_append,
      kept_armSlots_of_isIdleElse h.1.1]
    rfl
  · rw [Node.slots]

mutual

theorem Element.kept_toNode (l : Lifted) {scope : Scope} {n : Node} :
    (e : Element) → e.toNode l scope = .ok n →
      Slot.kept n.slots = Slot.kept (Item.allSlots l e.items)
  | .data text, h => by
    rw [Element.toNode] at h
    obtain rfl := Except.ok.inj h
    rw [Element.items, Lifted.dataNode]
    split <;> rfl
  | .output pos value, h => by
    rw [Element.toNode, Lifted.outputNode] at h
    rw [Element.items, Item.allSlots, List.flatMap_singleton, Item.slots]
    split at h
    · next hc =>
      obtain rfl := Except.ok.inj h
      rw [hc]
      rfl
    · next hc =>
      obtain ⟨e, -, rfl⟩ := map_eq_ok.mp h
      rw [hc]
      rfl
  | .conditional ⟨pos, condition, body⟩ rest otherwise endPos, h => by
    rw [Element.toNode] at h
    obtain ⟨e, -, h⟩ := bind_eq_ok.mp h
    obtain ⟨nodes, hnodes, h⟩ := bind_eq_ok.mp h
    obtain ⟨arms, harms, h⟩ := bind_eq_ok.mp h
    obtain ⟨alternative, halternative, rfl⟩ := bind_pure_eq_ok.mp h
    refine (kept_recogniseVariant e nodes .unset (arms ++ Branch.ofAlternative alternative)
      _ _).trans ?_
    rw [Element.items, Item.allSlots_tag]
    refine Slot.kept_cons_congr _ ?_
    simp only [Item.allSlots_append, Slot.kept_append, Node.armSlots_append,
      Element.kept_toNodes l body hnodes, Element.kept_clauseArms l rest harms,
      Element.kept_toAlternative l otherwise halternative, List.append_assoc]
    rfl
  | .loop pos names collection body otherwise endPos, h => by
    rw [Element.toNode] at h
    obtain ⟨e, -, h⟩ := bind_eq_ok.mp h
    obtain ⟨children, hchildren, h⟩ := bind_eq_ok.mp h
    obtain ⟨alternative, halternative, rfl⟩ := bind_pure_eq_ok.mp h
    have hbody := Element.kept_toNodes l body hchildren
    have hotherwise := Element.kept_toAlternative l otherwise halternative
    rw [Element.items, Item.allSlots_tag]
    cases alternative with
    | none =>
      refine Slot.kept_cons_congr _ ?_
      simp only [Item.allSlots_append, Slot.kept_append, hbody, ← hotherwise]
      rfl
    | some alternative =>
      refine Slot.kept_cons_congr _ ?_
      rw [Node.armSlots_ofAlternative] at hotherwise
      simp only [Item.allSlots_append, Slot.kept_append, hbody, ← hotherwise, ← List.cons_append]
      rfl
  | .assign pos targets value, h => by
    rw [Element.toNode] at h
    obtain ⟨e, -, rfl⟩ := bind_pure_eq_ok.mp h
    simp [Node.slots, Element.items, Item.allSlots, Item.slots, Lifted.slot]
  | .capture pos targets body endPos, h => by
    rw [Element.toNode] at h
    obtain ⟨children, hchildren, rfl⟩ := bind_pure_eq_ok.mp h
    rw [Element.items, Item.allSlots_tag, Node.slots]
    refine Slot.kept_cons_congr _ ?_
    rw [Item.allSlots_append, Slot.kept_append, Slot.kept_append,
      Element.kept_toNodes l body hchildren]
    rfl
  | .subtemplate pos template ignoreMissing, h => by
    rw [Element.toNode] at h
    obtain ⟨e, -, rfl⟩ := bind_pure_eq_ok.mp h
    simp [Node.slots, Element.items, Item.allSlots, Item.slots, Lifted.slot]

theorem Element.kept_toNodes (l : Lifted) {scope : Scope} {nodes : List Node} :
    (es : List Element) → Element.toNodes l scope es = .ok nodes →
      Slot.kept (Node.allSlots nodes) = Slot.kept (Item.allSlots l (Element.allItems es))
  | [], h => by
    rw [Element.toNodes] at h
    obtain rfl := Except.ok.inj h
    simp [Node.allSlots, Element.allItems, Item.allSlots]
  | e :: es, h => by
    rw [Element.toNodes] at h
    obtain ⟨node, hnode, h⟩ := bind_eq_ok.mp h
    obtain ⟨more, hmore, rfl⟩ := bind_pure_eq_ok.mp h
    rw [Node.allSlots, Element.allItems, Item.allSlots_append, Slot.kept_append, Slot.kept_append,
      Element.kept_toNode l e hnode, Element.kept_toNodes l es hmore]

theorem Element.kept_clauseArms (l : Lifted) {scope : Scope} {arms : List (Branch (List Node))} :
    (clauses : List (Clause Element)) → Element.clauseArms l scope clauses = .ok arms →
      Slot.kept (Node.armSlots arms) = Slot.kept (Item.allSlots l (Element.clauseItems clauses))
  | [], h => by
    rw [Element.clauseArms] at h
    obtain rfl := Except.ok.inj h
    simp [Node.armSlots, Element.clauseItems, Item.allSlots]
  | ⟨pos, condition, body⟩ :: clauses, h => by
    rw [Element.clauseArms] at h
    obtain ⟨e, -, h⟩ := bind_eq_ok.mp h
    obtain ⟨nodes, hnodes, h⟩ := bind_eq_ok.mp h
    obtain ⟨more, hmore, rfl⟩ := bind_pure_eq_ok.mp h
    rw [Node.armSlots, Element.clauseItems, Item.allSlots_tag]
    refine Slot.kept_cons_congr _ ?_
    rw [Item.allSlots_append, Slot.kept_append, Slot.kept_append,
      Element.kept_toNodes l body hnodes, Element.kept_clauseArms l clauses hmore]

theorem Element.kept_toAlternative (l : Lifted) {scope : Scope}
    {result : Option (List Node × Trim)} : (alternative : Option (Alternative Element)) →
      Element.toAlternative l scope alternative = .ok result →
        Slot.kept (Node.armSlots (Branch.ofAlternative result)) =
          Slot.kept (Item.allSlots l (Element.alternativeItems alternative))
  | none, h => by
    rw [Element.toAlternative] at h
    obtain rfl := Except.ok.inj h
    simp [Branch.ofAlternative, Node.armSlots, Element.alternativeItems, Item.allSlots]
  | some ⟨pos, body⟩, h => by
    rw [Element.toAlternative] at h
    obtain ⟨nodes, hnodes, rfl⟩ := bind_pure_eq_ok.mp h
    rw [Element.alternativeItems, Item.allSlots_tag, Node.armSlots_ofAlternative]
    exact Slot.kept_cons_congr _ (Element.kept_toNodes l body hnodes)

end

/-! ### Sources -/

/-- The output stands for a lifted comment. -/
def Lifted.isPlaceholder (l : Lifted) (inside : Inside) : Bool :=
  match readOutputTerm inside with
  | .ok value => (l.termComment? value).isSome
  | .error _ => false

/-- The word of a tag with given tokens. -/
def Inside.word (inside : Inside) : Option String :=
  inside.tokens.head?.map fun t => tagWord t.text

/-- The outputs and tags of a chunk and the source that it is read from, given how the right marker
is told. -/
def markedSlots (l : Lifted) (right : Inside → Bool) : Piece × Chunk → List Slot
  | (p, .output inside) =>
    if l.isPlaceholder inside then [] else [⟨none, ⟨isMarkedOpen p.text, right inside⟩⟩]
  | (p, .tag inside) => [⟨inside.word, ⟨isMarkedOpen p.text, right inside⟩⟩]
  | (_, .data _) | (_, .fault _) => []

/-- The outputs and tags of a source without comments, given how the right markers are told. -/
def sourceSlots (right : Inside → Bool) (source : String) : List Slot :=
  (sitedChunks ⟨0, (liftComments source.toList).source⟩).flatMap
    (markedSlots (liftComments source.toList) right)

/-- An item has the outputs and tags of its chunk, if the markers are found there. -/
theorem Item.Of.slots_eq {l : Lifted} {c : Piece × Chunk} {item : Item} (h : Item.Of c.2 item)
    (hmarkers : ∀ inside, c.2.inside? = some inside →
      l.markers inside.start = ⟨isMarkedOpen c.1.text, inside.seemsMarked⟩) :
    item.slots l = markedSlots l Inside.seemsMarked c := by
  obtain ⟨p, chunk⟩ := c
  cases h with
  | data text => rfl
  | output h =>
    simp [Item.slots, markedSlots, Lifted.isPlaceholder, h, Lifted.slot, hmarkers _ rfl]
  | @tag inside name ts item hname h =>
    obtain ⟨-, -, -⟩ := h
    have hstart : name.start = inside.start := by rw [Inside.start, hname]
    simp [Item.slots, markedSlots, Lifted.slot, hstart, hmarkers _ rfl, Inside.word, hname]

/-- Lists that are written out alike, entry by entry. -/
theorem flatMap_eq_of_forall₂ {α β ω : Type} {R : α → β → Prop} {f : β → List ω} {g : α → List ω}
    {as : List α} {bs : List β} (h : List.Forall₂ R as bs)
    (hfg : ∀ a ∈ as, ∀ b, R a b → f b = g a) : bs.flatMap f = as.flatMap g := by
  induction h with
  | nil => rfl
  | cons hab _ ih =>
    rw [List.forall_mem_cons] at hfg
    rw [List.flatMap_cons, List.flatMap_cons, hfg.1 _ hab, ih hfg.2]

/-- A template has the outputs and tags of its source, with the markers that are found from their
first tokens. -/
theorem kept_of_read {source : String} {nodes : List Node} (h : read source = .ok nodes) :
    Slot.kept (Node.allSlots nodes) = Slot.kept (sourceSlots Inside.seemsMarked source) := by
  obtain ⟨es, hes, hnodes⟩ := bind_eq_ok.mp h
  have hitems := forall₂_of_parse hes
  rw [← map_snd_sitedChunks, List.forall₂_map_left_iff] at hitems
  rw [Element.kept_toNodes _ es hnodes, sourceSlots]
  refine congrArg Slot.kept (flatMap_eq_of_forall₂ hitems fun c hc item hitem =>
    hitem.slots_eq fun inside hi => ?_)
  exact markers_of_mem_sitedChunks hc hi (hitem.closes hi).ends

/-- Markers are recovered. The outputs and tags of a template are those of its source, in order, up
to alternatives without markers. The left marker of each is the one of its opening delimiter. The
right marker is the one of the first closing delimiter that is spelled out from its first token on,
and that is its own closing delimiter unless a string in it spells out another one. -/
theorem read_recovers_markers {source : String} {nodes : List Node} (h : read source = .ok nodes) :
    Slot.kept (Node.allSlots nodes) = Slot.kept (sourceSlots Inside.seemsMarked source) ∧
      ∀ chunk ∈ chunks ⟨0, (liftComments source.toList).source⟩, ∀ inside ∈ chunk.inside?,
        (∀ t ∈ inside.tokens, t.kind = .string → Unspelled t.text.text) →
          inside.seemsMarked = inside.isMarked :=
  ⟨kept_of_read h, fun _ hc _ hi hs => seemsMarked_of_mem_chunks hc hi hs⟩

theorem read_recovers_markers_blocks :
    let source := "\x7b%- if a -%\x7d\x7b\x7b- '\x7d' -\x7d\x7d\x7b#- c #\x7d" ++
      "\x7b% elseif b -%\x7d\x7b%- else %\x7d\x7b% for x in y -%\x7d\x7b% else %\x7d" ++
      "\x7b%-endfor%\x7d\x7b% endif %\x7d\x7b%- set z %\x7dw\x7b% endset -%\x7d" ++
      "\x7b% raw -%\x7d\x7b\x7b- q -\x7d\x7d\x7b% endraw %\x7d\x7b% include 'p' -%\x7d"
    let slots := [⟨some "if", ⟨true, true⟩⟩, ⟨none, ⟨true, true⟩⟩, ⟨some "elif", ⟨false, true⟩⟩,
      ⟨some "else", ⟨true, false⟩⟩, ⟨some "for", ⟨false, true⟩⟩, ⟨some "endfor", ⟨true, false⟩⟩,
      ⟨some "endif", ⟨false, false⟩⟩, ⟨some "set", ⟨true, false⟩⟩, ⟨some "endset", ⟨false, true⟩⟩,
      ⟨some "include", ⟨false, true⟩⟩]
    ∃ nodes, read source = .ok nodes ∧ Slot.kept (Node.allSlots nodes) = slots ∧
      ∃ chunk ∈ chunks ⟨0, (liftComments source.toList).source⟩, ∃ inside ∈ chunk.inside?,
        (∃ t ∈ inside.tokens, t.kind = .string) ∧ inside.seemsMarked = inside.isMarked := by
  intro source slots
  have hslots : (read source).isOk ∧ Slot.kept (sourceSlots Inside.seemsMarked source) = slots ∧
      ∃ chunk ∈ chunks ⟨0, (liftComments source.toList).source⟩, ∃ inside ∈ chunk.inside?,
        (∃ t ∈ inside.tokens, t.kind = .string) ∧
          ∀ t ∈ inside.tokens, t.kind = .string → Unspelled t.text.text := by
    decide +kernel
  obtain ⟨hok, hslots, chunk, hchunk, inside, hinside, hstring, hunspelled⟩ := hslots
  cases hread : read source with
  | error x =>
    rw [hread] at hok
    cases hok
  | ok nodes =>
    have h := read_recovers_markers hread
    exact ⟨nodes, rfl, h.1.trans hslots, chunk, hchunk, inside, hinside, hstring,
      h.2 chunk hchunk inside hinside hunspelled⟩

/-- A string that spells out a closing delimiter hides the one that ends the output. -/
theorem markers_of_spelling_string :
    let source := "\x7b\x7b \"-\x7d\x7d\" \x7d\x7d"
    ∃ nodes, read source = .ok nodes ∧
      Node.allSlots nodes = [⟨none, ⟨false, true⟩⟩] ∧
      sourceSlots Inside.isMarked source = [⟨none, ⟨false, false⟩⟩] := by
  refine ⟨[.output (.literal "\"-\x7d\x7d\"") ⟨false, true⟩], ?_⟩
  decide +kernel

end Nunjucks

end Stencil

import Mathlib.Data.List.Nodup
import Mathlib.Data.List.Perm.Subperm
import Stencil.Node.Equality
import Stencil.Proofs.Liquid.Fragment
import Stencil.Proofs.Liquid.Variables

/-!
# The arguments of Liquid filters

A filter has places for its arguments: an operator has a single operand, four filters have slots
that are filled by name or by place, and every other filter takes a sequence without names. The step
that a filter stands for has exactly the arguments that were written, in some order, if each of them
has a place of its own. What has no place is refused as long as it is a name where no names are
known. A second operand and all that does not fit the slots is left out without an error.

A source is accepted only if all of its values are. So every value of its tree, also deep inside its
blocks and in the fragments of its tags, is found in the template with a step for each of its
filters.

## Main results

* `FilterArgs.fill_perm_iff` : which arguments fill the slots that they are meant for.
* `Liquid.Filter.args_perm_written_iff` : the arguments of a step are those that were written
  exactly if they fit.
* `Liquid.Element.exists_holds_toNode` : every value of an element is an expression of its node.
* `Liquid.read_keeps_arguments` : the arguments of the filters of a source.
-/

namespace Stencil

open scoped List

/-! ### Slots -/

namespace FilterArgs

/-- What the slots with the given names hold, in order. -/
def fill (a : FilterArgs) (keys : List String) : List Expr :=
  keys.zipIdx.filterMap fun slot => a.get? slot.2 slot.1

theorem fill_singleton (a : FilterArgs) (key : String) : a.fill [key] = (a.get? 0 key).toList := by
  cases h : a.get? 0 key <;> simp [fill, h]

theorem fill_pair (a : FilterArgs) (first second : String) :
    a.fill [first, second] = (a.get? 0 first).toList ++ (a.get? 1 second).toList := by
  cases h : a.get? 0 first <;> cases h' : a.get? 1 second <;> simp [fill, h, h']

/-- The argument with a given name. -/
def named (a : FilterArgs) (key : String) : Option Expr :=
  a.keywords.lookup key

/-- The names of the arguments that have one. -/
def names (a : FilterArgs) : List String :=
  a.keywords.map (·.1)

/-- Each argument fills a slot of its own. -/
structure Fits (a : FilterArgs) (keys : List String) : Prop where
  nodup : a.names.Nodup
  length_le : a.positional.length ≤ keys.length
  mem_drop : ∀ key ∈ a.names, key ∈ keys.drop a.positional.length

variable {a : FilterArgs} {keys : List String}

theorem isSome_named_iff {key : String} : (a.named key).isSome ↔ key ∈ a.names := by
  rw [named, List.lookup_isSome_iff, names, List.mem_map]
  simp only [beq_iff_eq, eq_comm (a := key)]

theorem named_of_mem (h : a.names.Nodup) {entry : String × Expr} (he : entry ∈ a.keywords) :
    a.named entry.1 = some entry.2 := by
  obtain ⟨before, after, hsplit⟩ := List.append_of_mem he
  rw [names, hsplit, List.map_append, List.nodup_append] at h
  refine List.lookup_eq_some_iff.mpr ⟨before, after, hsplit, fun other hother => ?_⟩
  exact bne_iff_ne.mpr (h.2.2 _ (List.mem_map_of_mem hother) _ List.mem_cons_self).symm

theorem filterMap_named_names (h : a.names.Nodup) :
    a.names.filterMap a.named = a.keywords.map (·.2) := by
  rw [names, List.filterMap_map, ← List.filterMap_eq_map]
  exact List.filterMap_congr fun entry he => named_of_mem h he

/-- A slot that a place reaches holds something, and one that no place reaches holds what was given
by name. -/
theorem fill_eq (a : FilterArgs) (keys : List String) :
    a.fill keys = keys.zipWith (fun key e => (a.named key).getD e) a.positional ++
      (keys.drop a.positional.length).filterMap a.named := by
  -- slots are counted from `n`, where the places before have been used up
  have hfrom : ∀ n es, a.positional.drop n = es →
      (keys.zipIdx n).filterMap (fun slot => a.get? slot.2 slot.1) =
        keys.zipWith (fun key e => (a.named key).getD e) es ++
          (keys.drop es.length).filterMap a.named := by
    induction keys with
    | nil => simp
    | cons key keys ih =>
      intro n es hes
      have hnext := ih (n + 1) es.tail (by rw [← hes, List.tail_drop])
      have hplace : a.positional[n]? = es.head? := by rw [← hes, List.head?_drop]
      rw [List.zipIdx_cons, List.filterMap_cons, hnext, get?, hplace, ← named]
      cases es with
      | nil => cases hkey : a.named key <;> simp [hkey]
      | cons e es => cases hkey : a.named key <;> simp [hkey]
  exact hfrom 0 a.positional rfl

/-- The names that fill a slot beyond the places. -/
def used (a : FilterArgs) (keys : List String) : List String :=
  (keys.drop a.positional.length).filter fun key => (a.named key).isSome

theorem filterMap_named_used (a : FilterArgs) (keys : List String) :
    (a.used keys).filterMap a.named = (keys.drop a.positional.length).filterMap a.named := by
  rw [used, List.filterMap_filter]
  refine List.filterMap_congr fun key _ => ?_
  cases a.named key <;> rfl

theorem length_fill (a : FilterArgs) (keys : List String) :
    (a.fill keys).length = min keys.length a.positional.length + (a.used keys).length := by
  rw [fill_eq, List.length_append, List.length_zipWith, List.length_filterMap_eq_countP,
    List.countP_eq_length_filter, used]

/-- No two slots have the same name, so no argument fills two of them. -/
theorem used_subperm (hkeys : keys.Nodup) (a : FilterArgs) : a.used keys <+~ a.names := by
  refine List.subperm_of_subset ((hkeys.sublist (List.drop_sublist _ _)).filter _)
    fun key hkey => ?_
  exact isSome_named_iff.mp (List.mem_filter.mp hkey).2

/-- If every slot that is filled counts, the arguments fit. -/
theorem fits_of_length_fill (hkeys : keys.Nodup)
    (h : (a.fill keys).length = a.positional.length + a.keywords.length) : a.Fits keys := by
  have hused := (used_subperm hkeys a).length_le
  have hnames : a.names.length = a.keywords.length := List.length_map _
  rw [length_fill] at h
  have hperm : a.used keys ~ a.names := (used_subperm hkeys a).perm_of_length_le (by omega)
  refine ⟨hperm.nodup_iff.mp ?_, by omega, fun key hkey => ?_⟩
  · exact (hkeys.sublist (List.drop_sublist _ _)).filter _
  · exact List.mem_of_mem_filter (hperm.mem_iff.mpr hkey)

theorem Fits.used_perm (h : a.Fits keys) (hkeys : keys.Nodup) : a.used keys ~ a.names := by
  refine (List.perm_ext_iff_of_nodup ((hkeys.sublist (List.drop_sublist _ _)).filter _) h.nodup).mpr
    fun key => ?_
  rw [List.mem_filter, isSome_named_iff]
  exact and_iff_right_of_imp (h.mem_drop key)

/-- Without a name for it, a slot holds what its place gives. -/
theorem Fits.zipWith_eq (h : a.Fits keys) (hkeys : keys.Nodup) :
    keys.zipWith (fun key e => (a.named key).getD e) a.positional = a.positional := by
  have hdisjoint : ∀ key ∈ keys.take a.positional.length, a.named key = none := by
    intro key hkey
    rw [← Option.not_isSome_iff_eq_none, isSome_named_iff]
    intro hname
    rw [← List.take_append_drop a.positional.length keys, List.nodup_append] at hkeys
    exact hkeys.2.2 key hkey key (h.mem_drop key hname) rfl
  refine List.ext_getElem (by simp [h.length_le]) fun i hi hi' => ?_
  have hi'' : i < keys.length := Nat.lt_of_lt_of_le hi' h.length_le
  rw [List.getElem_zipWith, hdisjoint keys[i] (List.mem_take_iff_getElem.mpr ⟨i, by omega, rfl⟩),
    Option.getD_none]

/-- The slots hold all arguments exactly if each argument has a slot of its own. -/
theorem fill_perm_iff (hkeys : keys.Nodup) :
    a.fill keys ~ a.positional ++ a.keywords.map (·.2) ↔ a.Fits keys := by
  constructor
  · intro h
    refine fits_of_length_fill hkeys ?_
    rw [h.length_eq, List.length_append, List.length_map]
  · intro h
    rw [fill_eq, h.zipWith_eq hkeys, ← filterMap_named_used, ← filterMap_named_names h.nodup]
    exact ((h.used_perm hkeys).filterMap _).append_left _

end FilterArgs

namespace Liquid

/-! ### The places of a filter -/

/-- What a filter has places for. -/
inductive Places where
  /-- A single operand. -/
  | operand
  /-- Slots that are filled by name or by place. -/
  | slots (keys : List String)
  /-- Any number of arguments without a name. -/
  | sequence

namespace Places

/-- There is a place for every argument, given the names of those that have one and the number of
the others. -/
def Fit (names : List String) (positions : Nat) : Places → Prop
  | operand => names = [] ∧ positions ≤ 1
  | slots keys => names.Nodup ∧ positions ≤ keys.length ∧ ∀ key ∈ names, key ∈ keys.drop positions
  | sequence => names = []

/-- There is no place for some argument, and it is left out. -/
def Overflow (names : List String) (positions : Nat) : Places → Prop
  | operand => names = [] ∧ 1 < positions
  | slots keys => ¬ (slots keys).Fit names positions
  | sequence => False

instance decidableFit (names : List String) (positions : Nat) :
    (p : Places) → Decidable (p.Fit names positions)
  | operand => inferInstanceAs (Decidable (_ ∧ _))
  | slots _ => inferInstanceAs (Decidable (_ ∧ _ ∧ _))
  | sequence => inferInstanceAs (Decidable (names = []))

instance decidableOverflow (names : List String) (positions : Nat) :
    (p : Places) → Decidable (p.Overflow names positions)
  | operand => inferInstanceAs (Decidable (_ ∧ _))
  | slots keys => inferInstanceAs (Decidable (¬ (slots keys).Fit names positions))
  | sequence => inferInstanceAs (Decidable False)

/-- What a step gets from the arguments of its filter. -/
def received (args : FilterArgs) : Places → List Expr
  | operand => args.positional.take 1
  | slots keys => args.fill keys
  | sequence => args.positional

/-- Only slots can be filled by name. -/
def Known (args : FilterArgs) : Places → Prop
  | operand | sequence => args.keywords = []
  | slots keys => keys.Nodup

variable {args : FilterArgs} {p : Places}

theorem received_perm_iff (h : p.Known args) :
    p.received args ~ args.positional ++ args.keywords.map (·.2) ↔
      p.Fit args.names args.positional.length := by
  cases p with
  | operand =>
    rw [Fit, FilterArgs.names, h, List.map_nil, List.map_nil, List.append_nil,
      and_iff_right rfl, received]
    refine ⟨fun hperm => ?_, fun hle => ?_⟩
    · have hlength := hperm.length_eq
      rw [List.length_take] at hlength
      omega
    · rw [List.take_of_length_le hle]
  | slots keys =>
    rw [received, FilterArgs.fill_perm_iff h]
    exact ⟨fun h => ⟨h.nodup, h.length_le, h.mem_drop⟩, fun h => ⟨h.1, h.2.1, h.2.2⟩⟩
  | sequence =>
    simp only [Fit, FilterArgs.names, show args.keywords = [] from h, received, List.map_nil,
      List.append_nil, List.Perm.refl]

theorem fit_or_overflow (h : p.Known args) :
    p.Fit args.names args.positional.length ∨ p.Overflow args.names args.positional.length := by
  cases p with
  | operand =>
    have hnames : args.names = [] := by rw [FilterArgs.names, h, List.map_nil]
    exact (Nat.lt_or_ge 1 args.positional.length).symm.imp (⟨hnames, ·⟩) (⟨hnames, ·⟩)
  | slots keys => exact em _
  | sequence => exact .inl (by rw [Fit, FilterArgs.names, h, List.map_nil])

end Places

/-- The places of a filter. -/
def Filter.places (f : Filter) : Places :=
  match operatorOfFilter? f.name with
  | some _ => .operand
  | none =>
    match f.name with
    | "truncate" => .slots ["length", "ellipsis"]
    | "replace" => .slots ["old", "new"]
    | "where" => .slots ["attribute", "value"]
    | "sort" => .slots ["attribute"]
    | _ => .sequence

/-- The name of an argument. -/
def FilterArg.key? : FilterArg → Option String
  | positional _ => none
  | keyword key _ => some key

namespace Filter

/-- The names of the arguments of a filter. -/
def keys (f : Filter) : List String :=
  f.args.filterMap FilterArg.key?

/-- The number of arguments without a name. -/
def positions (f : Filter) : Nat :=
  f.args.countP (·.key?.isNone)

/-- Every argument of a filter has a place of its own. -/
abbrev Fits (f : Filter) : Prop :=
  f.places.Fit f.keys f.positions

/-- An argument of a filter has no place and is left out. -/
abbrev Overflows (f : Filter) : Prop :=
  f.places.Overflow f.keys f.positions

/-- The arguments of a filter as they were written. -/
def written (scope : Scope) (f : Filter) : List Expr :=
  f.operands.map (Operand.toExpr scope)

variable {scope : Scope} {f : Filter} {s : Step Expr}

theorem names_toArgs (scope : Scope) (f : Filter) : (f.toArgs scope).names = f.keys := by
  rw [FilterArgs.names, toArgs, keys, List.map_filterMap]
  refine List.filterMap_congr fun arg _ => ?_
  cases arg <;> rfl

theorem length_positional_toArgs (scope : Scope) (f : Filter) :
    (f.toArgs scope).positional.length = f.positions := by
  rw [toArgs, positions, List.length_filterMap_eq_countP]
  refine List.countP_congr fun arg _ => ?_
  cases arg <;> simp [FilterArg.key?]

theorem written_perm (scope : Scope) (f : Filter) :
    f.written scope ~ (f.toArgs scope).positional ++ (f.toArgs scope).keywords.map (·.2) := by
  obtain ⟨name, args, span⟩ := f
  induction args with
  | nil => exact .nil
  | cons arg args ih =>
    cases arg with
    | positional value => exact ih.cons _
    | keyword key value => exact (ih.cons _).trans List.perm_middle.symm

theorem places_of_not_mem_reservedFilters (h : f.name ∉ reservedFilters) :
    f.places = .sequence := by
  obtain ⟨hop, hname⟩ := not_mem_reservedFilters_iff.mp h
  simp only [List.mem_cons, List.not_mem_nil, or_false, not_or] at hname
  simp only [places, hop]
  split
  all_goals simp_all

/-- The arguments of a step are what the places of its filter receive. -/
theorem args_of_toStep (h : f.toStep scope = .ok s) :
    f.places.Known (f.toArgs scope) ∧ s.args = f.places.received (f.toArgs scope) := by
  cases toStep_eq_ok_iff.mp h with
  | operator hop ho hk =>
    have hplaces : f.places = .operand := by rw [places, hop]
    rw [FilterArgs.get?, hk, List.lookup_nil, Option.none_or, ← List.head?_eq_getElem?] at ho
    rw [hplaces, Places.received, List.take_one, ho]
    exact ⟨hk, rfl⟩
  | truncate hn hl =>
    have hplaces : f.places = .slots ["length", "ellipsis"] := by
      rw [places, hn]
      rfl
    rw [hplaces, Places.received, FilterArgs.fill_pair, hl]
    exact ⟨show List.Nodup _ by decide, rfl⟩
  | replace hn ho hw =>
    have hplaces : f.places = .slots ["old", "new"] := by
      rw [places, hn]
      rfl
    rw [hplaces, Places.received, FilterArgs.fill_pair, ho, hw]
    exact ⟨show List.Nodup _ by decide, rfl⟩
  | select hn hk =>
    have hplaces : f.places = .slots ["attribute", "value"] := by
      rw [places, hn]
      rfl
    rw [hplaces, Places.received, FilterArgs.fill_pair, hk]
    exact ⟨show List.Nodup _ by decide, rfl⟩
  | sort hn =>
    have hplaces : f.places = .slots ["attribute"] := by
      rw [places, hn]
      rfl
    rw [hplaces, Places.received, FilterArgs.fill_singleton]
    exact ⟨show List.Nodup _ by decide, rfl⟩
  | builtin hn hb hk | custom hn hb hk =>
    rw [places_of_not_mem_reservedFilters hn]
    exact ⟨hk, rfl⟩

/-- A step has the arguments that were written exactly if each of them has a place. -/
theorem args_perm_written_iff (h : f.toStep scope = .ok s) : s.args ~ f.written scope ↔ f.Fits := by
  obtain ⟨hknown, hargs⟩ := args_of_toStep h
  rw [hargs, (f.written_perm scope).congr_right, Places.received_perm_iff hknown, names_toArgs,
    length_positional_toArgs]

/-- Arguments that neither have a place nor are left out are refused. -/
theorem fits_or_overflows (h : f.toStep scope = .ok s) : f.Fits ∨ f.Overflows := by
  have hor := Places.fit_or_overflow (args_of_toStep h).1
  rwa [names_toArgs, length_positional_toArgs] at hor

end Filter

/-! ### Values and their steps -/

/-- A step stands for a filter, and has all arguments of the filter exactly if they fit. -/
structure Filter.Becomes (scope : Scope) (f : Filter) (s : Step Expr) : Prop where
  toStep : f.toStep scope = .ok s
  args_perm : s.args ~ f.written scope ↔ f.Fits

/-- After the steps of its chain, an expression has one step for each filter of a value. -/
def Value.Becomes (scope : Scope) (v : Value) (e : Expr) : Prop :=
  e.chain = (v.initial.toExpr scope).chain ∧
    ∃ steps, e.steps = (v.initial.toExpr scope).steps ++ steps ∧
      List.Forall₂ (Filter.Becomes scope) v.filters steps

theorem exists_steps_of_applyFilters {scope : Scope} {fs : List Filter} {e e' : Expr}
    (h : applyFilters scope e fs = .ok e') :
    e'.chain = e.chain ∧
      ∃ steps, e'.steps = e.steps ++ steps ∧ List.Forall₂ (Filter.Becomes scope) fs steps := by
  induction fs generalizing e with
  | nil =>
    obtain rfl := Except.ok.inj h
    exact ⟨rfl, [], (List.append_nil _).symm, .nil⟩
  | cons f fs ih =>
    obtain ⟨s, hs, h⟩ := bind_eq_ok.mp h
    obtain ⟨hchain, steps, hsteps, hbecome⟩ := ih h
    refine ⟨hchain, s :: steps, ?_, .cons ⟨hs, Filter.args_perm_written_iff hs⟩ hbecome⟩
    rw [hsteps, Expr.pipe, List.append_assoc, List.singleton_append]

theorem Value.becomes_of_toExpr {scope : Scope} {v : Value} {e : Expr}
    (h : v.toExpr scope = .ok e) :
    v.Becomes scope e :=
  exists_steps_of_applyFilters h

theorem exists_becomes_of_mem {scope : Scope} {fs : List Filter} {steps : List (Step Expr)}
    (h : List.Forall₂ (Filter.Becomes scope) fs steps) {f : Filter} (hf : f ∈ fs) :
    ∃ s, f.Becomes scope s := by
  induction h with
  | nil => cases hf
  | cons hs _ ih =>
    rcases List.mem_cons.mp hf with rfl | hf
    · exact ⟨_, hs⟩
    · exact ih hf

/-! ### The values of a tree -/

/-- The value of a fragment. -/
def fragmentValue? (text : List Char) : Option Value :=
  (parseValue ⟨0, text⟩).toOption

/-- The text after the first occurrence of a word. -/
def textAfter? (word text : List Char) : Option (List Char) :=
  (Text.cut? word text).map (·.2)

namespace Element

/-- The values of an element itself. Conditions, the values of clauses and the names of subtemplates
have no filters. -/
def values : Element → List Value
  | .output value _ _ => [value]
  | .caseOf _ subject _ _ _ => [subject]
  | .tag t =>
    if t.name == "assign" then ((textAfter? ['='] t.args.text).bind fragmentValue?).toList else []
  | .loop opening _ _ _ =>
    ((textAfter? " in ".toList opening.args.text).bind fragmentValue?).toList
  | .html _ | .verbatim .. | .conditional .. | .capture .. => []

/-- What an alternative renders. -/
def otherwiseBody (otherwise : Option (Alternative Element)) : List Element :=
  otherwise.elim [] (·.body)

/-- The elements right inside an element, each with its scope, given the scope of the element. -/
def parts (scope : Scope) : Element → List (Scope × Element)
  | .conditional first rest otherwise _ =>
    (first.body ++ rest.flatMap (·.body) ++ otherwiseBody otherwise).map (scope, ·)
  | .caseOf _ _ whens otherwise _ =>
    (whens.flatMap (·.body) ++ otherwiseBody otherwise).map (scope, ·)
  | .loop _ body otherwise _ =>
    body.map (.loopBody, ·) ++ (otherwiseBody otherwise).map (scope, ·)
  | .capture _ body _ => body.map (scope, ·)
  | .html _ | .output .. | .tag _ | .verbatim .. => []

/-- A value stands in an element or somewhere inside it, in the scope `inner`. -/
inductive Holds (v : Value) (inner : Scope) : Scope → Element → Prop
  | own {e : Element} (h : v ∈ e.values) : Holds v inner inner e
  | inside {scope : Scope} {e : Element} {p : Scope × Element} (hp : p ∈ e.parts scope)
      (h : Holds v inner p.1 p.2) : Holds v inner scope e

end Element

end Liquid

/-- An expression stands in a node or somewhere inside it, in the scope `inner`. -/
inductive Node.Holds (e : Expr) (inner : Scope) : Scope → Node → Prop
  | own {n : Node} (h : e ∈ n.exprs) : Holds e inner inner n
  | inside {scope : Scope} {n : Node} {p : Scope × Node} (hp : p ∈ n.parts scope)
      (h : Holds e inner p.1 p.2) : Holds e inner scope n

namespace Liquid

namespace Element

variable {fragment : FragmentReader} {scope : Scope}

/-! ### The parts of an element become parts of its node -/

/-- Where a list is read one by one, something is read of each. -/
theorem exists_of_mem_of_each {α β : Type} {read : List α → Except ReadError (List β)}
    {P : α → β → Prop} (hcons : ∀ {a as bs}, read (a :: as) = .ok bs →
      ∃ b more, P a b ∧ read as = .ok more ∧ bs = b :: more)
    {as : List α} {bs : List β} (h : read as = .ok bs) {a : α} (ha : a ∈ as) : ∃ b ∈ bs, P a b := by
  induction as generalizing bs with
  | nil => cases ha
  | cons a' as ih =>
    obtain ⟨b, more, hb, hmore, rfl⟩ := hcons h
    rcases List.mem_cons.mp ha with rfl | ha
    · exact ⟨b, List.mem_cons_self, hb⟩
    · obtain ⟨b', hb', hP⟩ := ih hmore ha
      exact ⟨b', List.mem_cons_of_mem _ hb', hP⟩

theorem exists_toNode_of_mem {es : List Element} {nodes : List Node}
    (h : Element.toNodes fragment scope es = .ok nodes) {e : Element} (he : e ∈ es) :
    ∃ n ∈ nodes, e.toNode fragment scope = .ok n :=
  exists_of_mem_of_each Element.exists_of_toNodes_cons h he

/-- Where arms are read one by one, the bodies are the bodies of their arms. -/
theorem exists_arm_of_mem {α : Type} {read : List α → Except ReadError (List (Branch (List Node)))}
    {condition : α → Option Expr} {body : α → List Element} {trim : α → Trim}
    (hcons : ∀ {a as arms}, read (a :: as) = .ok arms → ∃ nodes more,
      Element.toNodes fragment scope (body a) = .ok nodes ∧ read as = .ok more ∧
        arms = ⟨condition a, nodes, trim a⟩ :: more)
    {as : List α} {arms : List (Branch (List Node))} (h : read as = .ok arms) {a : α}
    (ha : a ∈ as) : ∃ b ∈ arms, Element.toNodes fragment scope (body a) = .ok b.body := by
  refine exists_of_mem_of_each
    (P := fun a b => Element.toNodes fragment scope (body a) = .ok b.body) (fun h => ?_) h ha
  obtain ⟨nodes, more, hnodes, hmore, rfl⟩ := hcons h
  exact ⟨_, more, hnodes, hmore, rfl⟩

theorem toNodes_otherwiseBody {otherwise : Option (Alternative Element)}
    {result : Option (List Node × Trim)}
    (h : Element.toAlternative fragment scope otherwise = .ok result) :
    Element.toNodes fragment scope (otherwiseBody otherwise) =
      .ok ((result.map (·.1)).getD []) := by
  cases otherwise with
  | none =>
    rw [Element.toAlternative] at h
    obtain rfl := Except.ok.inj h
    rw [otherwiseBody, Option.elim_none, Element.toNodes]
    rfl
  | some alternative =>
    obtain ⟨head, body⟩ := alternative
    rw [Element.toAlternative] at h
    obtain ⟨nodes, hnodes, rfl⟩ := bind_pure_eq_ok.mp h
    exact hnodes

/-- The body of an alternative is the body of its arm. -/
theorem exists_arm_of_otherwise {otherwise : Option (Alternative Element)}
    {alternative : Option (List Node × Trim)}
    (h : Element.toAlternative fragment scope otherwise = .ok alternative) {e : Element}
    (he : e ∈ otherwiseBody otherwise) :
    ∃ b ∈ Branch.ofAlternative alternative,
      Element.toNodes fragment scope (otherwiseBody otherwise) = .ok b.body := by
  have hnodes := toNodes_otherwiseBody h
  cases alternative with
  | none =>
    obtain ⟨n, hn, -⟩ := exists_toNode_of_mem hnodes he
    cases hn
  | some p => exact ⟨⟨none, p.1, p.2⟩, List.mem_singleton_self _, hnodes⟩

/-- What stands in the body of an arm stands in its conditional. -/
theorem exists_part_of_arm {body : List Element} {e : Element}
    {branches : List (Branch (List Node))} (he : e ∈ body)
    (harm : ∃ b ∈ branches, Element.toNodes fragment scope body = .ok b.body) (kind : Variant)
    (trim endTrim : Trim) :
    ∃ n, (scope, n) ∈ (Node.conditional kind branches trim endTrim).parts scope ∧
      e.toNode fragment scope = .ok n := by
  obtain ⟨b, hb, hbody⟩ := harm
  obtain ⟨n, hn, htoNode⟩ := exists_toNode_of_mem hbody he
  exact ⟨n, List.mem_flatMap.mpr ⟨b, hb, List.mem_map_of_mem hn⟩, htoNode⟩

/-- An element inside a block becomes a node inside the node of the block. -/
theorem exists_part_of_toNode {e : Element} {n : Node} (h : e.toNode fragment scope = .ok n)
    {p : Scope × Element} (hp : p ∈ e.parts scope) :
    ∃ m, (p.1, m) ∈ n.parts scope ∧ p.2.toNode fragment p.1 = .ok m := by
  cases Element.nodeOf h with
  | html | output | assign | subtemplate | passOn | comment | raw => cases hp
  | conditional hbody harms halternative =>
    obtain ⟨e, he, rfl⟩ := List.mem_map.mp hp
    rw [List.mem_append, List.mem_append, List.mem_flatMap] at he
    rcases he with (he | ⟨c, hc, he⟩) | he
    · exact exists_part_of_arm he ⟨_, List.mem_cons_self, hbody⟩ _ _ _
    · obtain ⟨b, hb, hbody⟩ := exists_arm_of_mem exists_of_clauseArms_cons harms hc
      exact exists_part_of_arm he
        ⟨b, List.mem_append_left _ (List.mem_cons_of_mem _ hb), hbody⟩ _ _ _
    · obtain ⟨b, hb, hbody⟩ := exists_arm_of_otherwise halternative he
      exact exists_part_of_arm he ⟨b, List.mem_append_right _ hb, hbody⟩ _ _ _
  | caseOf hsubject harms halternative =>
    obtain ⟨e, he, rfl⟩ := List.mem_map.mp hp
    rw [List.mem_append, List.mem_flatMap] at he
    rcases he with ⟨w, hw, he⟩ | he
    · obtain ⟨b, hb, hbody⟩ := exists_arm_of_mem exists_of_whenArms_cons harms hw
      exact exists_part_of_arm he
        ⟨b, List.mem_append_left _ (List.mem_cons_of_mem _ hb), hbody⟩ _ _ _
    · obtain ⟨b, hb, hbody⟩ := exists_arm_of_otherwise halternative he
      exact exists_part_of_arm he ⟨b, List.mem_append_right _ hb, hbody⟩ _ _ _
  | loop hheader hbody halternative =>
    rcases List.mem_append.mp hp with hp | hp
    · obtain ⟨e, he, rfl⟩ := List.mem_map.mp hp
      obtain ⟨n, hn, htoNode⟩ := exists_toNode_of_mem hbody he
      exact ⟨n, List.mem_append_left _ (List.mem_map_of_mem hn), htoNode⟩
    · obtain ⟨e, he, rfl⟩ := List.mem_map.mp hp
      obtain ⟨n, hn, htoNode⟩ := exists_toNode_of_mem (toNodes_otherwiseBody halternative) he
      exact ⟨n, List.mem_append_right _ (List.mem_map_of_mem hn), htoNode⟩
  | capture htarget hbody =>
    obtain ⟨e, he, rfl⟩ := List.mem_map.mp hp
    obtain ⟨n, hn, htoNode⟩ := exists_toNode_of_mem hbody he
    exact ⟨n, List.mem_map_of_mem hn, htoNode⟩

/-! ### The values of an element become expressions of its node -/

/-- Fragments are read as values. -/
def ReadsValues (fragment : FragmentReader) : Prop :=
  ∀ scope text e, fragment scope text = .ok e →
    ∃ v, fragmentValue? text = some v ∧ v.toExpr scope = .ok e

theorem readsValues_readFragment (depth : Nat) : ReadsValues (readFragment depth) := by
  intro scope text e h
  cases depth with
  | zero => cases h
  | succ depth =>
    obtain ⟨v, hv, he⟩ := (readFragment_eq_ok_iff depth scope text e).mp h
    exact ⟨v, by rw [fragmentValue?, hv]; rfl, he⟩

theorem toExpr_of_mem_fragmentValue? (hf : ReadsValues fragment) {text : List Char} {e : Expr}
    (h : fragment scope text = .ok e) {word args before : List Char}
    (hcut : Text.cut? word args = some (before, text)) {v : Value}
    (hv : v ∈ ((textAfter? word args).bind fragmentValue?).toList) : v.toExpr scope = .ok e := by
  obtain ⟨v', hv', he⟩ := hf scope text e h
  rw [textAfter?, hcut, Option.map_some, Option.bind_some, hv', Option.mem_toList] at hv
  exact Option.some.inj hv ▸ he

/-- A value of an element is an expression of its node. -/
theorem exists_expr_of_toNode (hf : ReadsValues fragment) {e : Element} {n : Node}
    (h : e.toNode fragment scope = .ok n) {v : Value} (hv : v ∈ e.values) :
    ∃ x ∈ n.exprs, v.toExpr scope = .ok x := by
  cases Element.nodeOf h with
  | html | comment | raw | conditional | capture => cases hv
  | output he | caseOf he harms halternative =>
    obtain rfl := List.mem_singleton.mp hv
    exact ⟨_, List.mem_cons_self, he⟩
  | assign hn hcut he =>
    rw [values, if_pos (beq_iff_eq.mpr hn)] at hv
    exact ⟨_, List.mem_singleton_self _, toExpr_of_mem_fragmentValue? hf he hcut hv⟩
  | subtemplate hn hs he =>
    rw [values, hn] at hv
    cases hv
  | passOn hn =>
    rw [values, if_neg (by simpa using hn)] at hv
    cases hv
  | loop hheader hbody halternative =>
    obtain ⟨before, rest, hcut, -, -, he, -⟩ := readLoopHeader_eq_ok_iff.mp hheader
    exact ⟨_, List.mem_singleton_self _, toExpr_of_mem_fragmentValue? hf he hcut hv⟩

/-- Every value of an element, also of those inside it, is an expression of its node. -/
theorem exists_holds_toNode (hf : ReadsValues fragment) {v : Value} {inner scope : Scope}
    {e : Element} (hv : e.Holds v inner scope) {n : Node} (h : e.toNode fragment scope = .ok n) :
    ∃ x, n.Holds x inner scope ∧ v.toExpr inner = .ok x := by
  induction hv generalizing n with
  | own hv =>
    obtain ⟨x, hx, he⟩ := exists_expr_of_toNode hf h hv
    exact ⟨x, .own hx, he⟩
  | inside hp _ ih =>
    obtain ⟨m, hm, htoNode⟩ := exists_part_of_toNode h hp
    obtain ⟨x, hx, he⟩ := ih htoNode
    exact ⟨x, .inside hm hx, he⟩

end Element

/-! ### Sources -/

/-- A value stands somewhere in a tree, in a scope. -/
def HoldsValue (elements : List Element) (scope : Scope) (v : Value) : Prop :=
  ∃ e ∈ elements, e.Holds v scope {}

/-- An expression stands somewhere in a template, in a scope. -/
def HoldsExpr (nodes : List Node) (scope : Scope) (x : Expr) : Prop :=
  ∃ n ∈ nodes, n.Holds x scope {}

theorem exists_holdsExpr_of_read {source : String} {elements : List Element} {nodes : List Node}
    (hp : parse source = .ok elements) (h : read source = .ok nodes) {scope : Scope} {v : Value}
    (hv : HoldsValue elements scope v) :
    ∃ x, HoldsExpr nodes scope x ∧ v.toExpr scope = .ok x := by
  rw [read, readWith, hp] at h
  obtain ⟨e, he, hholds⟩ := hv
  obtain ⟨n, hn, htoNode⟩ := Element.exists_toNode_of_mem h he
  obtain ⟨x, hx, hexpr⟩ :=
    Element.exists_holds_toNode (Element.readsValues_readFragment source.length) hholds htoNode
  exact ⟨x, ⟨n, hn, hx⟩, hexpr⟩

/-- In a template every value of its source has a step for each filter. The step has all arguments
of the filter exactly if each of them has a place, and an argument that neither has a place nor is
left out makes the source fail. -/
theorem read_keeps_arguments {source : String} {elements : List Element}
    (hp : parse source = .ok elements) :
    (∀ nodes, read source = .ok nodes → ∀ scope v, HoldsValue elements scope v →
      ∃ x, HoldsExpr nodes scope x ∧ v.Becomes scope x) ∧
    ∀ scope v, HoldsValue elements scope v → ∀ f ∈ v.filters, ¬ f.Fits → ¬ f.Overflows →
      ∃ error, read source = .error error := by
  refine ⟨fun nodes h scope v hv => ?_, fun scope v hv f hf hfits hoverflows => ?_⟩
  · obtain ⟨x, hx, hexpr⟩ := exists_holdsExpr_of_read hp h hv
    exact ⟨x, hx, Value.becomes_of_toExpr hexpr⟩
  · cases h : read source with
    | error error => exact ⟨error, rfl⟩
    | ok nodes =>
      obtain ⟨x, -, hexpr⟩ := exists_holdsExpr_of_read hp h hv
      obtain ⟨-, steps, -, hsteps⟩ := Value.becomes_of_toExpr hexpr
      obtain ⟨s, hs⟩ := exists_becomes_of_mem hsteps hf
      exact ((Filter.fits_or_overflows hs.toStep).elim hfits hoverflows).elim

/-- Arguments by name and by place inside a loop are kept, and a name that is not known is
refused. -/
theorem read_keeps_arguments_nested :
    let source := "\x7b% for x in xs | sort: 'a' %\x7d" ++
      "\x7b\x7b x | truncate: ellipsis: '!', length: 5 | plus: 1 \x7d\x7d\x7b% endfor %\x7d"
    let unknown := "\x7b% case a | upcase: n: 1 %\x7d\x7b% endcase %\x7d"
    (∃ nodes, read source = .ok nodes ∧ ∃ (v : Value) (x : Expr),
      v.filters.map (·.name) = ["truncate", "plus"] ∧ (∀ f ∈ v.filters, f.Fits) ∧
      HoldsExpr nodes .loopBody x ∧ v.Becomes .loopBody x) ∧
    (parse unknown).isOk ∧ ∃ error, read unknown = .error error := by
  intro source unknown
  have hinside : (read source).isOk ∧ ∃ elements ∈ (parse source).toOption, ∃ e ∈ elements,
      ∃ p ∈ e.parts {}, p.1 = .loopBody ∧ ∃ v ∈ p.2.values,
        v.filters.map (·.name) = ["truncate", "plus"] ∧ ∀ f ∈ v.filters, f.Fits := by
    decide +kernel
  have hunknown : ∃ elements ∈ (parse unknown).toOption, ∃ e ∈ elements, ∃ v ∈ e.values,
      ∃ f ∈ v.filters, ¬ f.Fits ∧ ¬ f.Overflows := by
    decide +kernel
  obtain ⟨hok, elements, helements, e, he, p, hp, hscope, v, hv, hnames, hfits⟩ := hinside
  obtain ⟨elements', helements', e', he', v', hv', f, hf, hunfit, hcontained⟩ := hunknown
  have hparse := toOption_eq_some_iff.mp helements
  have hparse' := toOption_eq_some_iff.mp helements'
  obtain ⟨nodes, hread⟩ := exists_of_isOk hok
  obtain ⟨x, hx, hbecomes⟩ := (read_keeps_arguments hparse).1 nodes hread .loopBody v
    ⟨e, he, .inside hp (hscope ▸ .own hv)⟩
  refine ⟨⟨nodes, hread, v, x, hnames, hfits, hx, hbecomes⟩, by rw [hparse']; rfl, ?_⟩
  exact (read_keeps_arguments hparse').2 {} v' ⟨e', he', .own hv'⟩ f hf hunfit hcontained

/-- A name that is not known and a second operand are left out. -/
theorem read_of_surplus_argument :
    read "\x7b\x7b a | truncate: 5, foo: 1 \x7d\x7d" =
        .ok [.output ((Expr.ident "a").pipe (.truncate (.literal "5") none false)) {}] ∧
      read "\x7b\x7b a | plus: 1, 2 \x7d\x7d" =
        .ok [.output ((Expr.ident "a").pipe (.apply (.op .add) [.literal "1"])) {}] := by
  decide +kernel

end Liquid

end Stencil

import Stencil.Proofs.Everywhere
import Stencil.Proofs.Liquid.Expression

/-!
# Expressions whose text is read as a value

What is written need not be read as the expression that was written: the loop object is read as a
name outside a loop, a name can be a keyword, and the filter for a reversed order is read as two
filters. Here it only matters that the text is read at all. That depends on the words of the
expression and on the number of arguments of its filters, and on nothing else that the writer does
not refuse by itself.

## Main results

* `Liquid.IsCondition.parseChain` : the text of a condition is read as a chain.
* `Liquid.listedValues_iff` : the lists of values that a clause is read from, by their shape.
* `Liquid.IsWhen.parseWhen` : the text of a clause is read as a list of values.
-/

namespace Stencil.Liquid

variable {e : Expr} {r acc right : Rendered}

/-! ### Chains -/

/-- The accesses right after the loop object, by the names that they are written with. -/
def loopAccesses : List Part → List Part
  | .ident name :: parts => .ident (chainWords.loopProperty name) :: parts
  | parts => parts

/-- The chains whose text is read as an operand. -/
def isReadableChain : List Part → Bool
  | [.ident name] => isIdentifier name.toList && name != "not"
  | .ident name :: parts => isIdentifier name.toList && parts.all isAccess
  | .loopVar :: parts => (loopAccesses parts).all isAccess
  | [.literal text] =>
    Text.isString text.toList || isSigned text.toList || literalWords.contains text
  | [.null] | [.blank] => true
  | _ => false

/-- The loop object is written like the variable of its name. -/
theorem write_loopVar (parts : List Part) :
    chainWords.write (.loopVar :: parts) =
      chainWords.write (.ident chainWords.loopVar :: loopAccesses parts) := by
  cases parts with
  | nil => rfl
  | cons part parts => cases part <;> rfl

theorem exists_spells_keyword (word : Keyword) : ∃ chain, Spells word.text.toList chain := by
  refine ⟨(word.toExpr ⟨0, word.text.toList⟩).chain, .keyword word fun text ht => ?_⟩
  cases word <;> simp [Keyword.toExpr, Piece.toString, ht, Expr.literal, Expr.null, Expr.ofChain]

theorem isReadableChain_of_isOperandChain {chain : List Part} (h : isOperandChain chain) :
    isReadableChain chain := by
  unfold isOperandChain at h
  split at h
  · simp only [Bool.and_eq_true] at h
    simp [isReadableChain, h]
  · next hne => simpa [isReadableChain, hne] using h
  · exact h
  · rfl
  · rfl
  · cases h

/-- A readable chain is written, and its text is read as an operand. -/
theorem exists_spells {chain : List Part} (h : isReadableChain chain) :
    ∃ text chain', chainWords.write chain = .ok text ∧ Spells text.toList chain' := by
  unfold isReadableChain at h
  split at h
  · next name =>
    simp only [Bool.and_eq_true, bne_iff_ne] at h
    cases hword : Keyword.ofText? name with
    | none =>
      have hparts : ∀ part ∈ ([] : List Part), isAccess part := by simp
      obtain ⟨text, hw, hs⟩ := write_property h.1 hparts fun _ => ⟨hword, h.2⟩
      exact ⟨text, _, hw, hs⟩
    | some word =>
      obtain rfl := Keyword.eq_text_of_ofText? hword
      obtain ⟨chain', hs⟩ := exists_spells_keyword word
      refine ⟨word.text, chain', ?_, hs⟩
      simp [ChainWords.write, ChainWords.writeRoot, ChainWords.writeAccesses]
  · next name parts hne =>
    simp only [Bool.and_eq_true, List.all_eq_true] at h
    obtain ⟨text, hw, hs⟩ := write_property h.1 h.2 fun hnil => (hne hnil).elim
    exact ⟨text, _, hw, hs⟩
  · have hname : isIdentifier chainWords.loopVar.toList := by decide
    rw [List.all_eq_true] at h
    obtain ⟨text, hw, hs⟩ := write_property hname h fun _ => by decide
    exact ⟨text, _, by rw [write_loopVar, hw], hs⟩
  · next text =>
    have hchain : isOperandChain [.literal text] := h
    obtain ⟨text', hw, hs⟩ := write_spells hchain
    exact ⟨text', _, hw, hs⟩
  · exact ⟨_, _, rfl, (exists_spells_keyword .nil).choose_spec⟩
  · exact ⟨_, _, rfl, (exists_spells_keyword .blank).choose_spec⟩
  · cases h

/-! ### Filters -/

/-- The number of arguments that a filter has to have. -/
def filterArity (name : String) : Nat :=
  if name = "replace" then 2
  else if (operatorOfFilter? name).isSome ∨ name = "truncate" ∨ name = "where" then 1
  else 0

/-- A filter with enough arguments stands for a step. -/
theorem exists_stepOf {name : String} {es : List Expr} (h : filterArity name ≤ es.length) :
    ∃ step, StepOf name ⟨name, es, []⟩ step := by
  have harity : ∀ n, n < filterArity name → ∃ a, es[n]? = some a := fun n hn =>
    ⟨_, List.getElem?_eq_getElem (by omega)⟩
  cases hop : operatorOfFilter? name with
  | some op =>
    have hname : name ≠ "replace" := by
      rintro rfl
      cases hop
    obtain ⟨a, ha⟩ := harity 0 (by simp [filterArity, hname, hop])
    exact ⟨_, .operator hop ha rfl⟩
  | none =>
    by_cases hreserved : name ∈ ["truncate", "replace", "where", "sort"]
    · simp only [List.mem_cons, List.not_mem_nil, or_false] at hreserved
      rcases hreserved with rfl | rfl | rfl | rfl
      · obtain ⟨a, ha⟩ := harity 0 (by decide)
        exact ⟨_, .truncate rfl ha⟩
      · obtain ⟨a, ha⟩ := harity 0 (by decide)
        obtain ⟨b, hb⟩ := harity 1 (by decide)
        exact ⟨_, .replace rfl ha hb⟩
      · obtain ⟨a, ha⟩ := harity 0 (by decide)
        exact ⟨_, .select rfl ha⟩
      · exact ⟨_, .sort rfl⟩
    · have hname := not_mem_reservedFilters_iff.mpr ⟨hop, hreserved⟩
      cases hb : Builtin.ofLiquid? name with
      | some filter => exact ⟨_, .builtin hname hb rfl⟩
      | none => exact ⟨_, .custom hname hb rfl⟩

/-! ### Steps -/

/-- The steps whose text is read as a filter or a connector. -/
def isReadableStep : Step Expr → Bool
  | .apply (.op op) args => op.isUnary || args.length == 1
  | .apply (.custom name) args =>
    isIdentifier name.toList && decide (filterArity name ≤ args.length)
  | _ => true

/-- The filter for the reversed order. -/
def reversal : String :=
  " | reverse"

theorem word_of_stepName {name : StepName} {args : List Expr} {word : String}
    (hs : isReadableStep (.apply name args)) (h : stepName name = .ok word) :
    isIdentifier word.toList ∧ filterArity word ≤ args.length := by
  cases name with
  | op op =>
    have hop := filterOfOperator?_of_stepName h
    have hword : op.isUnary = false ∧ isIdentifier word.toList ∧ filterArity word = 1 := by
      cases op <;> cases hop <;> decide
    simp only [isReadableStep, hword.1, Bool.false_or, beq_iff_eq] at hs
    exact ⟨hword.2.1, by rw [hword.2.2, hs]⟩
  | builtin filter =>
    obtain rfl := Except.ok.inj h
    have hword : isIdentifier filter.liquidName.toList ∧ filterArity filter.liquidName = 0 := by
      cases filter <;> decide
    exact ⟨hword.1, by rw [hword.2]; exact Nat.zero_le _⟩
  | custom name =>
    obtain rfl := Except.ok.inj h
    simpa [isReadableStep] using hs

/-- The text of a readable step is a filter with enough arguments, possibly with the filter for the
reversed order after it. -/
theorem exists_filterText {s : Step Expr} (hs : isReadableStep s) {text : String}
    (h : stepText (s.map argumentOf) = .ok text) :
    ∃ (name : String) (es : List Expr) (first : String),
      filterText name (es.map argumentOf) = .ok first ∧ (text = first ∨ text = first ++ reversal) ∧
      isIdentifier name.toList ∧ filterArity name ≤ es.length ∧ ∀ a ∈ es, a ∈ s.args := by
  cases s with
  | apply name args =>
    obtain ⟨word, hword, ht⟩ := bind_eq_ok.mp h
    obtain ⟨hid, harity⟩ := word_of_stepName hs hword
    exact ⟨word, args, text, ht, .inl rfl, hid, harity, fun a ha => ha⟩
  | truncate length ellipsis killWords =>
    cases killWords with
    | true => cases h
    | false =>
      refine ⟨"truncate", length :: ellipsis.toList, text, ?_, .inl rfl, by decide, ?_,
        fun a ha => ha⟩
      · cases ellipsis <;> exact h
      · rw [show filterArity "truncate" = 1 by decide]
        simp
  | replace old new count =>
    cases count with
    | some => cases h
    | none =>
      refine ⟨"replace", [old, new], text, h, .inl rfl, by decide, ?_, fun a ha => ha⟩
      rw [show filterArity "replace" = 2 by decide]
      simp
  | select key value =>
    refine ⟨"where", key :: value.toList, text, ?_, .inl rfl, by decide, ?_, fun a ha => ha⟩
    · cases value <;> exact h
    · rw [show filterArity "where" = 1 by decide]
      simp
  | sort key reverse =>
    obtain ⟨first, ht, rfl⟩ := map_eq_ok.mp h
    refine ⟨"sort", key.toList, first, ?_, ?_, by decide, ?_, fun a ha => ha⟩
    · cases key <;> exact ht
    · cases reverse
      · exact .inl rfl
      · exact .inr rfl
    · exact Nat.zero_le _

/-! ### Pipelines -/

/-- The expressions whose text, if they are written, is read as some value: readable chains and
steps, at any depth. -/
inductive Readable : Expr → Prop
  | intro {chain : List Part} {steps : List (Step Expr)} (hchain : isReadableChain chain)
      (hsteps : ∀ s ∈ steps, isReadableStep s) (hargs : ∀ s ∈ steps, ∀ a ∈ s.args, Readable a) :
      Readable ⟨chain, steps⟩

theorem readable_iff {e : Expr} : Readable e ↔
    e.Every fun e => isReadableChain e.chain ∧ ∀ s ∈ e.steps, isReadableStep s := by
  refine ⟨fun h => ?_, fun h => ?_⟩
  · induction h with
    | intro hchain hsteps _ ih => exact .intro ⟨hchain, hsteps⟩ ih
  · induction h with
    | @intro e h _ ih =>
      cases e
      exact .intro h.1 h.2 ih

instance (e : Expr) : Decidable (Readable e) :=
  decidable_of_iff' _ readable_iff

theorem filterArity_eq_zero {name : String} (h : name ∉ reservedFilters) :
    filterArity name = 0 := by
  have hspecial : name ≠ "replace" ∧ name ≠ "truncate" ∧ name ≠ "where" := by
    refine ⟨?_, ?_, ?_⟩ <;>
    · rintro rfl
      exact h (by decide)
  have hop : operatorOfFilter? name = none := by
    rw [operatorOfFilter?, List.lookup_eq_none_iff]
    intro entry hentry
    exact bne_iff_ne.mpr fun hname =>
      h (List.mem_append_left _ (hname ▸ List.mem_map_of_mem hentry))
  simp [filterArity, hspecial, hop]

theorem isReadableStep_of_isRegularStep {s : Step Expr} (h : isRegularStep s) :
    isReadableStep s := by
  cases s with
  | apply name args =>
    cases name with
    | op => exact h
    | builtin => rfl
    | custom name =>
      simp only [isRegularStep, Bool.and_eq_true, Bool.not_eq_true', List.contains_eq_mem,
        decide_eq_false_iff_not] at h
      simp [isReadableStep, h.1.1, filterArity_eq_zero h.2]
  | truncate | replace | select | sort => rfl

theorem Regular.readable (h : Regular e) : Readable e := by
  induction h with
  | intro hchain hsteps _ ih =>
    exact .intro (isReadableChain_of_isOperandChain (isOperandChain_iff.mpr hchain))
      (fun s hs => isReadableStep_of_isRegularStep (hsteps s hs)) ih

/-- An expression whose text, if it is written, is read as some expression. -/
def Legible (e : Expr) : Prop :=
  ∀ r, grammar.render e = .ok r → ∃ a, Sound r a

theorem Legible.spells (h : Legible e) {text : List Char} (ht : WritesAtom text e) :
    ∃ a, SpellsExpr text a := by
  obtain ⟨a, hs⟩ := h _ ht
  cases hs with
  | atom h => exact ⟨a, by rwa [String.toList_ofList] at h⟩

theorem exists_spellsExprs {texts : List (List Char)} {es : List Expr}
    (h : List.Forall₂ WritesAtom texts es) (hes : ∀ a ∈ es, Legible a) :
    ∃ as, as.length = es.length ∧ List.Forall₂ SpellsExpr texts as := by
  induction h with
  | nil => exact ⟨[], rfl, .nil⟩
  | cons ha _ ih =>
    rw [List.forall_mem_cons] at hes
    obtain ⟨a, hs⟩ := hes.1.spells ha
    obtain ⟨as, hlength, has⟩ := ih hes.2
    exact ⟨a :: as, by simp [hlength], .cons hs has⟩

/-- A filter with enough arguments is read, wherever it stands. -/
theorem exists_readsFilter {name text : String} {es : List Expr} (hname : isIdentifier name.toList)
    (harity : filterArity name ≤ es.length) (hes : ∀ a ∈ es, Legible a)
    (h : filterText name (es.map argumentOf) = .ok text) :
    ∃ step, ReadsFilter text.toList step := by
  obtain ⟨texts, htext, hatoms⟩ := filterText_eq_ok h
  obtain ⟨as, hlength, hspells⟩ := exists_spellsExprs hatoms hes
  obtain ⟨step, hstep⟩ := exists_stepOf (hlength ▸ harity)
  rw [htext]
  exact ⟨step, readsFilter hname hspells hstep⟩

theorem readsFilter_reverse : ReadsFilter "reverse".toList (.apply (.builtin .reverse) []) := by
  rw [← List.append_nil "reverse".toList, ← argsText]
  exact readsFilter (by decide) .nil (.builtin (by decide) rfl rfl)

theorem exists_sound_filter {s : Step Expr} (hacc : Sound acc e) (hs : isReadableStep s)
    (hargs : ∀ a ∈ s.args, Legible a)
    (h : grammar.extendFilter acc (s.map argumentOf) = .ok r) : ∃ a, Sound r a := by
  obtain ⟨filter, hfilter, h⟩ := bind_eq_ok.mp h
  obtain ⟨left, hleft, h⟩ := bind_eq_ok.mp h
  obtain ⟨-, rfl⟩ := group_eq_ok hleft
  obtain rfl := Except.ok.inj h
  obtain ⟨name, es, first, hfirst, htext, hname, harity, hes⟩ := exists_filterText hs hfilter
  obtain ⟨step, hreads⟩ := exists_readsFilter hname harity (fun a ha => hargs a (hes a ha)) hfirst
  have hvalue := hacc.readsValue.filter hreads
  rcases htext with rfl | rfl
  · refine ⟨e.pipe step, .pipe ?_⟩
    rw [String.toList_append, String.toList_append, List.append_assoc]
    exact hvalue
  · refine ⟨(e.pipe step).pipe (.apply (.builtin .reverse) []), .pipe ?_⟩
    have hreverse := hvalue.filter readsFilter_reverse
    simp only [String.toList_append, List.append_assoc, reversal] at hreverse ⊢
    exact hreverse

theorem exists_sound_operator {op : Operator} {args : List Expr} (hacc : Sound acc e)
    (hs : isReadableStep (.apply (.op op) args)) (hargs : ∀ a ∈ args, Legible a)
    (h : grammar.extendOperator acc op (.apply (.op op) (args.map argumentOf)) = .ok r) :
    ∃ a, Sound r a := by
  rcases exists_of_extendOperator h with ⟨c, a, right, rfl, rfl, hright, hleft, hgroup, rfl⟩ | h
  · obtain ⟨b, hb⟩ := hargs a List.mem_cons_self right hright
    exact ⟨_, hacc.between hb c hleft hgroup⟩
  · exact exists_sound_filter hacc hs hargs h

/-- One more step keeps a written text legible. -/
theorem exists_sound_extend {s : Step Expr} (hacc : Sound acc e) (hs : isReadableStep s)
    (hargs : ∀ a ∈ s.args, Legible a) (h : grammar.extend acc (s.map argumentOf) = .ok r) :
    ∃ a, Sound r a := by
  cases s with
  | apply name args =>
    cases name with
    | op op => exact exists_sound_operator hacc hs hargs h
    | builtin | custom => exact exists_sound_filter hacc hs hargs h
  | truncate | replace | select | sort => exact exists_sound_filter hacc hs hargs h

/-- A pipeline keeps a written text legible. -/
theorem exists_sound_steps {steps : List (Step Expr)} (hacc : Sound acc e)
    (hsteps : ∀ s ∈ steps, isReadableStep s) (hargs : ∀ s ∈ steps, ∀ a ∈ s.args, Legible a)
    (h : grammar.renderSteps steps acc = .ok r) : ∃ a, Sound r a := by
  induction steps generalizing acc e with
  | nil =>
    obtain rfl := Except.ok.inj h
    exact ⟨e, hacc⟩
  | cons s steps ih =>
    rw [List.forall_mem_cons] at hsteps hargs
    obtain ⟨acc', hext, h⟩ := bind_eq_ok.mp h
    rw [Grammar.renderArgs_eq_map] at hext
    obtain ⟨a, hsound⟩ := exists_sound_extend hacc hsteps.1 hargs.1 hext
    exact ih hsound hsteps.2 hargs.2 h

/-- The text of a readable expression is read in the way that its form says. -/
theorem exists_sound (h : Readable e) : Legible e := by
  induction h with
  | @intro chain steps hchain hsteps _ ih =>
    intro r hr
    rw [Grammar.render] at hr
    obtain ⟨text, htext, hr⟩ := bind_eq_ok.mp hr
    obtain ⟨r', hr', rfl⟩ := bind_pure_eq_ok.mp hr
    obtain ⟨text', chain', htext', hspells⟩ := exists_spells hchain
    obtain rfl : text' = text := Except.ok.inj (htext'.symm.trans htext)
    exact exists_sound_steps (.atom ⟨chain', rfl, hspells⟩) hsteps ih hr'

/-! ### Scopes -/

/-- Arguments that are known by the same places and names. -/
structure SameSlots (a b : FilterArgs) : Prop where
  positional : a.positional.length = b.positional.length
  keys : a.keywords.map (·.1) = b.keywords.map (·.1)

namespace SameSlots

variable {a b : FilterArgs}

theorem isSome_get? (h : SameSlots a b) (index : Nat) (key : String) :
    (a.get? index key).isSome = (b.get? index key).isSome := by
  have hlookup : ∀ ks : List (String × Expr),
      (ks.lookup key).isSome = (ks.map (·.1)).contains key := by
    intro ks
    induction ks with
    | nil => rfl
    | cons k ks ih =>
      rw [List.lookup_cons, List.map_cons, List.contains_cons]
      cases key == k.1 <;> simp [ih]
  have hplace : ∀ es : List Expr, (es[index]?).isSome = decide (index < es.length) := by
    intro es
    by_cases hi : index < es.length <;> simp [hi]
  rw [FilterArgs.get?, FilterArgs.get?, Option.isSome_or, Option.isSome_or, hlookup, hlookup,
    h.keys, hplace, hplace, h.positional]

theorem get? (h : SameSlots a b) {index : Nat} {key : String} {e : Expr}
    (he : a.get? index key = some e) : ∃ e', b.get? index key = some e' := by
  have hsome := h.isSome_get? index key
  rw [he] at hsome
  exact Option.isSome_iff_exists.mp hsome.symm

theorem keywords_eq_nil (h : SameSlots a b) (hk : a.keywords = []) : b.keywords = [] := by
  have hkeys := h.keys
  rwa [hk, List.map_nil, eq_comm, List.map_eq_nil_iff] at hkeys

theorem exists_stepOf (h : SameSlots a b) {name : String} {s : Step Expr} (hs : StepOf name a s) :
    ∃ s', StepOf name b s' := by
  cases hs with
  | operator hop ho hk =>
    obtain ⟨operand, ho⟩ := h.get? ho
    exact ⟨_, .operator hop ho (h.keywords_eq_nil hk)⟩
  | truncate hn hl =>
    obtain ⟨length, hl⟩ := h.get? hl
    exact ⟨_, .truncate hn hl⟩
  | replace hn ho hw =>
    obtain ⟨old, ho⟩ := h.get? ho
    obtain ⟨new, hw⟩ := h.get? hw
    exact ⟨_, .replace hn ho hw⟩
  | select hn hk =>
    obtain ⟨key, hk⟩ := h.get? hk
    exact ⟨_, .select hn hk⟩
  | sort hn => exact ⟨_, .sort hn⟩
  | builtin hn hb hk => exact ⟨_, .builtin hn hb (h.keywords_eq_nil hk)⟩
  | custom hn hb hk => exact ⟨_, .custom hn hb (h.keywords_eq_nil hk)⟩

end SameSlots

theorem sameSlots_toArgs (f : Filter) (scope scope' : Scope) :
    SameSlots (f.toArgs scope) (f.toArgs scope') := by
  refine ⟨?_, ?_⟩ <;> simp only [Filter.toArgs]
  all_goals
    induction f.args with
    | nil => rfl
    | cons arg args ih => cases arg <;> simpa using ih

/-- Whether a filter stands for a step does not depend on the scope. -/
theorem exists_toStep_scope {f : Filter} {scope : Scope} {s : Step Expr}
    (h : f.toStep scope = .ok s) (scope' : Scope) : ∃ s', f.toStep scope' = .ok s' := by
  obtain ⟨s', hs'⟩ :=
    (sameSlots_toArgs f scope scope').exists_stepOf (Filter.toStep_eq_ok_iff.mp h)
  exact ⟨s', Filter.toStep_eq_ok_iff.mpr hs'⟩

theorem exists_applyFilters_scope {fs : List Filter} {scope : Scope} {e a : Expr}
    (h : applyFilters scope e fs = .ok a) (scope' : Scope) (e' : Expr) :
    ∃ a', applyFilters scope' e' fs = .ok a' := by
  induction fs generalizing e e' with
  | nil => exact ⟨e', rfl⟩
  | cons f fs ih =>
    obtain ⟨s, hs, h⟩ := bind_eq_ok.mp h
    obtain ⟨s', hs'⟩ := exists_toStep_scope hs scope'
    obtain ⟨a', ha'⟩ := ih h (e'.pipe s')
    exact ⟨a', by rw [applyFilters, hs', ok_bind, ha']⟩

/-- Whether a value stands for an expression does not depend on the scope. -/
theorem exists_toExpr_scope {v : Value} {scope : Scope} {e : Expr} (h : v.toExpr scope = .ok e)
    (scope' : Scope) : ∃ e', v.toExpr scope' = .ok e' :=
  exists_applyFilters_scope h scope' _

/-! ### Places for an expression -/

/-- The steps that are written after a bar, for which a condition has no place. -/
def isFilterStep (s : Step Expr) : Bool :=
  match s.operator? with
  | none => true
  | some op =>
    match operatorForm op with
    | .ok .filter => true
    | _ => false

/-- A text does not end in a filter if the last step is none. -/
theorem form_ne_pipe_of_extend {s : Step Expr} (hs : isFilterStep s = false)
    (h : grammar.extend acc (s.map argumentOf) = .ok r) : r.form ≠ .pipe := by
  unfold isFilterStep at hs
  rw [Grammar.extend, Step.operator?_map] at h
  split at hs
  · cases hs
  · next op hop =>
    simp only [hop] at h
    obtain ⟨form, hform, h⟩ := bind_eq_ok.mp h
    have hform : operatorForm op = .ok form := hform
    rw [hform] at hs
    cases form with
    | between token | swapped token =>
      obtain ⟨right, -, h⟩ := bind_eq_ok.mp h
      obtain ⟨_, -, h⟩ := bind_eq_ok.mp h
      obtain ⟨_, -, rfl⟩ := bind_pure_eq_ok.mp h
      simp
    | leading token =>
      obtain ⟨_, -, rfl⟩ := bind_pure_eq_ok.mp h
      simp
    | filter => cases hs

theorem form_ne_pipe_of_steps {steps : List (Step Expr)} (hacc : acc.form ≠ .pipe)
    (hs : ∀ s ∈ steps, isFilterStep s = false) (h : grammar.renderSteps steps acc = .ok r) :
    r.form ≠ .pipe := by
  induction steps generalizing acc with
  | nil =>
    obtain rfl := Except.ok.inj h
    exact hacc
  | cons s steps ih =>
    rw [List.forall_mem_cons] at hs
    obtain ⟨acc', hext, h⟩ := bind_eq_ok.mp h
    rw [Grammar.renderArgs_eq_map] at hext
    exact ih (form_ne_pipe_of_extend hs.1 hext) hs.2 h

/-- An expression without filters is written without a bar. -/
theorem form_ne_pipe (hs : ∀ s ∈ e.steps, isFilterStep s = false) (h : grammar.render e = .ok r) :
    r.form ≠ .pipe := by
  obtain ⟨chain, steps⟩ := e
  rw [Grammar.render] at h
  obtain ⟨text, -, h⟩ := bind_eq_ok.mp h
  obtain ⟨r', hr', rfl⟩ := bind_pure_eq_ok.mp h
  have hatom : (⟨text, .atom⟩ : Rendered).form ≠ .pipe := by simp
  exact form_ne_pipe_of_steps hatom hs hr'

variable {text : String}

/-- A value that stands for some expression, in any scope. -/
def StandsForExpr (v : Value) : Prop :=
  ∀ scope, ∃ e, v.toExpr scope = .ok e

theorem Readable.exists_readsValue (he : Readable e) (h : grammar.text e = .ok text) :
    ∃ a, ReadsValue text.toList a := by
  obtain ⟨r, hr, rfl⟩ := map_eq_ok.mp h
  obtain ⟨a, hsound⟩ := exists_sound he r hr
  exact ⟨a, hsound.readsValue⟩

theorem parseValue_of_readable (he : Readable e) (h : grammar.text e = .ok text) (start : Nat) :
    ∃ v, parseValue ⟨start, text.toList⟩ = .ok v ∧ StandsForExpr v := by
  obtain ⟨a, ha⟩ := he.exists_readsValue h
  obtain ⟨v, hv, hexpr⟩ := ha.parseValue start
  exact ⟨v, hv, exists_toExpr_scope hexpr⟩

/-- The same between spaces, as in an output. -/
theorem parseValue_padded_of_readable (he : Readable e) (h : grammar.text e = .ok text)
    (start : Nat) :
    ∃ v, parseValue ⟨start, ' ' :: text.toList ++ [' ']⟩ = .ok v ∧ StandsForExpr v := by
  obtain ⟨a, ha⟩ := he.exists_readsValue h
  obtain ⟨v, hv, hexpr⟩ := ha.parseValue_padded start
  exact ⟨v, hv, exists_toExpr_scope hexpr⟩

/-- An expression that can be a condition, which has no place for filters. -/
structure IsCondition (e : Expr) : Prop where
  readable : Readable e
  noFilter : ∀ s ∈ e.steps, isFilterStep s = false

instance (e : Expr) : Decidable (IsCondition e) :=
  decidable_of_iff (Readable e ∧ ∀ s ∈ e.steps, isFilterStep s = false)
    ⟨fun h => ⟨h.1, h.2⟩, fun h => ⟨h.readable, h.noFilter⟩⟩

theorem IsCondition.parseChain (he : IsCondition e) (h : grammar.text e = .ok text) (start : Nat) :
    ∃ c, parseChain ⟨start, text.toList⟩ = .ok c := by
  obtain ⟨r, hr, rfl⟩ := map_eq_ok.mp h
  obtain ⟨a, hsound⟩ := exists_sound he.readable r hr
  obtain ⟨o, ls, hchain, -⟩ := (hsound.groups (form_ne_pipe he.noFilter hr)).parseChain start
  exact ⟨⟨o, ls⟩, hchain⟩

/-! ### Clauses -/

/-- A text that lists values, separated by commas or the word `or`, with blanks around them. The
word can stand right after a value whose text ends there. -/
inductive ListedValues : List Char → Prop
  | last {left text right : List Char} {start : Nat} {o : Operand} (hl : ∀ c ∈ left, Text.isBlank c)
      (ht : OperandText start text o) (hr : ∀ c ∈ right, Text.isBlank c) :
      ListedValues (left ++ (text ++ right))
  | comma {left text right more : List Char} {start : Nat} {o : Operand}
      (hl : ∀ c ∈ left, Text.isBlank c) (ht : OperandText start text o)
      (hr : ∀ c ∈ right, Text.isBlank c) (hm : ListedValues more) :
      ListedValues (left ++ (text ++ (right ++ ',' :: more)))
  | or {left text right more : List Char} {start : Nat} {o : Operand}
      (hl : ∀ c ∈ left, Text.isBlank c) (ht : OperandText start text o)
      (hr : ∀ c ∈ right, Text.isBlank c) (hm : ListedValues more)
      (he : Ended text (right ++ 'o' :: 'r' :: more))
      (hw : ∀ c ∈ more.head?, isIdentChar c = false) :
      ListedValues (left ++ (text ++ (right ++ 'o' :: 'r' :: more)))

theorem parseMoreValues_of_separator {p : Piece} {stop : Nat} {more : List Char}
    (hs : eatSeparator? p = some ⟨stop, more⟩)
    (h : ∀ start, ∃ values, parseWhen ⟨start, more⟩ = .ok values) :
    ∃ values, parseMoreValues p = .ok values := by
  have hne : p.trimStart.text.isEmpty = false := by
    cases ht : p.trimStart.text with
    | nil => simp [eatSeparator?, eatWord?, eat?, Piece.strip?, ht, Text.strip?] at hs
    | cons => rfl
  obtain ⟨values, hvalues⟩ := h stop
  obtain ⟨⟨first, after⟩, hfirst, hvalues⟩ := bind_eq_ok.mp hvalues
  obtain ⟨others, hothers, rfl⟩ := bind_pure_eq_ok.mp hvalues
  refine ⟨first :: others, ?_⟩
  rw [parseMoreValues, if_neg (by simp [hne])]
  split
  · simp_all
  · split <;> simp_all

/-- A list is read if its first value is followed by others. -/
theorem OperandText.parseWhen {left text rest : List Char} {start' : Nat} {o : Operand}
    (hl : ∀ c ∈ left, Text.isBlank c) (h : OperandText start' text o) (he : Ended text rest)
    (hr : ∀ c ∈ rest.head?, Text.isBlank c ∨ c ∈ [',', 'o'])
    (hmore : ∀ start, ∃ values, parseMoreValues ⟨start, rest⟩ = .ok values) (start : Nat) :
    ∃ values, parseWhen ⟨start, left ++ (text ++ rest)⟩ = .ok values := by
  have hhead : ∀ c ∈ rest.head?, Text.isQuote c = false ∧ Text.isDigit c = false ∧ c ≠ '.' ∧
      c ≠ '[' := by
    intro c hc
    rcases hr c hc with hb | hc
    · exact ⟨Text.isQuote_eq_false_of_isBlank hb, Text.isDigit_eq_false_of_isBlank hb,
        Text.ne_of_isBlank hb (by decide), Text.ne_of_isBlank hb (by decide)⟩
    · rcases List.mem_pair.mp hc with rfl | rfl <;> decide
  obtain ⟨o', ho⟩ := h.exists_at (start + Text.byteLength left)
  obtain ⟨values, hvalues⟩ := hmore (start + Text.byteLength left + Text.byteLength text)
  refine ⟨o' :: values, ?_⟩
  rw [Liquid.parseWhen, readOperand, Piece.trimStart_blanks hl, (h.solid.append rest).trimStart,
    ho.operandAt hhead he, ok_bind]
  simp only [hvalues, ok_bind]
  rfl

/-- A name stops at a blank and at a comma. -/
theorem ended_of_head? {text rest : List Char}
    (h : ∀ c ∈ rest.head?, Text.isBlank c ∨ c = ',') : Ended text rest := by
  refine .inr (.inr (.inl fun c hc => ?_))
  rcases h c hc with hb | rfl
  · have hname := Text.isNameChar_eq_false_of_isBlank hb
    exact ⟨by simp [isIdentChar, hname, Text.ne_of_isBlank hb (d := '-') (by decide)],
      Text.ne_of_isBlank hb (by decide)⟩
  · decide

theorem head?_blanks {b s : List Char} {P : Char → Prop} (hb : ∀ c ∈ b, Text.isBlank c)
    (hs : b = [] → ∀ c ∈ s.head?, P c) : ∀ c ∈ (b ++ s).head?, Text.isBlank c ∨ P c := by
  cases b with
  | nil => exact fun c hc => .inr (hs rfl c hc)
  | cons d b =>
    intro c hc
    obtain rfl : d = c := by simpa using hc
    exact .inl (hb d List.mem_cons_self)

/-- A list of values is read. -/
theorem ListedValues.parseWhen {list : List Char} (h : ListedValues list) (start : Nat) :
    ∃ values, parseWhen ⟨start, list⟩ = .ok values := by
  induction h generalizing start with
  | @last left text right _ _ hl ht hr =>
    have hhead : ∀ c ∈ right.head?, Text.isBlank c := fun c hc => hr c (List.mem_of_mem_head? hc)
    refine ht.parseWhen hl (ended_of_head? fun c hc => .inl (hhead c hc))
      (fun c hc => .inl (hhead c hc)) (fun start => ?_) start
    have hend : (Piece.trimStart ⟨start, right⟩).text = [] := by
      simpa [Piece.text_trimStart, Text.trimStart] using hr
    exact ⟨[], by rw [parseMoreValues, hend]; rfl⟩
  | @comma left text right more _ _ hl ht hr _ ih =>
    refine ht.parseWhen hl (ended_of_head? (head?_blanks hr (by simp)))
      (head?_blanks hr (by simp)) (fun start => ?_) start
    have hs : eatSeparator? ⟨start, right ++ ',' :: more⟩ =
        some ⟨start + Text.byteLength right + 1, more⟩ := by
      rw [eatSeparator?, eat?_blanks hr, eat?_sign (by decide)]
      rfl
    exact parseMoreValues_of_separator hs ih
  | @or left text right more _ _ hl ht hr _ he hw ih =>
    refine ht.parseWhen hl he (head?_blanks hr (by simp)) (fun start => ?_) start
    have hs : eatSeparator? ⟨start, right ++ 'o' :: 'r' :: more⟩ =
        some ⟨start + Text.byteLength right + 2, more⟩ := by
      rw [eatSeparator?, eatWord?, eat?_blanks hr, eat?_blanks hr]
      cases more with
      | nil => rfl
      | cons c cs => exact if_pos (by simpa using hw c rfl)
    exact parseMoreValues_of_separator hs ih

/-- A list begins with an operand, and goes on as the values after it do. -/
theorem ListedValues.of_readOperand {p rest : Piece} {o : Operand}
    (h : readOperand p = .ok (o, rest))
    (hmore : ∀ {left text start}, (∀ c ∈ left, Text.isBlank c) → OperandText start text o →
      Ended text rest.text → ListedValues (left ++ (text ++ rest.text))) : ListedValues p.text := by
  obtain ⟨text, htext, hleads, hended⟩ := exists_of_operandAt h
  rw [(Piece.Leads.trimStart p).text, hleads.text]
  exact hmore (fun _ => List.mem_takeWhile_imp) htext hended

theorem listedValues_of_parseMoreValues {p : Piece} {os : List Operand}
    (h : parseMoreValues p = .ok os) {left text : List Char} {start : Nat} {o : Operand}
    (hl : ∀ c ∈ left, Text.isBlank c) (ht : OperandText start text o) (he : Ended text p.text) :
    ListedValues (left ++ (text ++ p.text)) := by
  fun_induction parseMoreValues p generalizing os left text start o with
  | case1 p hend =>
    refine .last hl ht fun c hc => ?_
    have hnil : p.text.dropWhile Text.isBlank = [] := List.isEmpty_iff.mp hend
    exact List.dropWhile_eq_nil_iff.mp hnil c hc
  | case2 | case3 | case4 => cases h
  | case5 p _ r hr o r' ho os' hos ih =>
    have hrest : ListedValues r.text := .of_readOperand ho (ih hos)
    have hblanks : ∀ c ∈ p.text.takeWhile Text.isBlank, Text.isBlank c :=
      fun _ => List.mem_takeWhile_imp
    rcases Option.or_eq_some_iff.mp hr with hr | ⟨-, hr⟩
    · have hp := ((Piece.Leads.trimStart p).trans (.strip? hr)).text
      rw [hp, List.append_assoc]
      exact .comma hl ht hblanks hrest
    · obtain ⟨heat, hend⟩ := Option.filter_eq_some_iff.mp ((eatWord?_eq _ p).symm.trans hr)
      have hp := ((Piece.Leads.trimStart p).trans (.strip? heat)).text
      rw [List.append_assoc] at hp
      refine hp ▸ .or hl ht hblanks hrest (hp ▸ he) fun c hc => ?_
      simpa [show r.text.head? = some c from hc] using hend

/-- The lists of the shape described are exactly those that are read. -/
theorem listedValues_iff {list : List Char} {start : Nat} :
    ListedValues list ↔ ∃ values, parseWhen ⟨start, list⟩ = .ok values := by
  refine ⟨fun h => h.parseWhen start, ?_⟩
  rintro ⟨values, h⟩
  obtain ⟨⟨first, rest⟩, hfirst, h⟩ := bind_eq_ok.mp h
  obtain ⟨more, hmore, -⟩ := bind_pure_eq_ok.mp h
  exact .of_readOperand hfirst (listedValues_of_parseMoreValues hmore)

/-- An expression that can stand in a clause of a case distinction: a single operand, or a list of
values as it was read. -/
inductive IsWhen : Expr → Prop
  | value {chain : List Part} (h : isReadableChain chain) : IsWhen (.ofChain chain)
  | values {list : String} (h : ListedValues list.toList) : IsWhen (.literal list)

theorem text_ofChain (chain : List Part) :
    grammar.text (.ofChain chain) = chainWords.write chain := by
  rw [Grammar.text, Expr.ofChain, Grammar.render]
  change Except.map _ (chainWords.write chain >>= _) = _
  cases chainWords.write chain <;> rfl

theorem IsWhen.parseWhen (he : IsWhen e) (h : grammar.text e = .ok text) (start : Nat) :
    ∃ values, parseWhen ⟨start, text.toList⟩ = .ok values := by
  cases he with
  | @value chain hchain =>
    obtain ⟨text', chain', hw, hs⟩ := exists_spells hchain
    obtain rfl : text' = text := by
      rw [text_ofChain, hw] at h
      exact Except.ok.inj h
    obtain ⟨o, ho, -⟩ := hs.parseWhen start
    exact ⟨[o], ho⟩
  | @values list hlist =>
    obtain rfl : list = text := by
      rw [Expr.literal, text_ofChain] at h
      simpa [ChainWords.write, ChainWords.writeRoot, ChainWords.writeAccesses] using h
    exact hlist.parseWhen start

end Stencil.Liquid

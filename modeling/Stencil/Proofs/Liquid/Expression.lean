import Stencil.Liquid.Grammar
import Stencil.Proofs.Liquid.Value
import Stencil.Proofs.Liquid.Walk

/-!
# Expressions are refused or read back

The writer puts no parentheses, so it has to refuse every expression that would group differently.
What it does write is read back as the expression that was written: by induction over the steps of a
pipeline, the text so far is read as the expression so far, in the way that the form of the text
says.

## Main results

* `Liquid.extend_sound` : one more step keeps a written text sound.
* `Liquid.render_sound` : a regular expression that is written is read back.
* `Liquid.parseValue_text_of_regular` : its text, as a piece of its own, is read as a value for it.
-/

namespace Stencil.Liquid

variable {e a : Expr} {r acc right : Rendered}

/-! ### Forms -/

/-- A written text that is read as an expression, in the way that its form says. -/
inductive Sound : Rendered → Expr → Prop
  | atom {text : String} {e : Expr} (h : SpellsExpr text.toList e) : Sound ⟨text, .atom⟩ e
  | comparison {text : String} {e : Expr}
      (h : ReadsChain text.toList fun o ls => Compares {} o ls e) : Sound ⟨text, .operator 2⟩ e
  | logical {text : String} {e : Expr}
      (h : ReadsChain text.toList fun o ls => Groups {} o ls e) : Sound ⟨text, .operator 1⟩ e
  | pipe {text : String} {e : Expr} (h : ReadsValue text.toList e) : Sound ⟨text, .pipe⟩ e

theorem SpellsExpr.compares {text : List Char} (h : SpellsExpr text e) :
    ReadsChain text fun o ls => Compares {} o ls e := by
  obtain ⟨chain, rfl, h⟩ := h
  refine h.readsChain.mono fun o ls ⟨ho, hls⟩ => ?_
  rw [hls, ← ho]
  exact .single o

/-- Only a single operand stands to the left of a comparison. -/
theorem Sound.spells (h : Sound r e) (hf : grammar.needsLeft 2 r.form = false) :
    SpellsExpr r.text.toList e := by
  cases h with
  | atom h => exact h
  | comparison | logical | pipe => cases hf

/-- Only comparisons stand to the right of a comparison. -/
theorem Sound.compares (h : Sound r e) (hf : grammar.needsRight 2 r.form = false) :
    ReadsChain r.text.toList fun o ls => Compares {} o ls e := by
  cases h with
  | atom h => exact h.compares
  | comparison h => exact h
  | logical | pipe => cases hf

/-- Only comparisons stand to the left of a logical operator. -/
theorem Sound.compares_left (h : Sound r e) (hf : grammar.needsLeft 1 r.form = false) :
    ReadsChain r.text.toList fun o ls => Compares {} o ls e := by
  cases h with
  | atom h => exact h.compares
  | comparison h => exact h
  | logical | pipe => cases hf

theorem Sound.groups (h : Sound r e) (hf : r.form ≠ .pipe) :
    ReadsChain r.text.toList fun o ls => Groups {} o ls e := by
  cases h with
  | atom h => exact h.compares.mono fun _ _ => .compares
  | comparison h => exact h.mono fun _ _ => .compares
  | logical h => exact h
  | pipe => exact absurd rfl hf

/-- A written text is read as a value for the expression. -/
theorem Sound.readsValue (h : Sound r e) : ReadsValue r.text.toList e := by
  by_cases hf : r.form = .pipe
  · cases h with
    | pipe h => exact h
    | atom | comparison | logical => cases hf
  · exact (h.groups hf).readsValue

/-! ### Operators -/

theorem group_eq_ok {text t : String} {needed : Bool} (h : grammar.group text needed = .ok t) :
    needed = false ∧ t = text := by
  cases needed with
  | false => exact ⟨rfl, (Except.ok.inj h).symm⟩
  | true => exact absurd h (by simp [Grammar.group, grammar])

/-- An operator that stands between its operands is spelled as a connector. -/
theorem exists_connector {op : Operator} {token : String}
    (h : operatorForm op = .ok (.between token)) :
    ∃ c : Connector, c.text = token ∧ c.operator = op ∧ c.precedence = operatorPrecedence op := by
  cases op with
  | equal => exact ⟨.equal, by cases h; rfl, rfl, rfl⟩
  | notEqual => exact ⟨.notEqual, by cases h; rfl, rfl, rfl⟩
  | greater => exact ⟨.greater, by cases h; rfl, rfl, rfl⟩
  | greaterEqual => exact ⟨.greaterEqual, by cases h; rfl, rfl, rfl⟩
  | less => exact ⟨.less, by cases h; rfl, rfl, rfl⟩
  | lessEqual => exact ⟨.lessEqual, by cases h; rfl, rfl, rfl⟩
  | contains => exact ⟨.contains, by cases h; rfl, rfl, rfl⟩
  | and => exact ⟨.and, by cases h; rfl, rfl, rfl⟩
  | or => exact ⟨.or, by cases h; rfl, rfl, rfl⟩
  | _ => cases h

/-- A connector between two written texts whose forms need no grouping. -/
theorem Sound.between (hacc : Sound acc e) (hright : Sound right a) (c : Connector)
    (hl : grammar.needsLeft c.precedence acc.form = false)
    (hr : grammar.needsRight c.precedence right.form = false) :
    Sound ⟨acc.text ++ " " ++ c.text ++ " " ++ right.text, .operator c.precedence⟩
      (e.apply c.operator a) := by
  have htext : (acc.text ++ " " ++ c.text ++ " " ++ right.text).toList =
      acc.text.toList ++ ' ' :: c.text.toList ++ ' ' :: right.text.toList := by simp
  by_cases hc : c.precedence = 2
  · rw [hc] at hl hr ⊢
    obtain ⟨chain, rfl, hleft⟩ := hacc.spells hl
    refine .comparison ?_
    rw [htext]
    refine (hleft.readsChain.link (hright.compares hr) c).mono fun o ls h => ?_
    obtain ⟨_, l, ls₂, rfl, rfl, ⟨ho, rfl⟩, h₂⟩ := h
    rw [← ho]
    exact .cons o hc h₂
  · have hc : c.precedence = 1 := by cases c <;> first | rfl | exact absurd rfl hc
    rw [hc] at hl hr ⊢
    have hform : right.form ≠ .pipe := by
      intro hf
      rw [hf] at hr
      cases hr
    refine .logical ?_
    rw [htext]
    refine ((hacc.compares_left hl).link (hright.groups hform) c).mono fun o ls h => ?_
    obtain ⟨ls₁, l, ls₂, rfl, rfl, h₁, h₂⟩ := h
    exact .logical h₁ hc h₂

/-! ### Filters -/

/-- An expression whose text, if it is written, is read as it. -/
def Faithful (e : Expr) : Prop :=
  ∀ r, grammar.render e = .ok r → Sound r e

/-- The argument that an expression is written as. -/
def argumentOf (e : Expr) : Argument :=
  ⟨e, grammar.render e⟩

/-- An expression that is written as a text of the form of an operand. -/
def WritesAtom (text : List Char) (e : Expr) : Prop :=
  grammar.render e = .ok ⟨String.ofList text, .atom⟩

theorem Faithful.spells (h : Faithful e) {text : List Char} (ht : WritesAtom text e) :
    SpellsExpr text e := by
  have hs := h _ ht
  cases hs with
  | atom h => rwa [String.toList_ofList] at h

theorem atomText_eq_ok {text : String} (h : atomText (argumentOf e) = .ok text) :
    WritesAtom text.toList e := by
  obtain ⟨⟨t, form⟩, hr, hform⟩ := bind_eq_ok.mp h
  cases form with
  | atom =>
    obtain rfl := Except.ok.inj hform
    rw [WritesAtom, String.ofList_toList]
    exact hr
  | operator | pipe => cases hform

theorem moreArgsText_eq_ok {es : List Expr} {text : String}
    (ht : moreArgsText (es.map argumentOf) = .ok text) :
    ∃ texts, text.toList = commaTexts texts ∧ List.Forall₂ WritesAtom texts es := by
  induction es generalizing text with
  | nil =>
    obtain rfl := Except.ok.inj ht
    exact ⟨[], rfl, .nil⟩
  | cons a es ih =>
    obtain ⟨first, hfirst, ht⟩ := bind_eq_ok.mp ht
    obtain ⟨rest, hrest, ht⟩ := bind_eq_ok.mp ht
    obtain ⟨texts, hr, hs⟩ := ih hrest
    obtain rfl := Except.ok.inj ht
    exact ⟨first.toList :: texts, by simp [commaTexts, hr], .cons (atomText_eq_ok hfirst) hs⟩

/-- The text of a filter is its name with the texts of its arguments. -/
theorem filterText_eq_ok {name : String} {es : List Expr} {text : String}
    (ht : filterText name (es.map argumentOf) = .ok text) :
    ∃ texts, text.toList = name.toList ++ argsText texts ∧ List.Forall₂ WritesAtom texts es := by
  cases es with
  | nil =>
    obtain rfl := Except.ok.inj ht
    exact ⟨[], by simp [argsText], .nil⟩
  | cons a es =>
    obtain ⟨first, hfirst, ht⟩ := bind_eq_ok.mp ht
    obtain ⟨rest, hrest, ht⟩ := bind_eq_ok.mp ht
    obtain ⟨texts, hr, hs⟩ := moreArgsText_eq_ok hrest
    obtain rfl := Except.ok.inj ht
    exact ⟨first.toList :: texts, by simp [argsText, hr], .cons (atomText_eq_ok hfirst) hs⟩

/-- The arguments of a filter are read as the expressions that they were written for. -/
theorem filterText_reads {name : String} {es : List Expr} (h : ∀ a ∈ es, Faithful a) {text : String}
    (ht : filterText name (es.map argumentOf) = .ok text) :
    ∃ texts, text.toList = name.toList ++ argsText texts ∧ List.Forall₂ SpellsExpr texts es := by
  obtain ⟨texts, htext, hs⟩ := filterText_eq_ok ht
  refine ⟨texts, htext, ?_⟩
  clear htext ht
  induction hs with
  | nil => exact .nil
  | cons ha _ ih =>
    rw [List.forall_mem_cons] at h
    exact .cons (h.1.spells ha) (ih h.2)

/-! ### Steps -/

/-- The steps that are read back: binary operators with one argument, and filters that their name
and arguments determine. A unary operator is never written. -/
def isRegularStep : Step Expr → Bool
  | .apply (.op op) args => op.isUnary || args.length == 1
  | .apply (.builtin _) _ => true
  | .apply (.custom name) _ => isIdentifier name.toList && (Builtin.ofLiquid? name).isNone &&
      !reservedFilters.contains name
  | .truncate _ _ killWords => !killWords
  | .replace _ _ count => count.isNone
  | .select .. => true
  | .sort _ reverse => !reverse

theorem filterOfOperator?_of_stepName {op : Operator} {word : String}
    (h : stepName (.op op) = .ok word) : filterOfOperator? op = some word := by
  unfold stepName at h
  simp only at h
  split at h
  · next name hname => rw [hname, Except.ok.inj h]
  · cases h

/-- The text of a step as a filter is read as that step. -/
theorem stepText_reads {s : Step Expr} (hs : isRegularStep s) (hargs : ∀ a ∈ s.args, Faithful a)
    {text : String} (h : stepText (s.map argumentOf) = .ok text) : ReadsFilter text.toList s := by
  cases s with
  | apply name args =>
    obtain ⟨word, hword, ht⟩ := bind_eq_ok.mp h
    obtain ⟨texts, htext, hspell⟩ := filterText_reads hargs ht
    rw [htext]
    cases name with
    | op op =>
      have hop := filterOfOperator?_of_stepName hword
      have hlen : args.length = 1 := by
        have hu : op.isUnary = false := by
          cases op <;> first | rfl | cases hop
        simpa [isRegularStep, hu] using hs
      obtain ⟨a, rfl⟩ := List.length_eq_one_iff.mp hlen
      have hid : isIdentifier word.toList := by
        cases op <;> cases hop <;> decide
      exact readsFilter hid hspell (.operator (operatorOfFilter?_filterOfOperator? hop) rfl rfl)
    | builtin filter =>
      obtain rfl := Except.ok.inj hword
      have hname : filter.liquidName ∉ reservedFilters := by cases filter <;> decide
      exact readsFilter (by cases filter <;> decide) hspell
        (.builtin hname (Builtin.ofLiquid?_liquidName filter) rfl)
    | custom name =>
      obtain rfl := Except.ok.inj hword
      simp only [isRegularStep, Bool.and_eq_true, Bool.not_eq_true', List.contains_eq_mem,
        decide_eq_false_iff_not, Option.isNone_iff_eq_none] at hs
      exact readsFilter hs.1.1 hspell (.custom hs.2 hs.1.2 rfl)
  | truncate length ellipsis killWords =>
    obtain rfl : killWords = false := by simpa [isRegularStep] using hs
    have ht : filterText "truncate" ((length :: ellipsis.toList).map argumentOf) = .ok text := by
      cases ellipsis <;> exact h
    obtain ⟨texts, htext, hspell⟩ := filterText_reads hargs ht
    rw [htext]
    cases ellipsis <;> exact readsFilter (by decide) hspell (.truncate rfl rfl)
  | replace old new count =>
    obtain rfl : count = none := by simpa [isRegularStep] using hs
    have ht : filterText "replace" ([old, new].map argumentOf) = .ok text := h
    obtain ⟨texts, htext, hspell⟩ := filterText_reads hargs ht
    rw [htext]
    exact readsFilter (by decide) hspell (.replace rfl rfl rfl)
  | select key value =>
    have ht : filterText "where" ((key :: value.toList).map argumentOf) = .ok text := by
      cases value <;> exact h
    obtain ⟨texts, htext, hspell⟩ := filterText_reads hargs ht
    rw [htext]
    cases value <;> exact readsFilter (by decide) hspell (.select rfl rfl)
  | sort key reverse =>
    obtain rfl : reverse = false := by simpa [isRegularStep] using hs
    have ht : filterText "sort" (key.toList.map argumentOf) = .ok text := by
      obtain ⟨t, ht, rfl⟩ := map_eq_ok.mp h
      cases key <;> exact ht
    obtain ⟨texts, htext, hspell⟩ := filterText_reads hargs ht
    rw [htext]
    cases key <;> exact readsFilter (by decide) hspell (.sort rfl)

/-! ### Pipelines -/

/-- The expressions that are read back if they are written: chains that operands outside loops stand
for and regular steps, at any depth. -/
inductive Regular : Expr → Prop
  | intro {chain : List Part} {steps : List (Step Expr)}
      (hchain : ∃ p o rest, readOperand p = .ok (o, rest) ∧ o.toExpr {} = .ofChain chain)
      (hsteps : ∀ s ∈ steps, isRegularStep s) (hargs : ∀ s ∈ steps, ∀ a ∈ s.args, Regular a) :
      Regular ⟨chain, steps⟩

theorem extendFilter_sound {s : Step Expr} (hacc : Sound acc e) (hs : isRegularStep s)
    (hargs : ∀ a ∈ s.args, Faithful a)
    (h : grammar.extendFilter acc (s.map argumentOf) = .ok r) : Sound r (e.pipe s) := by
  obtain ⟨filter, hfilter, h⟩ := bind_eq_ok.mp h
  obtain ⟨left, hleft, h⟩ := bind_eq_ok.mp h
  obtain ⟨-, rfl⟩ := group_eq_ok hleft
  obtain rfl := Except.ok.inj h
  refine .pipe ?_
  have htext : (acc.text ++ " | " ++ filter).toList =
      acc.text.toList ++ ' ' :: '|' :: ' ' :: filter.toList := by simp
  rw [htext]
  exact hacc.readsValue.filter (stepText_reads hs hargs hfilter)

/-- An operator is written as a connector between its operands or as a filter. -/
theorem exists_of_extendOperator {op : Operator} {args : List Expr}
    (h : grammar.extendOperator acc op (.apply (.op op) (args.map argumentOf)) = .ok r) :
    (∃ (c : Connector) (a : Expr) (right : Rendered), c.operator = op ∧ args = [a] ∧
      grammar.render a = .ok right ∧ grammar.needsLeft c.precedence acc.form = false ∧
      grammar.needsRight c.precedence right.form = false ∧
      r = ⟨acc.text ++ " " ++ c.text ++ " " ++ right.text, .operator c.precedence⟩) ∨
    grammar.extendFilter acc (.apply (.op op) (args.map argumentOf)) = .ok r := by
  obtain ⟨form, hform, h⟩ := bind_eq_ok.mp h
  cases form with
  | between token =>
    obtain ⟨c, rfl, rfl, hprec⟩ := exists_connector hform
    obtain ⟨right, hright, h⟩ := bind_eq_ok.mp h
    obtain ⟨left, hl, h⟩ := bind_eq_ok.mp h
    obtain ⟨right', hr, h⟩ := bind_eq_ok.mp h
    obtain ⟨hleft, rfl⟩ := group_eq_ok hl
    obtain ⟨hgroup, rfl⟩ := group_eq_ok hr
    obtain rfl := Except.ok.inj h
    obtain ⟨a, rfl⟩ : ∃ a, args = [a] := by
      cases args with
      | nil => cases hright
      | cons a rest =>
        cases rest with
        | nil => exact ⟨a, rfl⟩
        | cons => cases hright
    exact .inl ⟨c, a, right, rfl, rfl, hright, hprec ▸ hleft, hprec ▸ hgroup, by rw [hprec]; rfl⟩
  | filter => exact .inr h
  | swapped | leading => cases op <;> cases hform

theorem extendOperator_sound {op : Operator} {args : List Expr} (hacc : Sound acc e)
    (hs : isRegularStep (.apply (.op op) args)) (hargs : ∀ a ∈ args, Faithful a)
    (h : grammar.extendOperator acc op (.apply (.op op) (args.map argumentOf)) = .ok r) :
    Sound r (e.pipe (.apply (.op op) args)) := by
  rcases exists_of_extendOperator h with ⟨c, a, right, rfl, rfl, hright, hleft, hgroup, rfl⟩ | h
  · have hsound := hacc.between (hargs a List.mem_cons_self right hright) c hleft hgroup
    rw [Expr.apply, isUnary_operator c] at hsound
    exact hsound
  · exact extendFilter_sound hacc hs hargs h

/-- One more step keeps a written text sound. -/
theorem extend_sound {s : Step Expr} (hacc : Sound acc e) (hs : isRegularStep s)
    (hargs : ∀ a ∈ s.args, Faithful a) (h : grammar.extend acc (grammar.renderArgs s) = .ok r) :
    Sound r (e.pipe s) := by
  rw [Grammar.renderArgs_eq_map] at h
  change grammar.extend acc (s.map argumentOf) = .ok r at h
  cases s with
  | apply name args =>
    cases name with
    | op op => exact extendOperator_sound hacc hs hargs h
    | builtin | custom => exact extendFilter_sound hacc hs hargs h
  | truncate | replace | select | sort => exact extendFilter_sound hacc hs hargs h

/-- A pipeline keeps a written text sound. -/
theorem renderSteps_sound {chain : List Part} {done steps : List (Step Expr)}
    (hacc : Sound acc ⟨chain, done⟩) (hsteps : ∀ s ∈ steps, isRegularStep s)
    (hargs : ∀ s ∈ steps, ∀ a ∈ s.args, Faithful a) (h : grammar.renderSteps steps acc = .ok r) :
    Sound r ⟨chain, done ++ steps⟩ := by
  induction steps generalizing acc done with
  | nil =>
    obtain rfl := Except.ok.inj h
    rwa [List.append_nil]
  | cons s steps ih =>
    rw [List.forall_mem_cons] at hsteps hargs
    obtain ⟨acc', hext, h⟩ := bind_eq_ok.mp h
    have hsound := ih (extend_sound hacc hsteps.1 hargs.1 hext) hsteps.2 hargs.2 h
    rwa [List.append_assoc] at hsound

/-- A regular expression that is written is read back. -/
theorem render_sound (h : Regular e) : Faithful e := by
  induction h with
  | @intro chain steps hchain hsteps hargs ih =>
    intro r hr
    rw [Grammar.render] at hr
    obtain ⟨text, htext, hr⟩ := bind_eq_ok.mp hr
    obtain ⟨r', hr', rfl⟩ := bind_pure_eq_ok.mp hr
    obtain ⟨text', htext', hspells⟩ := write_spells (isOperandChain_iff.mpr hchain)
    obtain rfl : text' = text := Except.ok.inj (htext'.symm.trans htext)
    exact renderSteps_sound (.atom ⟨chain, rfl, hspells⟩) hsteps ih hr'

/-- A regular expression that is written is read back: the whole of its text is read as a value, and
outside a loop that value stands for the expression. -/
theorem parseValue_text_of_regular {e : Expr} {r : Rendered} (he : Regular e)
    (h : grammar.render e = .ok r) :
    ∃ v, parseValue (.ofString r.text) = .ok v ∧ v.toExpr {} = .ok e :=
  (render_sound he r h).readsValue.parseValue 0

theorem regular_of_chain {chain : List Part} (h : isOperandChain chain) :
    Regular (.ofChain chain) :=
  .intro (isOperandChain_iff.mp h) (by simp) (by simp)

theorem Regular.pipe {s : Step Expr} (h : Regular e) (hs : isRegularStep s)
    (hargs : ∀ a ∈ s.args, Regular a) : Regular (e.pipe s) := by
  cases h with
  | @intro chain steps hchain hsteps hall =>
    refine .intro hchain ?_ ?_
    · rw [List.forall_mem_append, List.forall_mem_singleton]
      exact ⟨hsteps, hs⟩
    · rw [List.forall_mem_append, List.forall_mem_singleton]
      exact ⟨hall, hargs⟩

/-- A comparison and a membership joined by a logical operator. -/
theorem parseValue_text_of_regular_logical :
    ∃ v, parseValue (.ofString "user.name == admin and tags contains 'x'") = .ok v ∧
      v.toExpr {} = .ok (((Expr.ofChain [.ident "user", .ident "name"]).apply .equal
        (.ident "admin")).apply .and ((Expr.ident "tags").apply .contains (.literal "'x'"))) := by
  have huser : isOperandChain [.ident "user", .ident "name"] := by decide +kernel
  have hadmin : isOperandChain [.ident "admin"] := by decide +kernel
  have htags : isOperandChain [.ident "tags"] := by decide +kernel
  have hx : isOperandChain [.literal "'x'"] := by decide +kernel
  have hleft :
      Regular ((Expr.ofChain [.ident "user", .ident "name"]).apply .equal (.ident "admin")) :=
    (regular_of_chain huser).pipe rfl (List.forall_mem_singleton.mpr (regular_of_chain hadmin))
  have hright : Regular ((Expr.ident "tags").apply .contains (.literal "'x'")) :=
    (regular_of_chain htags).pipe rfl (List.forall_mem_singleton.mpr (regular_of_chain hx))
  have hwhole :=
    hleft.pipe (s := .apply (.op .and) [(Expr.ident "tags").apply .contains (.literal "'x'")])
    rfl (List.forall_mem_singleton.mpr hright)
  exact parseValue_text_of_regular (r := ⟨"user.name == admin and tags contains 'x'", .operator 1⟩)
    hwhole rfl

end Stencil.Liquid

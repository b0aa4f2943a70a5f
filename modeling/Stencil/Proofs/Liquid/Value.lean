import Mathlib.Data.List.Forall2
import Stencil.Proofs.Liquid.Grouping
import Stencil.Proofs.Liquid.Operand
import Stencil.Proofs.Liquid.StandsFor

/-!
# Values and their texts

A value is read from left to right: operands with connectors between them up to a bar or the end,
and then filters. The statements here say what a text that is put together from such parts is read
as, whatever comes after it.
-/

namespace Stencil.Liquid

variable {p : Piece} {text rest : List Char} {e : Expr} {es : List Expr}
  {P Q : Operand → List Link → Prop}

/-! ### What follows a value -/

/-- Nothing more, also after a space, or a filter after a bar. -/
def AtBar (rest : List Char) : Prop :=
  rest = [] ∨ rest = [' '] ∨ ∃ more, rest = ' ' :: '|' :: more

theorem ends_space {c : Char} (hb : Text.isBlank c = false) (hc : c ≠ ':') (cs : List Char) :
    Ends (' ' :: c :: cs) := by
  refine ⟨by simp, fun d hd => ?_⟩
  rw [Text.trimStart_cons_blank (by decide), Text.trimStart_eq_self (by simpa using hb)] at hd
  obtain rfl : c = d := by simpa using hd
  exact hc

theorem AtBar.ends (h : AtBar rest) : Ends rest := by
  rcases h with rfl | rfl | ⟨more, rfl⟩
  · exact ends_nil
  · exact ⟨by simp, by decide⟩
  · exact ends_space (by decide) (by decide) more

theorem AtBar.atEnd (h : AtBar rest) (start : Nat) : atEnd (Piece.trimStart ⟨start, rest⟩) := by
  rcases h with rfl | rfl | ⟨more, rfl⟩
  · rfl
  · rfl
  · rw [Piece.trimStart_space, Piece.trimStart_eq_self (by simp; decide)]
    rfl

theorem Solid.atEnd (h : Solid text) (start : Nat) : atEnd ⟨start, text⟩ = false := by
  obtain ⟨c, cs, rfl, -, hbar⟩ := h
  simp [Liquid.atEnd, hbar]

/-! ### Connectors -/

theorem readConnector_append (c : Connector) (start : Nat) (rest : List Char) :
    readConnector ⟨start, c.text.toList ++ ' ' :: rest⟩ =
      .ok (c, ⟨start + Text.byteLength c.text.toList, ' ' :: rest⟩) := by
  cases c <;> rfl

theorem exists_cons_of_connector (c : Connector) :
    ∃ d ds, c.text.toList = d :: ds ∧ Text.isBlank d = false ∧ d ≠ '|' ∧ d ≠ ':' := by
  cases c <;> exact ⟨_, _, rfl, by decide⟩

theorem readLinks_of_atEnd (h : atEnd p.trimStart) : readLinks p = .ok ([], p.trimStart) := by
  rw [readLinks, if_pos h]

theorem readLinks_of_readLink {rest : Piece} {l : Link} (h : atEnd p.trimStart = false)
    (hl : readLink p.trimStart = .ok (l, rest)) :
    readLinks p = (readLinks rest).map fun x => (l :: x.1, x.2) := by
  rw [readLinks, if_neg (by simp [h])]
  split
  · next e he => simp [hl] at he
  · next l' rest' hl' =>
    rw [hl] at hl'
    obtain ⟨rfl, rfl⟩ := Prod.mk.inj (Except.ok.inj hl')
    cases readLinks rest <;> rfl

/-! ### Chains -/

/-- A text that is read as an operand and the links after it, of which `P` holds. -/
structure ReadsChain (text : List Char) (P : Operand → List Link → Prop) : Prop where
  solid : Solid text
  reads : ∀ start rest, Ends rest → ∃ o p ls,
    operandAt ⟨start, text ++ rest⟩ = .ok (o, p) ∧
    readLinks p = (readLinks ⟨start + Text.byteLength text, rest⟩).map
      (fun x => (ls ++ x.1, x.2)) ∧ P o ls

theorem ReadsChain.mono (h : ReadsChain text P) (hPQ : ∀ o ls, P o ls → Q o ls) :
    ReadsChain text Q := by
  refine ⟨h.solid, fun start rest hr => ?_⟩
  obtain ⟨o, p, ls, ho, hls, hP⟩ := h.reads start rest hr
  exact ⟨o, p, ls, ho, hls, hPQ o ls hP⟩

/-- An operand is a chain without links. -/
theorem Spells.readsChain {chain : List Part} (h : Spells text chain) :
    ReadsChain text fun o ls => o.toExpr {} = .ofChain chain ∧ ls = [] := by
  refine ⟨h.solid, fun start rest hr => ?_⟩
  obtain ⟨o, ho, he⟩ := h.reads start rest hr
  refine ⟨o, _, [], ho, ?_, he, rfl⟩
  cases readLinks ⟨start + Text.byteLength text, rest⟩ <;> rfl

/-- A connector with a chain after it is read as a link and the links of that chain. -/
theorem ReadsChain.readLink {right : List Char} (h : ReadsChain right Q) (c : Connector)
    (start : Nat) (hrest : Ends rest) :
    ∃ l p ls, readLink ⟨start, c.text.toList ++ ' ' :: (right ++ rest)⟩ = .ok (l, p) ∧
      readLinks p =
        (readLinks ⟨start + Text.byteLength c.text.toList + 1 + Text.byteLength right, rest⟩).map
          (fun x => (ls ++ x.1, x.2)) ∧
      l.connector = c ∧ Q l.operand ls := by
  obtain ⟨o, p, ls, ho, hls, hQ⟩ := h.reads (start + Text.byteLength c.text.toList + 1) rest hrest
  have hsolid := h.solid.append rest
  have htrim : Piece.trimStart ⟨start + Text.byteLength c.text.toList, ' ' :: (right ++ rest)⟩ =
      ⟨start + Text.byteLength c.text.toList + 1, right ++ rest⟩ := by
    rw [Piece.trimStart_space, hsolid.trimStart]
  refine ⟨⟨c, Piece.span ⟨start, c.text.toList⟩, o⟩, p, ls, ?_, hls, rfl, hQ⟩
  rw [Liquid.readLink, readConnector_append, ok_bind]
  simp only [readOperand, htrim, hsolid.atEnd, upTo_append, ho]
  rfl

/-- A connector between two chains makes one chain of them. -/
theorem ReadsChain.link {left right : List Char} (hl : ReadsChain left P) (hr : ReadsChain right Q)
    (c : Connector) :
    ReadsChain (left ++ ' ' :: c.text.toList ++ ' ' :: right) fun o ls =>
      ∃ ls₁ l ls₂, ls = ls₁ ++ l :: ls₂ ∧ l.connector = c ∧ P o ls₁ ∧ Q l.operand ls₂ := by
  refine ⟨by rw [List.append_assoc]; exact hl.solid.append _, fun start rest hrest => ?_⟩
  obtain ⟨d, ds, hd, hblank, hbar, hcolon⟩ := exists_cons_of_connector c
  have hsolid : Solid (c.text.toList ++ ' ' :: (right ++ rest)) :=
    ⟨d, _, by rw [hd]; rfl, hblank, hbar⟩
  have hends : Ends (' ' :: (c.text.toList ++ ' ' :: (right ++ rest))) := by
    rw [hd]
    exact ends_space hblank hcolon _
  obtain ⟨o, p, ls₁, ho, hls₁, hP⟩ := hl.reads start _ hends
  obtain ⟨l, p', ls₂, hlink, hls₂, hc, hQ⟩ :=
    hr.readLink c (start + Text.byteLength left + 1) hrest
  have htrim : Piece.trimStart ⟨start + Text.byteLength left,
      ' ' :: (c.text.toList ++ ' ' :: (right ++ rest))⟩ =
      ⟨start + Text.byteLength left + 1, c.text.toList ++ ' ' :: (right ++ rest)⟩ := by
    rw [Piece.trimStart_space, hsolid.trimStart]
  have hmid := readLinks_of_readLink (by rw [htrim]; exact hsolid.atEnd _)
    (by rw [htrim]; exact hlink)
  refine ⟨o, p, ls₁ ++ l :: ls₂, by simpa using ho, ?_, ls₁, l, ls₂, rfl, hc, hP, hQ⟩
  rw [hls₁, hmid, hls₂]
  have hstop : start + Text.byteLength (left ++ ' ' :: c.text.toList ++ ' ' :: right) =
      start + Text.byteLength left + 1 + Text.byteLength c.text.toList + 1 +
        Text.byteLength right := by
    simp [Text.byteLength, show ' '.utf8Size = 1 from rfl]
    omega
  rw [hstop]
  generalize readLinks _ = result
  cases result with
  | error => rfl
  | ok => simp

/-- A chain is read up to the end of a value. -/
theorem ReadsChain.readChain (h : ReadsChain text P) (hr : AtBar rest) (start : Nat) :
    ∃ o ls, readChain ⟨start, text ++ rest⟩ =
      .ok (⟨o, ls⟩, Piece.trimStart ⟨start + Text.byteLength text, rest⟩) ∧ P o ls := by
  obtain ⟨o, p, ls, ho, hls, hP⟩ := h.reads start rest hr.ends
  have hsolid := h.solid.append rest
  refine ⟨o, ls, ?_, hP⟩
  rw [Liquid.readChain]
  simp only [hsolid.trimStart, hsolid.atEnd, readOperand, ho, ok_bind, hls,
    readLinks_of_atEnd (hr.atEnd _)]
  simp

/-- The chain that a whole text is read as. -/
theorem ReadsChain.parseChain (h : ReadsChain text P) (start : Nat) :
    ∃ o ls, parseChain ⟨start, text⟩ = .ok ⟨o, ls⟩ ∧ P o ls := by
  obtain ⟨o, ls, hchain, hP⟩ := h.readChain (.inl rfl) start
  rw [List.append_nil] at hchain
  refine ⟨o, ls, ?_, hP⟩
  rw [Liquid.parseChain, hchain]
  rfl

/-- A text that is read as an operand is a single value of a clause. -/
theorem Spells.parseWhen {chain : List Part} (h : Spells text chain) (start : Nat) :
    ∃ o, parseWhen ⟨start, text⟩ = .ok [o] ∧ o.toExpr {} = .ofChain chain := by
  obtain ⟨o, hread, ho⟩ := h.reads start [] ends_nil
  rw [List.append_nil] at hread
  refine ⟨o, ?_, ho⟩
  rw [Liquid.parseWhen, readOperand, h.solid.trimStart, hread, ok_bind]
  simp only
  rw [parseMoreValues]
  rfl

/-! ### Filters -/

/-- An argument of a filter that is known by its place and stands for an expression. -/
def IsPositional (arg : FilterArg) (e : Expr) : Prop :=
  ∃ o, arg = .positional o ∧ o.toExpr {} = e

/-- A text that is read as an operand for an expression. -/
def SpellsExpr (text : List Char) (e : Expr) : Prop :=
  ∃ chain, e = .ofChain chain ∧ Spells text chain

theorem SpellsExpr.solid (h : SpellsExpr text e) : Solid text := by
  obtain ⟨chain, -, h⟩ := h
  exact h.solid

theorem SpellsExpr.readFilterArg (h : SpellsExpr text e) (hr : Ends rest) (start : Nat) :
    ∃ arg, readFilterArg ⟨start, text ++ rest⟩ = .ok (arg, ⟨start + Text.byteLength text, rest⟩) ∧
      IsPositional arg e := by
  obtain ⟨chain, rfl, h⟩ := h
  obtain ⟨o, ho, he⟩ := h.reads start rest hr
  have hread : (readOperand ⟨start, text ++ rest⟩).map (fun x => (FilterArg.positional x.1, x.2)) =
      .ok (.positional o, ⟨start + Text.byteLength text, rest⟩) := by
    rw [readOperand, (h.solid.append rest).trimStart, ho, map_ok]
  refine ⟨.positional o, ?_, o, rfl, he⟩
  -- Without a colon after it, a name at the start is not the name of the argument.
  rw [Liquid.readFilterArg]
  cases hi : readIdentifier ⟨start, text ++ rest⟩ with
  | error => exact hread
  | ok x =>
    have hcolon := h.unnamed start rest hr x.1 x.2 hi
    simp only [Except.toOption, Option.bind_some, hcolon, Option.map_none]
    exact hread

theorem readFilterArgs_last {rest : Piece} {arg : FilterArg}
    (h : readFilterArg p.trimStart = .ok (arg, rest)) (hc : eat? [','] rest = none) :
    readFilterArgs p = .ok ([arg], rest.trimStart) := by
  rw [readFilterArgs]
  split
  · simp_all
  · split <;> simp_all

theorem readFilterArgs_more {rest rest' : Piece} {arg : FilterArg}
    (h : readFilterArg p.trimStart = .ok (arg, rest)) (hc : eat? [','] rest = some rest') :
    readFilterArgs p = (readFilterArgs rest').map fun x => (arg :: x.1, x.2) := by
  rw [readFilterArgs]
  split
  · simp_all
  · next arg' r h' =>
    rw [h] at h'
    obtain ⟨rfl, rfl⟩ := Prod.mk.inj (Except.ok.inj h')
    split
    · simp_all
    · next r' hc' =>
      rw [hc] at hc'
      obtain rfl := Option.some.inj hc'
      cases readFilterArgs rest' <;> rfl

/-- Further arguments of a filter, each after a comma. -/
def commaTexts (texts : List (List Char)) : List Char :=
  texts.flatMap fun text => ',' :: ' ' :: text

theorem AtBar.noComma (h : AtBar rest) : ∀ c ∈ (Text.trimStart rest).head?, c ≠ ',' := by
  rcases h with rfl | rfl | ⟨more, rfl⟩
  · simp [Text.trimStart]
  · decide
  · intro c hc
    rw [Text.trimStart_cons_blank (by decide), Text.trimStart_eq_self (by simp; decide)] at hc
    obtain rfl : '|' = c := by simpa using hc
    decide

theorem ends_comma (cs : List Char) : Ends (',' :: cs) := by
  refine ⟨by simp, fun c hc => ?_⟩
  rw [Text.trimStart_eq_self (by simp; decide)] at hc
  obtain rfl : ',' = c := by simpa using hc
  decide

/-- Arguments separated by commas are read one after the other. -/
theorem readFilterArgs_append {texts : List (List Char)} (h : SpellsExpr text e)
    (hs : List.Forall₂ SpellsExpr texts es) (hr : AtBar rest) (start : Nat) :
    ∃ args, readFilterArgs ⟨start, ' ' :: text ++ commaTexts texts ++ rest⟩ =
        .ok (args, Piece.trimStart
          ⟨start + Text.byteLength (' ' :: text ++ commaTexts texts), rest⟩) ∧
      List.Forall₂ IsPositional args (e :: es) := by
  have htrim : ∀ more, Piece.trimStart ⟨start, ' ' :: (text ++ more)⟩ =
      ⟨start + 1, text ++ more⟩ := by
    intro more
    rw [Piece.trimStart_space, (h.solid.append more).trimStart]
  induction hs generalizing text e start with
  | nil =>
    obtain ⟨arg, harg, hpos⟩ := h.readFilterArg hr.ends (start + 1)
    refine ⟨[arg], ?_, .cons hpos .nil⟩
    rw [commaTexts, List.flatMap_nil, List.append_nil, List.cons_append,
      readFilterArgs_last (by rw [htrim]; exact harg) (eat?_eq_none hr.noComma _), Text.byteLength,
      Nat.add_assoc]
    rfl
  | @cons text' e' texts es h' hs ih =>
    obtain ⟨arg, harg, hpos⟩ :=
      h.readFilterArg (ends_comma (' ' :: text' ++ commaTexts texts ++ rest)) (start + 1)
    obtain ⟨args, hargs, hall⟩ := ih h' (start + 1 + Text.byteLength text + 1) fun more => by
      rw [Piece.trimStart_space, (h'.solid.append more).trimStart]
    refine ⟨arg :: args, ?_, .cons hpos hall⟩
    have hcons : ' ' :: text ++ commaTexts (text' :: texts) ++ rest =
        ' ' :: (text ++ ',' :: (' ' :: text' ++ commaTexts texts ++ rest)) := by
      simp [commaTexts]
    have hstop : start + Text.byteLength (' ' :: text ++ commaTexts (text' :: texts)) =
        start + 1 + Text.byteLength text + 1 +
          Text.byteLength (' ' :: text' ++ commaTexts texts) := by
      simp [commaTexts, Text.byteLength, show ' '.utf8Size = 1 from rfl,
        show ','.utf8Size = 1 from rfl]
      omega
    rw [hcons, hstop, readFilterArgs_more (by rw [htrim]; exact harg) (eat?_sign (by decide) _ _)]
    exact congrArg (Except.map fun x => (arg :: x.1, x.2)) hargs

/-- The arguments of a filter, announced by a colon if there are any. -/
def argsText : List (List Char) → List Char
  | [] => []
  | text :: texts => ':' :: ' ' :: text ++ commaTexts texts

theorem readFilterTail_append {texts : List (List Char)} (h : List.Forall₂ SpellsExpr texts es)
    (hr : AtBar rest) (start : Nat) :
    ∃ args, readFilterTail ⟨start, argsText texts ++ rest⟩ =
        .ok (args, Piece.trimStart ⟨start + Text.byteLength (argsText texts), rest⟩) ∧
      List.Forall₂ IsPositional args es := by
  cases h with
  | nil =>
    refine ⟨[], ?_, .nil⟩
    rw [argsText, List.nil_append, readFilterTail, eat?_eq_none hr.ends.2]
    rfl
  | @cons text e texts es h hs =>
    obtain ⟨args, hargs, hall⟩ := readFilterArgs_append h hs hr (start + 1)
    refine ⟨args, ?_, hall⟩
    rw [argsText, List.cons_append, List.cons_append, readFilterTail, eat?_sign (by decide)]
    simp only [Text.byteLength, ← Nat.add_assoc] at hargs ⊢
    exact hargs

/-- A text that is read as a filter for a step. -/
def ReadsFilter (text : List Char) (step : Step Expr) : Prop :=
  ∀ start rest, AtBar rest → ∃ f,
    readFilter ⟨start, text ++ rest⟩ =
      .ok (f, Piece.trimStart ⟨start + Text.byteLength text, rest⟩) ∧
    f.toStep {} = .ok step

theorem stops_argsText (texts : List (List Char)) (hr : AtBar rest) :
    Stops (argsText texts ++ rest) := by
  cases texts with
  | nil => exact hr.ends.stops
  | cons text texts => exact stops_cons (by decide) _

theorem toArgs_of_positional {name : String} {args : List FilterArg} (span : Span)
    (h : List.Forall₂ IsPositional args es) :
    Filter.toArgs {} ⟨name, args, span⟩ = ⟨name, es, []⟩ := by
  simp only [Filter.toArgs, FilterArgs.mk.injEq, true_and]
  induction h with
  | nil => exact ⟨rfl, rfl⟩
  | cons ha h ih =>
    obtain ⟨o, rfl, rfl⟩ := ha
    exact ⟨by simpa using ih.1, by simpa using ih.2⟩

/-- A name with arguments is read as a filter: the step is the one that the name and the arguments
stand for, wherever they are written. -/
theorem readsFilter {name : String} {texts : List (List Char)} {step : Step Expr}
    (hname : isIdentifier name.toList) (h : List.Forall₂ SpellsExpr texts es)
    (hstep : StepOf name ⟨name, es, []⟩ step) :
    ReadsFilter (name.toList ++ argsText texts) step := by
  intro start rest hr
  obtain ⟨args, hargs, hall⟩ := readFilterTail_append h hr (start + Text.byteLength name.toList)
  obtain ⟨c, cs, hc, hstart⟩ := exists_cons_of_isIdentifier hname
  have hblank := Text.isBlank_eq_false_of_isNameChar (Text.isNameChar_of_isNameStart hstart)
  have htrim : Piece.trimStart ⟨start, name.toList ++ argsText texts ++ rest⟩ =
      ⟨start, name.toList ++ (argsText texts ++ rest)⟩ := by
    rw [List.append_assoc]
    exact Piece.trimStart_eq_self (by simpa [hc] using hblank)
  rw [Text.byteLength_append, ← Nat.add_assoc]
  generalize Piece.trimStart ⟨_, rest⟩ = after at hargs ⊢
  refine ⟨⟨name, args, ⟨start, after.start⟩⟩, ?_, Filter.toStep_eq_ok_iff.mpr ?_⟩
  · rw [readFilter, htrim, readIdentifier_append hname (.inl (stops_argsText texts hr)), ok_bind]
    simp only [hargs, ok_bind, String.ofList_toList]
    rfl
  · rwa [toArgs_of_positional _ hall]

/-! ### Values -/

theorem readFilter_space (start : Nat) (cs : List Char) :
    readFilter ⟨start, ' ' :: cs⟩ = readFilter ⟨start + 1, cs⟩ := by
  rw [readFilter, readFilter, Piece.trimStart_space]

theorem eat?_trimStart (token : List Char) (p : Piece) : eat? token p.trimStart = eat? token p := by
  rw [eat?, eat?, Piece.trimStart_trimStart]

theorem readFilters_eq (p : Piece) :
    readFilters p = match eat? ['|'] p with
      | none => .ok ([], p.trimStart)
      | some rest => (readFilter rest).bind fun x =>
          (readFilters x.2).map fun y => (x.1 :: y.1, y.2) := by
  rw [readFilters]
  split
  · next h => rw [h]
  · next rest h =>
    rw [h]
    split
    · next e he => simp only [he, Except.bind]
    · next f after hf =>
      simp only [hf, Except.bind]
      cases readFilters after <;> rfl

theorem readFilters_trimStart (p : Piece) : readFilters p.trimStart = readFilters p := by
  rw [readFilters_eq, readFilters_eq p, eat?_trimStart, Piece.trimStart_trimStart]

/-- A text that is read as a value for an expression. -/
def ReadsValue (text : List Char) (e : Expr) : Prop :=
  ∀ start rest, AtBar rest → ∃ chain p fs,
    readChain ⟨start, text ++ rest⟩ = .ok (chain, p) ∧
    readFilters p = (readFilters ⟨start + Text.byteLength text, rest⟩).map
      (fun x => (fs ++ x.1, x.2)) ∧
    ∀ more, applyFilters {} (chain.toExpr {}) (fs ++ more) = applyFilters {} e more

/-- A chain is a value without filters. -/
theorem ReadsChain.readsValue (h : ReadsChain text fun o ls => Groups {} o ls e) :
    ReadsValue text e := by
  intro start rest hr
  obtain ⟨o, ls, hchain, hg⟩ := h.readChain hr start
  refine ⟨⟨o, ls⟩, _, [], hchain, ?_, fun more => ?_⟩
  · rw [readFilters_trimStart]
    cases readFilters ⟨start + Text.byteLength text, rest⟩ <;> rfl
  · rw [hg.toExpr_eq, List.nil_append]

/-- A filter after a value. -/
theorem ReadsValue.filter {ftext : List Char} {step : Step Expr} (h : ReadsValue text e)
    (hf : ReadsFilter ftext step) :
    ReadsValue (text ++ ' ' :: '|' :: ' ' :: ftext) (e.pipe step) := by
  intro start rest hr
  obtain ⟨chain, p, fs, hchain, hfs, he⟩ := h start (' ' :: '|' :: ' ' :: ftext ++ rest)
    (.inr (.inr ⟨_, rfl⟩))
  obtain ⟨f, hread, hstep⟩ := hf (start + Text.byteLength text + 1 + 1 + 1) rest hr
  have hstop : start + Text.byteLength (text ++ ' ' :: '|' :: ' ' :: ftext) =
      start + Text.byteLength text + 1 + 1 + 1 + Text.byteLength ftext := by
    simp [Text.byteLength, show ' '.utf8Size = 1 from rfl, show '|'.utf8Size = 1 from rfl]
    omega
  have hnext : readFilters ⟨start + Text.byteLength text, ' ' :: '|' :: ' ' :: ftext ++ rest⟩ =
      (readFilters ⟨start + Text.byteLength (text ++ ' ' :: '|' :: ' ' :: ftext), rest⟩).map
        fun y => (f :: y.1, y.2) := by
    rw [readFilters_eq, List.cons_append, List.cons_append, eat?_space, eat?_sign (by decide)]
    simp only [List.cons_append, readFilter_space, show '|'.utf8Size = 1 from rfl, hread, bind_ok,
      readFilters_trimStart, hstop]
  refine ⟨chain, p, fs ++ [f], by rwa [List.append_assoc], ?_, fun more => ?_⟩
  · rw [hfs, hnext]
    generalize readFilters _ = result
    cases result with
    | error => rfl
    | ok => simp
  · rw [List.append_assoc, List.singleton_append, he, applyFilters, hstep, ok_bind]

theorem readFilters_blank (h : rest = [] ∨ rest = [' ']) (start : Nat) :
    ∃ stop, readFilters ⟨start, rest⟩ = .ok ([], ⟨stop, []⟩) := by
  rcases h with rfl | rfl
  · exact ⟨start, by rw [readFilters_eq]; rfl⟩
  · exact ⟨start + 1, by rw [readFilters_eq]; rfl⟩

/-- The value that a whole text is read as, also with a space after it. -/
theorem ReadsValue.parseValue_append (h : ReadsValue text e) (hr : rest = [] ∨ rest = [' '])
    (start : Nat) :
    ∃ v, parseValue ⟨start, text ++ rest⟩ = .ok v ∧ v.toExpr {} = .ok e := by
  obtain ⟨chain, p, fs, hchain, hfs, he⟩ := h start rest (hr.imp_right .inl)
  obtain ⟨stop, hnone⟩ := readFilters_blank hr (start + Text.byteLength text)
  rw [hnone, map_ok] at hfs
  refine ⟨⟨chain, fs⟩, ?_, ?_⟩
  · rw [Liquid.parseValue, readValue, hchain, ok_bind]
    simp only [hfs, List.append_nil]
    rfl
  · have := he []
    rwa [List.append_nil] at this

/-- The value that a whole text is read as. -/
theorem ReadsValue.parseValue (h : ReadsValue text e) (start : Nat) :
    ∃ v, parseValue ⟨start, text⟩ = .ok v ∧ v.toExpr {} = .ok e := by
  simpa using h.parseValue_append (.inl rfl) start

/-- What comes after an operand and begins no connector is no part of a value. -/
theorem parseValue_eq_error {rest : Piece} {o : Operand} {error : ReadError}
    (hp : atEnd p.trimStart = false) (ho : readOperand p.trimStart = .ok (o, rest))
    (hr : atEnd rest.trimStart = false) (hc : readConnector rest.trimStart = .error error) :
    parseValue p = .error error := by
  have hlink : readLink rest.trimStart = .error error := by
    rw [readLink, hc]
    rfl
  have hlinks : readLinks rest = .error error := by
    rw [readLinks, if_neg (by simp [hr])]
    split
    · next he =>
      obtain rfl := Except.error.inj (he.symm.trans hlink)
      rfl
    · next h => exact absurd (h.symm.trans hlink) (by simp)
  rw [parseValue, readValue, readChain]
  simp only [hp, ho, Bool.false_eq_true, if_false, ok_bind, hlinks]
  rfl

theorem readValue_space (start : Nat) (cs : List Char) :
    readValue ⟨start, ' ' :: cs⟩ = readValue ⟨start + 1, cs⟩ := by
  rw [readValue, readValue, readChain, readChain, Piece.trimStart_space]

/-- The value that a text between spaces is read as, as it stands in an output. -/
theorem ReadsValue.parseValue_padded (h : ReadsValue text e) (start : Nat) :
    ∃ v, Liquid.parseValue ⟨start, ' ' :: text ++ [' ']⟩ = .ok v ∧ v.toExpr {} = .ok e := by
  rw [Liquid.parseValue, List.cons_append, readValue_space]
  exact h.parseValue_append (.inr rfl) (start + 1)

end Stencil.Liquid

import Stencil.Nunjucks.Tree
import Stencil.Proofs.Nunjucks.Lexing

/-!
# The tokens that a term takes up

A parser takes tokens off the front of a list and leaves the others, whatever the level of the
grammar. All that a term is made of comes from the tokens that it takes up: its variables, its
literals, the names of its filters and the keywords of their arguments. Where it takes up an opening
brace, it takes up a closing one later on, because braces only stand around a dictionary.
-/

namespace Stencil.Nunjucks

/-! ### Braces -/

theorem Token.isSign_eq_false_of_ne {t : Token} {sign sign' : String} (h : t.isSign sign)
    (hne : sign ≠ sign') : t.isSign sign' = false := by
  by_contra h'
  rw [Bool.not_eq_false, Token.isSign, Bool.and_eq_true, beq_iff_eq, beq_iff_eq] at h'
  rw [Token.isSign, Bool.and_eq_true, beq_iff_eq, beq_iff_eq] at h
  exact hne (String.toList_inj.mp (h.2.symm.trans h'.2))

theorem Token.isSign_eq_false_of_kind {t : Token} (h : t.kind ≠ .sign) (sign : String) :
    t.isSign sign = false := by
  rw [Token.isSign, beq_eq_false_iff_ne.mpr h, Bool.false_and]

/-- A closing brace comes after every opening one. -/
def Matched (ts : List Token) : Prop :=
  ∀ before t after, ts = before ++ t :: after → t.isSign "\x7b" → ∃ u ∈ after, u.isSign "\x7d"

namespace Matched

variable {ts us : List Token} {t : Token}

theorem nil : Matched [] := by
  intro before t after h
  simp at h

theorem singleton (h : t.isSign "\x7b" = false) : Matched [t] := by
  intro before u after hu hopen
  cases before with
  | nil =>
    obtain ⟨rfl, -⟩ := List.cons.inj hu
    rw [h] at hopen
    cases hopen
  | cons v before => simp at hu

theorem append (h : Matched ts) (h' : Matched us) : Matched (ts ++ us) := by
  intro before t after ht hopen
  rcases List.append_eq_append_iff.mp ht with ⟨mid, rfl, hus⟩ | ⟨mid, hts, hafter⟩
  · exact h' mid t after hus hopen
  · cases mid with
    | nil => exact h' [] t after (by simpa using hafter.symm) hopen
    | cons u mid =>
      obtain ⟨rfl, rfl⟩ := List.cons.inj hafter
      obtain ⟨u, hu, hclose⟩ := h before t mid hts hopen
      exact ⟨u, List.mem_append_left us hu, hclose⟩

/-- A closing brace after all. -/
theorem cons (h : Matched ts) (hclose : ∃ u ∈ ts, u.isSign "\x7d") : Matched (t :: ts) := by
  intro before u after hu hopen
  cases before with
  | nil =>
    obtain ⟨-, rfl⟩ := List.cons.inj hu
    exact hclose
  | cons v before =>
    obtain ⟨-, hts⟩ := List.cons.inj hu
    exact h before u after hts hopen

end Matched

/-! ### Tokens that are taken up -/

/-- Some tokens are taken off the front of `ts` and `rest` is left. The braces among them are
matched, and `q` holds if all of them have the property `P`. -/
def Uses (P : Token → Prop) (ts rest : List Token) (q : Prop) : Prop :=
  ∃ used, ts = used ++ rest ∧ Matched used ∧ ((∀ t ∈ used, P t) → q)

/-- What the parser reads has the property `Q`, if all tokens that it takes up have `P`. -/
def Takes {α : Type} (P : Token → Prop) (parser : Parser α) (Q : α → Prop) : Prop :=
  ∀ ts x rest, parser ts = .ok (x, rest) → Uses P ts rest (Q x)

section Uses

variable {P : Token → Prop} {ts us rest : List Token} {t : Token} {p q : Prop} {ending : Ending}
  {sign name : String}

namespace Uses

theorem refl (ts : List Token) (h : q) : Uses P ts ts q :=
  ⟨[], rfl, .nil, fun _ => h⟩

theorem trans (h : Uses P ts us p) (h' : Uses P us rest q) : Uses P ts rest (p ∧ q) := by
  obtain ⟨used, rfl, hm, hp⟩ := h
  obtain ⟨used', rfl, hm', hq⟩ := h'
  refine ⟨used ++ used', (List.append_assoc _ _ _).symm, hm.append hm', fun hP => ?_⟩
  rw [List.forall_mem_append] at hP
  exact ⟨hp hP.1, hq hP.2⟩

theorem imp (h : Uses P ts rest p) (hpq : p → q) : Uses P ts rest q := by
  obtain ⟨used, hts, hm, hp⟩ := h
  exact ⟨used, hts, hm, fun hP => hpq (hp hP)⟩

/-- Where all tokens have the property, so have those that are left. -/
theorem of_forall (h : Uses P ts rest q) (hP : ∀ t ∈ ts, P t) : q ∧ ∀ t ∈ rest, P t := by
  obtain ⟨used, rfl, -, hq⟩ := h
  rw [List.forall_mem_append] at hP
  exact ⟨hq hP.1, hP.2⟩

theorem cons (h : t.isSign "\x7b" = false) : Uses P (t :: ts) ts (P t) :=
  ⟨[t], rfl, .singleton h, fun hP => hP t (List.mem_singleton.mpr rfl)⟩

/-- A token that is no sign. -/
theorem cons_kind (h : t.kind ≠ .sign) : Uses P (t :: ts) ts (P t) :=
  cons (Token.isSign_eq_false_of_kind h _)

theorem cons_name (h : t.isName name) : Uses P (t :: ts) ts (P t) := by
  rw [Token.isName, Bool.and_eq_true, beq_iff_eq] at h
  exact cons_kind (by simp [h.1])

theorem eatSign? (h : eatSign? sign ts = some rest) (hs : sign ≠ "\x7b") :
    Uses P ts rest True := by
  cases ts with
  | nil => cases h
  | cons t ts =>
    rw [Nunjucks.eatSign?] at h
    split at h
    · next ht =>
      cases h
      exact (cons (Token.isSign_eq_false_of_ne ht hs)).imp fun _ => trivial
    · cases h

theorem eatName? (h : eatName? name ts = some rest) : Uses P ts rest True := by
  cases ts with
  | nil => cases h
  | cons t ts =>
    rw [Nunjucks.eatName?] at h
    split at h
    · next ht =>
      cases h
      exact (cons_name ht).imp fun _ => trivial
    · cases h

theorem expectSign (h : expectSign ending sign ts = .ok rest) (hs : sign ≠ "\x7b") :
    Uses P ts rest True := by
  unfold Nunjucks.expectSign at h
  split at h
  · next hrest =>
    cases h
    exact eatSign? hrest hs
  · cases h

end Uses

theorem takes_expectName (ending : Ending) :
    Takes P (expectName ending) fun name => P ⟨.name, name⟩ := by
  intro ts x rest h
  unfold expectName at h
  split at h
  · cases h
    exact .cons_kind (by simp)
  · cases h

end Uses

/-! ### Terms -/

/-- A name with dots in it that is made of tokens with the property `P`. -/
inductive DottedFrom (P : Token → Prop) : String → Prop
  | single {name : Piece} (h : P ⟨.name, name⟩) : DottedFrom P name.toString
  | dot {name : String} {last : Piece} (h : DottedFrom P name) (hl : P ⟨.name, last⟩) :
      DottedFrom P (name ++ "." ++ last.toString)

/-- A name that is a token with the property `P`. -/
def NameFrom (P : Token → Prop) (name : String) : Prop :=
  ∃ text : Piece, name = text.toString ∧ P ⟨.name, text⟩

/-- A term that is made of tokens with the property `P`. -/
inductive Term.From (P : Token → Prop) : Term → Prop
  | symbol {name} (h : P ⟨.name, name⟩) : From P (.symbol name)
  | literal {kind} {t : Token} (h : P t) : From P (.literal kind t.text)
  | lookup {target key} (ht : From P target) (hk : From P key) : From P (.lookup target key)
  | group {inner} (h : From P inner) : From P (.group inner)
  | filter {name target args keywords} (hn : DottedFrom P name) (ht : From P target)
      (ha : ∀ x ∈ args, From P x) (hw : ∀ entry ∈ keywords, NameFrom P (Prod.fst entry))
      (hk : ∀ entry ∈ keywords, From P (Prod.snd entry)) :
      From P (.filter name target args keywords)
  | binary {op left right} (hl : From P left) (hr : From P right) : From P (.binary op left right)
  | comparison {first rest} (hf : From P first) (hr : ∀ c ∈ rest, From P (Prod.snd c)) :
      From P (.comparison first rest)
  | negated {target} (h : From P target) : From P (.negated target)
  | opposite {target} (h : From P target) : From P (.opposite target)
  | test {subject condition} (hs : From P subject) (hc : From P condition) :
      From P (.test subject condition)
  | call {function args} (hf : From P function) (ha : ∀ x ∈ args, From P x) :
      From P (.call function args)
  | choice {condition body otherwise} (hc : From P condition) (hb : From P body)
      (ho : ∀ x ∈ otherwise, From P x) : From P (.choice condition body otherwise)
  | array {items} (h : ∀ x ∈ items, From P x) : From P (.array items)
  | dict {entries} (hk : ∀ entry ∈ entries, From P (Prod.fst entry))
      (hv : ∀ entry ∈ entries, From P (Prod.snd entry)) : From P (.dict entries)

/-! ### Lists -/

section Lists

variable {P : Token → Prop} {α : Type} {item : Parser α} {Q : α → Prop}

theorem uses_itemsUntil {ending : Ending} {closing : String} (hc : closing ≠ "\x7b")
    (hi : Takes P item Q) {fuel : Nat} {isFirst : Bool} {ts rest : List Token} {xs : List α}
    (h : itemsUntil ending closing item fuel isFirst ts = .ok (xs, rest)) :
    ∃ used, ts = used ++ rest ∧ Matched used ∧ (∃ t ∈ used, t.isSign closing) ∧
      ((∀ t ∈ used, P t) → ∀ x ∈ xs, Q x) := by
  induction fuel generalizing isFirst ts xs with
  | zero => cases h
  | succ fuel ih =>
    rw [itemsUntil] at h
    split at h
    · next hclose =>
      cases h
      cases ts with
      | nil => cases hclose
      | cons t ts =>
        rw [eatSign?] at hclose
        split at hclose
        · next ht =>
          cases hclose
          refine ⟨[t], rfl, .singleton (Token.isSign_eq_false_of_ne ht hc), ⟨t, by simp, ht⟩, ?_⟩
          simp
        · cases hclose
    · obtain ⟨ts₁, h₁, h⟩ : ∃ ts₁, Uses P ts ts₁ True ∧ (item ts₁ >>= fun x =>
          itemsUntil ending closing item fuel false x.2 >>= fun xs =>
            pure (x.1 :: xs.1, xs.2)) = .ok (xs, rest) := by
        cases isFirst with
        | true => exact ⟨ts, .refl ts trivial, h⟩
        | false =>
          obtain ⟨ts₁, h₁, h⟩ := bind_eq_ok.mp h
          exact ⟨ts₁, .expectSign h₁ (by decide), h⟩
      obtain ⟨⟨x, ts₂⟩, h₂, h⟩ := bind_eq_ok.mp h
      obtain ⟨⟨xs', ts₃⟩, h₃, h⟩ := bind_eq_ok.mp h
      cases h
      obtain ⟨used, rfl, hm, hx⟩ := h₁.trans (hi _ _ _ h₂)
      obtain ⟨used', rfl, hm', ⟨t, ht, hclose⟩, hxs⟩ := ih h₃
      refine ⟨used ++ used', (List.append_assoc _ _ _).symm, hm.append hm',
        ⟨t, List.mem_append_right used ht, hclose⟩, fun hP => ?_⟩
      rw [List.forall_mem_append] at hP
      exact List.forall_mem_cons.mpr ⟨(hx hP.1).2, hxs hP.2⟩

theorem takes_items (ending : Ending) {closing : String} (hc : closing ≠ "\x7b")
    (hi : Takes P item Q) : Takes P (items ending closing item) fun xs => ∀ x ∈ xs, Q x := by
  intro ts xs rest h
  obtain ⟨used, hts, hm, -, hxs⟩ := uses_itemsUntil hc hi h
  exact ⟨used, hts, hm, hxs⟩

/-- What stands between braces. -/
theorem uses_braces {ending : Ending} {t : Token} {ts rest : List Token} {xs : List α}
    (hi : Takes P item Q) (h : items ending "\x7d" item ts = .ok (xs, rest)) :
    Uses P (t :: ts) rest (∀ x ∈ xs, Q x) := by
  obtain ⟨used, rfl, hm, hclose, hxs⟩ := uses_itemsUntil (by decide) hi h
  exact ⟨t :: used, rfl, hm.cons hclose, fun hP => hxs (List.forall_mem_cons.mp hP).2⟩

end Lists

/-! ### Primary terms -/

section Terms

variable {P : Token → Prop} {nested : Nested} {operand : Parser Term} {x : Term}

/-- What is read inside brackets is made of the tokens there. -/
structure Nested.Takes (P : Token → Prop) (nested : Nested) : Prop where
  term : Nunjucks.Takes P nested.term (Term.From P)
  key : Nunjucks.Takes P nested.key (Term.From P)

/-- An argument that is made of tokens with the property `P`. -/
def CallArg.From (P : Token → Prop) : CallArg → Prop
  | positional value => value.From P
  | keyword key value => NameFrom P key ∧ value.From P

theorem takes_callArg (hn : nested.Takes P) : Takes P (callArg nested) (CallArg.From P) := by
  intro ts arg rest h
  unfold callArg at h
  split at h
  · next key t ts =>
    split at h
    · next heq =>
      obtain ⟨⟨value, ts₁⟩, hvalue, h⟩ := bind_eq_ok.mp h
      cases h
      have hkey : Uses P (⟨.name, key⟩ :: t :: ts) (t :: ts) (P ⟨.name, key⟩) :=
        .cons_kind (by simp)
      have hsign : Uses P (t :: ts) ts (P t) :=
        .cons (Token.isSign_eq_false_of_ne heq (by decide))
      exact ((hkey.trans hsign).trans (hn.term _ _ _ hvalue)).imp
        fun hused => ⟨⟨key, rfl, hused.1.1⟩, hused.2⟩
    · obtain ⟨⟨value, ts₁⟩, hvalue, h⟩ := bind_eq_ok.mp h
      cases h
      exact hn.term _ _ _ hvalue
  · obtain ⟨⟨value, ts₁⟩, hvalue, h⟩ := bind_eq_ok.mp h
    cases h
    exact hn.term _ _ _ hvalue

theorem from_positionalArgs {args : List CallArg} (h : ∀ arg ∈ args, arg.From P) :
    ∀ x ∈ positionalArgs args, x.From P := by
  intro x hx
  obtain ⟨arg, harg, hx⟩ := List.mem_filterMap.mp hx
  cases arg with
  | positional value => exact Option.some.inj hx ▸ h _ harg
  | keyword key value => cases hx

theorem from_keywordArgs {args : List CallArg} (h : ∀ arg ∈ args, arg.From P) :
    ∀ entry ∈ keywordArgs args, NameFrom P entry.1 ∧ entry.2.From P := by
  intro entry he
  obtain ⟨arg, harg, he⟩ := List.mem_filterMap.mp he
  cases arg with
  | positional value => cases he
  | keyword key value => exact Option.some.inj he ▸ h _ harg

theorem takes_dictEntry (ending : Ending) (hn : nested.Takes P) :
    Takes P (dictEntry ending nested) fun entry => entry.1.From P ∧ entry.2.From P := by
  intro ts entry rest h
  obtain ⟨⟨key, ts₁⟩, hkey, h⟩ := bind_eq_ok.mp h
  obtain ⟨ts₂, hcolon, h⟩ := bind_eq_ok.mp h
  obtain ⟨⟨value, ts₃⟩, hvalue, h⟩ := bind_eq_ok.mp h
  cases h
  have hsign := Uses.expectSign (P := P) hcolon (by decide)
  exact (((hn.key _ _ _ hkey).trans hsign).trans (hn.term _ _ _ hvalue)).imp
    fun hused => ⟨hused.1.1, hused.2⟩

theorem from_wordTerm {word : Piece} (h : P ⟨.name, word⟩) : (wordTerm word).From P := by
  unfold wordTerm
  split
  · exact .literal h
  · split
    · exact .literal h
    · exact .symbol h

theorem takes_atom (ending : Ending) (hn : nested.Takes P) :
    Takes P (atom ending nested) (Term.From P) := by
  intro ts x rest h
  unfold atom at h
  split at h
  · cases h
  · cases h
    exact (Uses.cons_kind (by simp)).imp fun ht => .literal ht
  · cases h
    exact (Uses.cons_kind (by simp)).imp fun ht => .literal ht
  · cases h
    exact (Uses.cons_kind (by simp)).imp fun ht => from_wordTerm ht
  · next text ts =>
    split at h
    · next hopen =>
      obtain ⟨⟨inner, ts₁⟩, hinner, h⟩ := bind_eq_ok.mp h
      obtain ⟨ts₂, hclose, h⟩ := bind_eq_ok.mp h
      cases h
      have hfirst : Uses P (⟨.sign, text⟩ :: ts) ts (P ⟨.sign, text⟩) :=
        .cons (by simp [Token.isSign, beq_iff_eq.mp hopen])
      have hlast := Uses.expectSign (P := P) hclose (by decide)
      exact ((hfirst.trans (hn.term _ _ _ hinner)).trans hlast).imp fun hused => .group hused.1.2
    split at h
    · next hopen =>
      obtain ⟨⟨xs, ts₁⟩, hitems, h⟩ := bind_eq_ok.mp h
      cases h
      have hfirst : Uses P (⟨.sign, text⟩ :: ts) ts (P ⟨.sign, text⟩) :=
        .cons (by simp [Token.isSign, beq_iff_eq.mp hopen])
      exact (hfirst.trans (takes_items ending (by decide) hn.term _ _ _ hitems)).imp
        fun hused => .array hused.2
    split at h
    · obtain ⟨⟨entries, ts₁⟩, hitems, h⟩ := bind_eq_ok.mp h
      cases h
      exact (uses_braces (takes_dictEntry ending hn) hitems).imp
        fun hused => .dict (fun e he => (hused e he).1) fun e he => (hused e he).2
    · cases h

theorem takes_accesses (ending : Ending) (hn : nested.Takes P) (fuel : Nat) (x : Term) :
    Takes P (accesses ending nested fuel x) fun y => x.From P → y.From P := by
  induction fuel generalizing x with
  | zero =>
    intro ts y rest h
    cases h
    exact .refl ts id
  | succ fuel ih =>
    intro ts y rest h
    rw [accesses] at h
    split at h
    · next hdot =>
      obtain ⟨⟨name, ts₁⟩, hname, h⟩ := bind_eq_ok.mp h
      have hsign := Uses.eatSign? (P := P) hdot (by decide)
      refine ((hsign.trans (takes_expectName ending _ _ _ hname)).trans (ih _ _ _ _ h)).imp ?_
      exact fun hused hx => hused.2 (.lookup hx (.literal hused.1.2))
    split at h
    · next hopen =>
      obtain ⟨⟨key, ts₁⟩, hkey, h⟩ := bind_eq_ok.mp h
      obtain ⟨ts₂, hclose, h⟩ := bind_eq_ok.mp h
      have hfirst := Uses.eatSign? (P := P) hopen (by decide)
      have hlast := Uses.expectSign (P := P) hclose (by decide)
      refine (((hfirst.trans (hn.term _ _ _ hkey)).trans hlast).trans (ih _ _ _ _ h)).imp ?_
      exact fun hused hx => hused.2 (.lookup hx hused.1.1.2)
    split at h
    · next hopen =>
      obtain ⟨⟨args, ts₁⟩, hargs, h⟩ := bind_eq_ok.mp h
      have hfirst := Uses.eatSign? (P := P) hopen (by decide)
      have hlist := takes_items ending (by decide) (takes_callArg hn) _ _ _ hargs
      refine ((hfirst.trans hlist).trans (ih _ _ _ _ h)).imp fun hused hx => ?_
      refine hused.2 (.call hx ?_)
      rw [List.forall_mem_append, List.forall_mem_map]
      exact ⟨from_positionalArgs hused.1.2, fun e he => (from_keywordArgs hused.1.2 e he).2⟩
    · cases h
      exact .refl ts id

theorem takes_primary (ending : Ending) (hn : nested.Takes P) :
    Takes P (primary ending nested) (Term.From P) := by
  intro ts x rest h
  obtain ⟨⟨y, ts₁⟩, hy, h⟩ := bind_eq_ok.mp h
  exact ((takes_atom ending hn _ _ _ hy).trans (takes_accesses ending hn _ _ _ _ _ h)).imp
    fun hused => hused.2 hused.1

/-! ### Filters and signs -/

theorem takes_dottedName (ending : Ending) (name : String) :
    Takes P (dottedName ending name) fun y => DottedFrom P name → DottedFrom P y := by
  intro ts y rest h
  fun_induction dottedName ending name ts with
  | case1 name t hdot start ts ih =>
    have hsign : Uses P (t :: ⟨.name, start⟩ :: ts) (⟨.name, start⟩ :: ts) (P t) :=
      .cons (Token.isSign_eq_false_of_ne hdot (by decide))
    have hname : Uses P (⟨.name, start⟩ :: ts) ts (P ⟨.name, start⟩) := .cons_kind (by simp)
    exact ((hsign.trans hname).trans (ih h)).imp fun hused hn => hused.2 (.dot hn hused.1.2)
  | case2 => cases h
  | case3 | case4 =>
    cases h
    exact .refl _ id

theorem takes_filterArgs (ending : Ending) (hn : nested.Takes P) :
    Takes P (filterArgs ending nested) fun args => ∀ arg ∈ args, arg.From P := by
  intro ts args rest h
  unfold filterArgs at h
  split at h
  · next hopen =>
    have hfirst := Uses.eatSign? (P := P) hopen (by decide)
    exact (hfirst.trans (takes_items ending (by decide) (takes_callArg hn) _ _ _ h)).imp
      fun hused => hused.2
  · cases h
    exact .refl ts (by simp)

theorem takes_filters (ending : Ending) (hn : nested.Takes P) (fuel : Nat) (x : Term) :
    Takes P (filters ending nested fuel x) fun y => x.From P → y.From P := by
  induction fuel generalizing x with
  | zero =>
    intro ts y rest h
    cases h
    exact .refl ts id
  | succ fuel ih =>
    intro ts y rest h
    rw [filters] at h
    split at h
    · cases h
      exact .refl ts id
    · next hbar =>
      obtain ⟨⟨first, ts₁⟩, hfirst, h⟩ := bind_eq_ok.mp h
      obtain ⟨⟨name, ts₂⟩, hname, h⟩ := bind_eq_ok.mp h
      obtain ⟨⟨args, ts₃⟩, hargs, h⟩ := bind_eq_ok.mp h
      have hsign := Uses.eatSign? (P := P) hbar (by decide)
      have hnames := (takes_expectName (P := P) ending _ _ _ hfirst).trans
        (takes_dottedName ending _ _ _ _ hname)
      have hlist := takes_filterArgs ending hn _ _ _ hargs
      refine (((hsign.trans hnames).trans hlist).trans (ih _ _ _ _ h)).imp ?_
      rintro ⟨⟨⟨-, hstart, hrest⟩, ha⟩, hmore⟩ hx
      exact hmore (.filter (hrest (.single hstart)) hx (from_positionalArgs ha)
        (fun e he => (from_keywordArgs ha e he).1) fun e he => (from_keywordArgs ha e he).2)

theorem takes_signed (ending : Ending) (hn : nested.Takes P) :
    Takes P (signed ending nested) (Term.From P) := by
  intro ts x rest h
  induction ts generalizing x rest with
  | nil => exact takes_primary ending hn _ _ _ h
  | cons t ts ih =>
    rw [signed] at h
    split at h
    · next hminus =>
      obtain ⟨⟨y, ts₁⟩, hy, h⟩ := bind_eq_ok.mp h
      have hsign : Uses P (t :: ts) ts (P t) :=
        .cons (Token.isSign_eq_false_of_ne hminus (by decide))
      exact ((hsign.trans (ih _ _ hy)).trans (takes_filters ending hn _ _ _ _ _ h)).imp
        fun hused => hused.2 (.opposite hused.1.2)
    · obtain ⟨⟨y, ts₁⟩, hy, h⟩ := bind_eq_ok.mp h
      exact ((takes_primary ending hn _ _ _ hy).trans (takes_filters ending hn _ _ _ _ _ h)).imp
        fun hused => hused.2 hused.1

/-! ### Operators -/

/-- A table of operators that has no brace. -/
def Braceless (operator? : Token → Option Binary) : Prop :=
  ∀ t op, operator? t = some op → t.isSign "\x7b" = false

theorem braceless_signOf {table : List (String × Binary)} (h : table.lookup "\x7b" = none) :
    Braceless (signOf table) := by
  intro t op ht
  unfold signOf at ht
  split at ht
  · by_contra hopen
    rw [Bool.not_eq_false, Token.isSign, Bool.and_eq_true, beq_iff_eq, beq_iff_eq] at hopen
    rw [Piece.toString, hopen.2, String.ofList_toList, h] at ht
    cases ht
  · cases ht

theorem braceless_wordOf (word : String) (op : Binary) : Braceless (wordOf word op) := by
  intro t op' ht
  unfold wordOf at ht
  split at ht
  · next hname =>
    rw [Token.isName, Bool.and_eq_true, beq_iff_eq] at hname
    exact Token.isSign_eq_false_of_kind (by simp [hname.1]) _
  · cases ht

theorem takes_binaryRest {operator? : Token → Option Binary} (hb : Braceless operator?)
    (ho : Takes P operand (Term.From P)) (fuel : Nat) (x : Term) :
    Takes P (binaryRest operator? operand fuel x) fun y => x.From P → y.From P := by
  induction fuel generalizing x with
  | zero =>
    intro ts y rest h
    cases h
    exact .refl ts id
  | succ fuel ih =>
    intro ts y rest h
    cases ts with
    | nil =>
      cases h
      exact .refl [] id
    | cons t ts =>
      rw [binaryRest] at h
      split at h
      · cases h
        exact .refl _ id
      · next op hop =>
        obtain ⟨⟨right, ts₁⟩, hright, h⟩ := bind_eq_ok.mp h
        have hsign : Uses P (t :: ts) ts (P t) := .cons (hb t op hop)
        exact ((hsign.trans (ho _ _ _ hright)).trans (ih _ _ _ _ h)).imp
          fun hused hx => hused.2 (.binary hx hused.1.2)

theorem takes_binaryLevel {operator? : Token → Option Binary} (hb : Braceless operator?)
    (ho : Takes P operand (Term.From P)) :
    Takes P (binaryLevel operator? operand) (Term.From P) := by
  intro ts x rest h
  obtain ⟨⟨left, ts₁⟩, hleft, h⟩ := bind_eq_ok.mp h
  exact ((ho _ _ _ hleft).trans (takes_binaryRest hb ho _ _ _ _ _ h)).imp
    fun hused => hused.2 hused.1

theorem takes_comparisonRest (ho : Takes P operand (Term.From P)) (fuel : Nat) :
    Takes P (comparisonRest operand fuel) fun rest => ∀ c ∈ rest, c.2.From P := by
  induction fuel with
  | zero =>
    intro ts y rest h
    cases h
    exact .refl ts (by simp)
  | succ fuel ih =>
    intro ts y rest h
    cases ts with
    | nil =>
      cases h
      exact .refl [] (by simp)
    | cons t ts =>
      rw [comparisonRest] at h
      split at h
      · cases h
        exact .refl _ (by simp)
      · next c hc =>
        obtain ⟨⟨right, ts₁⟩, hright, h⟩ := bind_eq_ok.mp h
        obtain ⟨⟨more, ts₂⟩, hmore, h⟩ := bind_eq_ok.mp h
        cases h
        have hbrace : t.isSign "\x7b" = false := by
          by_contra hopen
          rw [Bool.not_eq_false, Token.isSign, Bool.and_eq_true, beq_iff_eq, beq_iff_eq] at hopen
          rw [Piece.toString, hopen.1, hopen.2, if_pos rfl, String.ofList_toList] at hc
          cases hc
        have hsign : Uses P (t :: ts) ts (P t) := .cons hbrace
        exact ((hsign.trans (ho _ _ _ hright)).trans (ih _ _ _ hmore)).imp
          fun hused => List.forall_mem_cons.mpr ⟨hused.1.2, hused.2⟩

theorem takes_comparisons (ho : Takes P operand (Term.From P)) :
    Takes P (comparisons operand) (Term.From P) := by
  intro ts x rest h
  obtain ⟨⟨first, ts₁⟩, hfirst, h⟩ := bind_eq_ok.mp h
  obtain ⟨⟨more, ts₂⟩, hmore, h⟩ := bind_eq_ok.mp h
  cases h
  refine ((ho _ _ _ hfirst).trans (takes_comparisonRest ho _ _ _ _ hmore)).imp fun hused => ?_
  split
  · exact hused.1
  · exact .comparison hused.1 hused.2

theorem takes_tests (ho : Takes P operand (Term.From P)) :
    Takes P (tests operand) (Term.From P) := by
  intro ts x rest h
  obtain ⟨⟨subject, ts₁⟩, hsubject, h⟩ := bind_eq_ok.mp h
  have hsub := ho _ _ _ hsubject
  simp only at h
  split at h
  · cases h
    exact hsub
  next his =>
  have hword := Uses.eatName? (P := P) his
  split at h
  · obtain ⟨⟨condition, ts₂⟩, hcondition, h⟩ := bind_eq_ok.mp h
    cases h
    exact ((hsub.trans hword).trans (ho _ _ _ hcondition)).imp
      fun hused => .test hused.1.1 hused.2
  · next hnot =>
    obtain ⟨⟨condition, ts₂⟩, hcondition, h⟩ := bind_eq_ok.mp h
    cases h
    exact (((hsub.trans hword).trans (.eatName? hnot)).trans (ho _ _ _ hcondition)).imp
      fun hused => .negated (.test hused.1.1.1 hused.2)

theorem takes_negations (ho : Takes P operand (Term.From P)) :
    Takes P (negations operand) (Term.From P) := by
  intro ts x rest h
  induction ts generalizing x rest with
  | nil => exact ho _ _ _ h
  | cons t ts ih =>
    rw [negations] at h
    split at h
    · next hnot =>
      obtain ⟨⟨y, ts₁⟩, hy, h⟩ := bind_eq_ok.mp h
      cases h
      have hword : Uses P (t :: ts) ts (P t) := .cons_name hnot
      exact (hword.trans (ih _ _ hy)).imp fun hused => .negated hused.2
    · exact ho _ _ _ h

theorem takes_choices (ho : Takes P operand (Term.From P)) :
    Takes P (choices operand) (Term.From P) := by
  intro ts x rest h
  obtain ⟨⟨body, ts₁⟩, hbody, h⟩ := bind_eq_ok.mp h
  have hb := ho _ _ _ hbody
  simp only at h
  split at h
  · cases h
    exact hb
  next hif =>
  obtain ⟨⟨condition, ts₂⟩, hcondition, h⟩ := bind_eq_ok.mp h
  have hc := (hb.trans (.eatName? hif)).trans (ho _ _ _ hcondition)
  simp only at h
  split at h
  · cases h
    exact hc.imp fun hused => .choice hused.2 hused.1.1 (by simp)
  · next helse =>
    obtain ⟨⟨otherwise, ts₃⟩, hotherwise, h⟩ := bind_eq_ok.mp h
    cases h
    exact ((hc.trans (.eatName? helse)).trans (ho _ _ _ hotherwise)).imp
      fun hused => .choice hused.1.1.2 hused.1.1.1.1 (by simpa using hused.2)

/-! ### Whole terms -/

theorem takes_termOver (ending : Ending) (hn : nested.Takes P) :
    Takes P (termOver ending nested) (Term.From P) :=
  takes_choices <| takes_binaryLevel (braceless_wordOf _ _) <|
    takes_binaryLevel (braceless_wordOf _ _) <| takes_negations <|
      takes_binaryLevel (braceless_wordOf _ _) <| takes_tests <| takes_comparisons <|
        takes_binaryLevel (braceless_signOf rfl) <| takes_binaryLevel (braceless_signOf rfl) <|
          takes_binaryLevel (braceless_signOf rfl) <| takes_binaryLevel (braceless_signOf rfl) <|
            takes_signed ending hn

theorem takes_nestedTo (ending : Ending) (depth : Nat) : (nestedTo ending depth).Takes P := by
  induction depth with
  | zero =>
    refine ⟨fun _ _ _ h => ?_, fun _ _ _ h => ?_⟩
    · cases h
    · cases h
  | succ depth ih => exact ⟨takes_termOver ending ih, takes_primary ending ih⟩

/-- A term is made of the tokens that it takes up. -/
theorem takes_parseTerm (ending : Ending) : Takes P (parseTerm ending) (Term.From P) :=
  fun ts => takes_termOver ending (takes_nestedTo ending ts.length) ts

/-- A list of names is made of the tokens that it takes up. -/
theorem takes_nameList (ending : Ending) :
    Takes P (nameList ending) fun names => ∀ name ∈ names, NameFrom P name := by
  intro ts names rest h
  fun_induction nameList ending ts generalizing names with
  | case1 text t ts hcomma ih =>
    obtain ⟨⟨more, ts₁⟩, hmore, h⟩ := bind_eq_ok.mp h
    cases h
    have hname : Uses P (⟨.name, text⟩ :: t :: ts) (t :: ts) (P ⟨.name, text⟩) :=
      .cons_kind (by simp)
    have hsign : Uses P (t :: ts) ts (P t) :=
      .cons (Token.isSign_eq_false_of_ne hcomma (by decide))
    exact ((hname.trans hsign).trans (ih _ hmore)).imp
      fun hused => List.forall_mem_cons.mpr ⟨⟨text, rfl, hused.1.1⟩, hused.2⟩
  | case2 text t ts _ | case3 text =>
    cases h
    exact (Uses.cons_kind (by simp)).imp
      fun ht => List.forall_mem_singleton.mpr ⟨text, rfl, ht⟩
  | case4 => cases h

end Terms

end Stencil.Nunjucks

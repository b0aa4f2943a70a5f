import Stencil.Proofs.Agreement
import Stencil.Proofs.Nunjucks.Consumption
import Stencil.Proofs.Nunjucks.Levels
import Stencil.Proofs.Nunjucks.Placement

/-!
# Reading makes progress

A cursor stands between two characters of a source. Every level of the term grammar that gives a
result leaves the cursor further to the right; what may follow a term leaves it where it is or
further to the right; and reading the next chunk of a source that is not at its end moves on.

So the recursion of the grammar has no need of a bound. The depth to which brackets are read and the
number of rounds of a loop are bounded by the tokens that are left, and no larger bound makes a
difference: the levels satisfy the equations of the grammar, in which brackets hold whole terms.

## Main definitions

* `Nunjucks.insideAt` : what stands inside a delimiter from a cursor on.
* `Nunjucks.Advances`, `Nunjucks.Retains` : what a parser does to the cursor.
* `Nunjucks.Alike` : outcomes that are the same and leave fewer tokens than there were.
* `Nunjucks.brackets` : what brackets hold, at any depth.

## Main results

* `Nunjucks.alike_rounds` : a loop has no need of more rounds than there are tokens.
* `Nunjucks.Nested.AlikeBelow.level` : a level takes up a token, and it only depends on what
  brackets hold in fewer tokens.
* `Nunjucks.level_advances` : every level makes progress, and no bound is reached.
-/

namespace Stencil.Nunjucks

/-! ### Cursors -/

/-- What stands inside a delimiter from a cursor on, where `before` has been read and `after` has
not. -/
def insideAt (before after : List Char) : Inside :=
  (lex ⟨Text.byteLength before, after⟩).1

/-- Tokens that are taken up move the cursor over them. -/
theorem exists_insideAt {before after : List Char} {used rest : List Token}
    (h : (insideAt before after).tokens = used ++ rest) :
    ∃ s after', after = s ++ after' ∧ (used ≠ [] → s ≠ []) ∧
      insideAt (before ++ s) after' = ⟨rest, (insideAt before after).ending⟩ := by
  induction used generalizing before after with
  | nil =>
    refine ⟨[], after, rfl, fun hne => absurd rfl hne, ?_⟩
    rw [List.append_nil, ← List.nil_append rest, ← h]
  | cons t used ih =>
    obtain ⟨q, hbegins, -, hlex⟩ := begins_of_tokens h
    obtain ⟨c, r, -, hc, -⟩ := hbegins.tokenAt
    obtain ⟨htext, hstart⟩ := (Piece.Leads.trimStart _).trans hbegins.leads
    rw [hc] at htext hstart
    set s := List.takeWhile Text.isBlank after ++ c :: r with hs
    have hq : q = ⟨Text.byteLength (before ++ s), q.text⟩ := by
      rw [Text.byteLength_append, ← hstart]
    have hinside : insideAt (before ++ s) q.text =
        ⟨used ++ rest, (insideAt before after).ending⟩ := by
      rw [insideAt, ← hq]
      exact hlex
    obtain ⟨s', after', hafter, -, hrest⟩ := ih (congrArg Inside.tokens hinside)
    refine ⟨s ++ s', after', ?_, fun _ => by simp [hs], ?_⟩
    · rw [List.append_assoc, ← hafter]
      exact htext
    · rw [← List.append_assoc, hrest, hinside]

/-- Wherever the parser gives a result, the cursor is further to the right. -/
def Advances {α : Type} (parser : Ending → Parser α) : Prop :=
  ∀ before after x rest,
    parser (insideAt before after).ending (insideAt before after).tokens = .ok (x, rest) →
      ∃ s after', s ≠ [] ∧ after = s ++ after' ∧
        insideAt (before ++ s) after' = ⟨rest, (insideAt before after).ending⟩

/-- Wherever the parser gives a result, the cursor is where it was or further to the right. -/
def Retains {α : Type} (parser : Ending → Parser α) : Prop :=
  ∀ before after x rest,
    parser (insideAt before after).ending (insideAt before after).tokens = .ok (x, rest) →
      ∃ s after', after = s ++ after' ∧
        insideAt (before ++ s) after' = ⟨rest, (insideAt before after).ending⟩

/-- The parser takes tokens off the front, whatever they are. -/
abbrev Shrinks {α : Type} (parser : Parser α) : Prop :=
  Takes (fun _ => True) parser fun _ => True

section Cursors

variable {α : Type} {ts rest : List Token} {Q : α → Prop}

theorem Takes.shrinks {parser : Parser α} (h : Takes (fun _ => True) parser Q) : Shrinks parser :=
  fun ts x rest hx => (h ts x rest hx).imp fun _ => trivial

theorem Takes.length_le {parser : Parser α} {x : α} (h : Takes (fun _ => True) parser Q)
    (hx : parser ts = .ok (x, rest)) : rest.length ≤ ts.length := by
  obtain ⟨used, rfl, -⟩ := h ts x rest hx
  rw [List.length_append]
  omega

theorem advances_of_length_lt {parser : Ending → Parser α} (hs : ∀ ending, Shrinks (parser ending))
    (h : ∀ ending ts x rest, parser ending ts = .ok (x, rest) → rest.length < ts.length) :
    Advances parser := by
  intro before after x rest hx
  obtain ⟨used, hused, -⟩ := hs _ _ _ _ hx
  have hlength := h _ _ _ _ hx
  have hne : used ≠ [] := by
    rintro rfl
    rw [hused, List.nil_append] at hlength
    exact Nat.lt_irrefl _ hlength
  obtain ⟨s, after', hafter, hs, hinside⟩ := exists_insideAt hused
  exact ⟨s, after', hs hne, hafter, hinside⟩

theorem retains_of_shrinks {parser : Ending → Parser α} (hs : ∀ ending, Shrinks (parser ending)) :
    Retains parser := by
  intro before after x rest hx
  obtain ⟨used, hused, -⟩ := hs _ _ _ _ hx
  obtain ⟨s, after', hafter, -, hinside⟩ := exists_insideAt hused
  exact ⟨s, after', hafter, hinside⟩

end Cursors

theorem braceless_operatorAt (n : Nat) : Braceless (operatorAt n) := by
  unfold operatorAt
  split
  · exact braceless_signOf rfl
  · exact braceless_signOf rfl
  · exact braceless_signOf rfl
  · exact braceless_signOf rfl
  · exact braceless_wordOf _ _
  · exact braceless_wordOf _ _
  · exact braceless_wordOf _ _
  · intro t op h
    cases h

theorem takes_levelOver {P : Token → Prop} {operand : Parser Term}
    (ho : Takes P operand (Term.From P)) (n : Nat) :
    Takes P (levelOver n operand) (Term.From P) := by
  unfold levelOver
  split
  · exact takes_comparisons ho
  · exact takes_tests ho
  · exact takes_negations ho
  · exact takes_choices ho
  · exact takes_binaryLevel (braceless_operatorAt _) ho

theorem takes_level {P : Token → Prop} {nested : Nested} (hn : nested.Takes P) (ending : Ending)
    (n : Nat) : Takes P (level ending nested n) (Term.From P) := by
  induction n with
  | zero => exact takes_primary ending hn
  | succ n ih =>
    cases n with
    | zero => exact takes_signed ending hn
    | succ n => exact takes_levelOver ih _

/-! ### Outcomes that leave fewer tokens -/

/-- The computations fail with the same error, or give the same and leave fewer than `n` tokens. -/
def Alike {α : Type} (n : Nat) (x y : Except ReadError (α × List Token)) : Prop :=
  Agree Eq (fun a b => a = b ∧ a.2.length < n) x y

/-- The parsers are alike on fewer than `n` tokens, and take up a token. -/
def AlikeBelow {α : Type} (n : Nat) (f g : Parser α) : Prop :=
  ∀ ts, ts.length < n → Alike ts.length (f ts) (g ts)

/-- What brackets hold is alike in fewer than `n` tokens. -/
structure Nested.AlikeBelow (n : Nat) (a b : Nested) : Prop where
  term : Nunjucks.AlikeBelow n a.term b.term
  key : Nunjucks.AlikeBelow n a.key b.key

namespace Alike

variable {α β : Type} {m n : Nat} {x y : Except ReadError (α × List Token)}

theorem eq (h : Alike n x y) : x = y := by
  rcases Agree.cases h with ⟨e, _, rfl, rfl, rfl⟩ | ⟨a, _, rfl, rfl, rfl, -⟩
  · rfl
  · rfl

theorem length_lt (h : Alike n x y) {a : α} {rest : List Token} (hx : x = .ok (a, rest)) :
    rest.length < n := by
  rcases Agree.cases h with ⟨e, _, rfl, rfl, rfl⟩ | ⟨b, _, rfl, rfl, rfl, hlength⟩
  · cases hx
  · cases hx
    exact hlength

theorem mono (h : Alike m x y) (hmn : m ≤ n) : Alike n x y :=
  Agree.mono h fun _ _ hab => ⟨hab.1, Nat.lt_of_lt_of_le hab.2 hmn⟩

theorem of_length (h : ∀ a rest, x = .ok (a, rest) → rest.length < n) : Alike n x x := by
  cases x with
  | error e => exact rfl
  | ok a => exact ⟨rfl, h a.1 a.2 rfl⟩

theorem bind {f g : α × List Token → Except ReadError (β × List Token)} (h : Alike m x y)
    (hf : ∀ a ts, ts.length < m → Alike n (f (a, ts)) (g (a, ts))) :
    Alike n (x >>= f) (y >>= g) := by
  rcases Agree.cases h with ⟨e, _, rfl, rfl, rfl⟩ | ⟨a, _, rfl, rfl, rfl, hlength⟩
  · exact rfl
  · exact hf a.1 a.2 hlength

end Alike

section Tokens

variable {ending : Ending} {ts rest : List Token}

theorem length_eatSign? {sign : String} (h : eatSign? sign ts = some rest) :
    rest.length < ts.length := by
  cases ts with
  | nil => cases h
  | cons t ts =>
    rw [eatSign?] at h
    split at h
    · cases h
      exact Nat.lt_succ_self _
    · cases h

theorem length_eatName? {name : String} (h : eatName? name ts = some rest) :
    rest.length < ts.length := by
  cases ts with
  | nil => cases h
  | cons t ts =>
    rw [eatName?] at h
    split at h
    · cases h
      exact Nat.lt_succ_self _
    · cases h

theorem alike_expectSign {β : Type} {sign : String} {n : Nat}
    {f g : List Token → Except ReadError (β × List Token)}
    (hf : ∀ us, us.length < ts.length → Alike n (f us) (g us)) :
    Alike n (expectSign ending sign ts >>= f) (expectSign ending sign ts >>= g) := by
  unfold expectSign
  split
  · next us hus => exact hf us (length_eatSign? hus)
  · exact rfl

theorem alike_expectName (ending : Ending) (ts : List Token) :
    Alike (ts.length + 1) (expectName ending ts) (expectName ending ts) :=
  .of_length fun _ _ h => Nat.lt_succ_of_le (Takes.length_le (takes_expectName ending) h)

end Tokens

/-! ### No bound is reached -/

section Loops

variable {n fuel fuel' : Nat} {ending : Ending} {ts : List Token} {x : Term}

/-- The items of a list in brackets: a round for each token suffices. -/
theorem alike_itemsUntil {α : Type} {item item' : Parser α} {closing : String} {isFirst : Bool}
    (hi : AlikeBelow n item item') (hts : ts.length < n) (hfuel : ts.length < fuel)
    (hfuel' : ts.length < fuel') :
    Alike ts.length (itemsUntil ending closing item fuel isFirst ts)
      (itemsUntil ending closing item' fuel' isFirst ts) := by
  induction fuel generalizing fuel' isFirst ts with
  | zero => exact absurd hfuel (Nat.not_lt_zero _)
  | succ fuel ih =>
    cases fuel' with
    | zero => exact absurd hfuel' (Nat.not_lt_zero _)
    | succ fuel' =>
      rw [itemsUntil, itemsUntil]
      split
      · next hclose => exact ⟨rfl, length_eatSign? hclose⟩
      split
      · refine (hi ts hts).bind fun x vs hvs => ?_
        exact (ih (by omega) (by omega) (by omega)).bind fun xs ws hws =>
          ⟨rfl, Nat.lt_trans hws hvs⟩
      · refine alike_expectSign fun us hus => (hi us (by omega)).bind fun x vs hvs => ?_
        refine (ih (by omega) (by omega) (by omega)).bind fun xs ws hws => ⟨rfl, ?_⟩
        exact Nat.lt_trans hws (Nat.lt_trans hvs hus)

theorem AlikeBelow.items {α : Type} {item item' : Parser α} {closing : String}
    (hi : AlikeBelow n item item') :
    AlikeBelow n (items ending closing item) (Nunjucks.items ending closing item') :=
  fun _ hts => alike_itemsUntil hi hts (Nat.lt_succ_self _) (Nat.lt_succ_self _)

/-- A loop whose rounds take up tokens has no need of more rounds than there are tokens. -/
theorem alike_rounds {α σ : Type} {f g : Nat → σ → Parser α}
    (hnil : ∀ fuel fuel' x, Alike 1 (f fuel x []) (g fuel' x []))
    (hround : ∀ fuel fuel' x ts, ts.length < n →
      (∀ y us, us.length < ts.length → Alike (us.length + 1) (f fuel y us) (g fuel' y us)) →
        Alike (ts.length + 1) (f (fuel + 1) x ts) (g (fuel' + 1) x ts))
    {x : σ} (hts : ts.length < n) (hfuel : ts.length ≤ fuel) (hfuel' : ts.length ≤ fuel') :
    Alike (ts.length + 1) (f fuel x ts) (g fuel' x ts) := by
  induction fuel generalizing fuel' x ts with
  | zero =>
    obtain rfl := List.eq_nil_of_length_eq_zero (Nat.le_zero.mp hfuel)
    exact hnil 0 fuel' x
  | succ fuel ih =>
    cases fuel' with
    | zero =>
      obtain rfl := List.eq_nil_of_length_eq_zero (Nat.le_zero.mp hfuel')
      exact hnil (fuel + 1) 0 x
    | succ fuel' =>
      exact hround fuel fuel' x ts hts fun y us hus => ih (by omega) (by omega) (by omega)

variable {operator? : Token → Option Binary} {operand operand' : Parser Term}

theorem alike_binaryRest (ho : AlikeBelow n operand operand') (hts : ts.length < n)
    (hfuel : ts.length ≤ fuel) (hfuel' : ts.length ≤ fuel') :
    Alike (ts.length + 1) (binaryRest operator? operand fuel x ts)
      (binaryRest operator? operand' fuel' x ts) := by
  refine alike_rounds (fun fuel fuel' x => ?_) (fun fuel fuel' x ts hts ih => ?_) hts hfuel hfuel'
  · cases fuel <;> cases fuel' <;> exact ⟨rfl, Nat.lt_succ_self _⟩
  · cases ts with
    | nil => exact ⟨rfl, Nat.lt_succ_self _⟩
    | cons t ts =>
      rw [List.length_cons] at hts ih ⊢
      rw [binaryRest, binaryRest]
      split
      · exact ⟨rfl, Nat.lt_succ_self _⟩
      · refine (ho ts (by omega)).bind fun right us hus => ?_
        exact (ih _ us (by omega)).mono (by omega)

theorem alike_comparisonRest (ho : AlikeBelow n operand operand') (hts : ts.length < n)
    (hfuel : ts.length ≤ fuel) (hfuel' : ts.length ≤ fuel') :
    Alike (ts.length + 1) (comparisonRest operand fuel ts) (comparisonRest operand' fuel' ts) := by
  refine alike_rounds (f := fun fuel (_ : Unit) => comparisonRest operand fuel)
    (g := fun fuel _ => comparisonRest operand' fuel) (x := ()) (fun fuel fuel' _ => ?_)
    (fun fuel fuel' _ ts hts ih => ?_) hts hfuel hfuel'
  · cases fuel <;> cases fuel' <;> exact ⟨rfl, Nat.lt_succ_self _⟩
  · cases ts with
    | nil => exact ⟨rfl, Nat.lt_succ_self _⟩
    | cons t ts =>
      rw [List.length_cons] at hts ih ⊢
      rw [comparisonRest, comparisonRest]
      split
      · exact ⟨rfl, Nat.lt_succ_self _⟩
      · refine (ho ts (by omega)).bind fun right us hus => ?_
        refine (ih () us (by omega)).bind fun more vs hvs => ⟨rfl, ?_⟩
        exact Nat.lt_of_lt_of_le hvs (by omega)

variable {a b : Nested}

theorem Nested.AlikeBelow.callArg (hn : a.AlikeBelow n b) :
    Nunjucks.AlikeBelow n (callArg a) (Nunjucks.callArg b) := by
  intro ts hts
  unfold Nunjucks.callArg
  split
  · next key t ts =>
    rw [List.length_cons, List.length_cons] at hts ⊢
    split
    · refine (hn.term ts (by omega)).bind fun value us hus => ⟨rfl, ?_⟩
      exact Nat.lt_trans hus (by omega)
    · exact (hn.term (⟨.name, key⟩ :: t :: ts) hts).bind fun value us hus => ⟨rfl, hus⟩
  · exact (hn.term _ hts).bind fun value us hus => ⟨rfl, hus⟩

theorem Nested.AlikeBelow.callArgs (hn : a.AlikeBelow n b) :
    Nunjucks.AlikeBelow n (callArgs ending a) (Nunjucks.callArgs ending b) :=
  hn.callArg.items

theorem Nested.AlikeBelow.dictEntry (hn : a.AlikeBelow n b) :
    Nunjucks.AlikeBelow n (dictEntry ending a) (Nunjucks.dictEntry ending b) := by
  intro ts hts
  refine (hn.key ts hts).bind fun key us hus => alike_expectSign fun vs hvs => ?_
  refine (hn.term vs (by omega)).bind fun value ws hws => ⟨rfl, ?_⟩
  exact Nat.lt_trans hws (Nat.lt_trans hvs hus)

theorem Nested.AlikeBelow.atom (hn : a.AlikeBelow n b) :
    Nunjucks.AlikeBelow (n + 1) (atom ending a) (Nunjucks.atom ending b) := by
  intro ts hts
  unfold Nunjucks.atom
  split
  · exact rfl
  · exact ⟨rfl, Nat.lt_succ_self _⟩
  · exact ⟨rfl, Nat.lt_succ_self _⟩
  · exact ⟨rfl, Nat.lt_succ_self _⟩
  · next text ts =>
    rw [List.length_cons, Nat.add_lt_add_iff_right] at hts
    rw [List.length_cons]
    split
    · refine (hn.term ts hts).bind fun inner us hus => alike_expectSign fun vs hvs => ⟨rfl, ?_⟩
      exact Nat.lt_succ_of_lt (Nat.lt_trans hvs hus)
    split
    · exact (hn.term.items ts hts).bind fun xs us hus => ⟨rfl, Nat.lt_succ_of_lt hus⟩
    split
    · exact (hn.dictEntry.items ts hts).bind fun xs us hus => ⟨rfl, Nat.lt_succ_of_lt hus⟩
    · exact rfl

theorem alike_accesses (hn : a.AlikeBelow n b) (hts : ts.length ≤ n) (hfuel : ts.length ≤ fuel)
    (hfuel' : ts.length ≤ fuel') :
    Alike (ts.length + 1) (accesses ending a fuel x ts) (accesses ending b fuel' x ts) := by
  refine alike_rounds (n := n + 1) (fun fuel fuel' x => ?_) (fun fuel fuel' x ts hts ih => ?_)
    (Nat.lt_succ_of_le hts) hfuel hfuel'
  · cases fuel <;> cases fuel' <;> exact ⟨rfl, Nat.lt_succ_self _⟩
  · rw [accesses, accesses]
    split
    · next us hdot =>
      have hdot := length_eatSign? hdot
      refine (alike_expectName ending us).bind fun name vs hvs => ?_
      exact (ih _ _ (by omega)).mono (by omega)
    split
    · next us hopen =>
      have hopen := length_eatSign? hopen
      refine (hn.term us (by omega)).bind fun key vs hvs => alike_expectSign fun ws hws => ?_
      exact (ih _ _ (by omega)).mono (by omega)
    split
    · next us hopen =>
      have hopen := length_eatSign? hopen
      refine (hn.callArgs us (by omega)).bind fun args vs hvs => ?_
      exact (ih _ _ (by omega)).mono (by omega)
    · exact ⟨rfl, Nat.lt_succ_self _⟩

theorem alike_filters (hn : a.AlikeBelow n b) (hts : ts.length ≤ n) (hfuel : ts.length ≤ fuel)
    (hfuel' : ts.length ≤ fuel') :
    Alike (ts.length + 1) (filters ending a fuel x ts) (filters ending b fuel' x ts) := by
  refine alike_rounds (n := n + 1) (fun fuel fuel' x => ?_) (fun fuel fuel' x ts hts ih => ?_)
    (Nat.lt_succ_of_le hts) hfuel hfuel'
  · cases fuel <;> cases fuel' <;> exact ⟨rfl, Nat.lt_succ_self _⟩
  · rw [filters, filters]
    split
    · exact ⟨rfl, Nat.lt_succ_self _⟩
    · next us hpipe =>
      have hpipe := length_eatSign? hpipe
      have hdotted (name : String) (vs : List Token) :
          Alike (vs.length + 1) (dottedName ending name vs) (dottedName ending name vs) :=
        .of_length fun _ _ h => Nat.lt_succ_of_le (Takes.length_le (takes_dottedName ending name) h)
      have hargs (ws : List Token) (hws : ws.length < n) :
          Alike (ws.length + 1) (filterArgs ending a ws) (filterArgs ending b ws) := by
        unfold filterArgs
        split
        · next hopen =>
          have hopen := length_eatSign? hopen
          exact (hn.callArgs _ (by omega)).mono (by omega)
        · exact ⟨rfl, Nat.lt_succ_self _⟩
      refine (alike_expectName ending us).bind fun first vs hvs =>
        (hdotted _ vs).bind fun name ws hws => (hargs ws (by omega)).bind fun args zs hzs => ?_
      exact (ih _ _ (by omega)).mono (by omega)

end Loops

section Levels

variable {n : Nat} {ending : Ending} {operand operand' : Parser Term}

theorem AlikeBelow.tests (ho : AlikeBelow n operand operand') :
    AlikeBelow n (tests operand) (Nunjucks.tests operand') := by
  intro ts hts
  refine (ho ts hts).bind fun subject us hus => ?_
  simp only
  split
  · exact ⟨rfl, hus⟩
  · next vs his =>
    have his := length_eatName? his
    split
    · refine (ho vs (by omega)).bind fun condition ws hws => ⟨rfl, ?_⟩
      exact Nat.lt_trans hws (by omega)
    · next ws hnot =>
      have hnot := length_eatName? hnot
      refine (ho ws (by omega)).bind fun condition zs hzs => ⟨rfl, ?_⟩
      exact Nat.lt_trans hzs (by omega)

theorem AlikeBelow.negations (ho : AlikeBelow n operand operand') :
    AlikeBelow n (negations operand) (Nunjucks.negations operand') := by
  intro ts hts
  induction ts with
  | nil => exact ho [] hts
  | cons t ts ih =>
    rw [Nunjucks.negations, Nunjucks.negations]
    split
    · exact (ih (Nat.lt_of_succ_lt hts)).bind fun x us hus => ⟨rfl, Nat.lt_succ_of_lt hus⟩
    · exact ho _ hts

theorem AlikeBelow.choices (ho : AlikeBelow n operand operand') :
    AlikeBelow n (choices operand) (Nunjucks.choices operand') := by
  intro ts hts
  refine (ho ts hts).bind fun body us hus => ?_
  simp only
  split
  · exact ⟨rfl, hus⟩
  · next vs hif =>
    have hif := length_eatName? hif
    refine (ho vs (by omega)).bind fun condition ws hws => ?_
    simp only
    split
    · exact ⟨rfl, Nat.lt_trans hws (by omega)⟩
    · next zs helse =>
      have helse := length_eatName? helse
      refine (ho zs (by omega)).bind fun otherwise rest hrest => ⟨rfl, ?_⟩
      exact Nat.lt_trans hrest (by omega)

theorem AlikeBelow.levelOver (ho : AlikeBelow n operand operand') (k : Nat) :
    AlikeBelow n (levelOver k operand) (Nunjucks.levelOver k operand') := by
  unfold Nunjucks.levelOver
  split
  · intro ts hts
    refine (ho ts hts).bind fun first us hus => ?_
    have hmore := alike_comparisonRest ho (Nat.lt_trans hus hts) (Nat.le_refl _) (Nat.le_refl _)
    exact hmore.bind fun more vs hvs => ⟨rfl, Nat.lt_of_lt_of_le hvs hus⟩
  · exact ho.tests
  · exact ho.negations
  · exact ho.choices
  · intro ts hts
    refine (ho ts hts).bind fun left us hus => ?_
    exact (alike_binaryRest ho (Nat.lt_trans hus hts) (Nat.le_refl _) (Nat.le_refl _)).mono hus

variable {a b : Nested}

theorem Nested.AlikeBelow.primary (hn : a.AlikeBelow n b) :
    Nunjucks.AlikeBelow (n + 1) (primary ending a) (Nunjucks.primary ending b) := by
  intro ts hts
  refine (hn.atom ts hts).bind fun x us hus => ?_
  exact (alike_accesses hn (by omega) (Nat.le_refl _) (Nat.le_refl _)).mono hus

theorem Nested.AlikeBelow.signed (hn : a.AlikeBelow n b) :
    Nunjucks.AlikeBelow (n + 1) (signed ending a) (Nunjucks.signed ending b) := by
  intro ts hts
  induction ts with
  | nil => exact hn.primary [] hts
  | cons t ts ih =>
    rw [Nunjucks.signed, Nunjucks.signed]
    split
    · refine (ih (Nat.lt_of_succ_lt hts)).bind fun x us hus => ?_
      rw [List.length_cons] at hts ⊢
      exact (alike_filters hn (by omega) (Nat.le_refl _) (Nat.le_refl _)).mono (by omega)
    · refine (hn.primary _ hts).bind fun x us hus => ?_
      rw [List.length_cons] at hts hus
      exact (alike_filters hn (by omega) (Nat.le_refl _) (Nat.le_refl _)).mono hus

/-- A level takes up a token, and it only depends on what brackets hold in fewer tokens. -/
theorem Nested.AlikeBelow.level (hn : a.AlikeBelow n b) (ending : Ending) (k : Nat) :
    Nunjucks.AlikeBelow (n + 1) (level ending a k) (Nunjucks.level ending b k) := by
  induction k with
  | zero => exact hn.primary
  | succ k ih =>
    cases k with
    | zero => exact hn.signed
    | succ k => exact ih.levelOver _

end Levels

/-! ### Terms in brackets -/

/-- What brackets hold, at any depth. -/
def brackets (ending : Ending) : Nested :=
  ⟨parseTerm ending, fun ts => primary ending (nestedTo ending ts.length) ts⟩

section Brackets

variable (ending : Ending)

theorem takes_brackets : (brackets ending).Takes fun _ => True :=
  ⟨fun ts => takes_termOver ending (takes_nestedTo ending ts.length) ts,
    fun ts => takes_primary ending (takes_nestedTo ending ts.length) ts⟩

theorem alikeBelow_nestedTo {n depth depth' : Nat} (h : n ≤ depth) (h' : n ≤ depth') :
    (nestedTo ending depth).AlikeBelow n (nestedTo ending depth') := by
  induction n generalizing depth depth' with
  | zero => exact ⟨fun _ hts => absurd hts (Nat.not_lt_zero _),
      fun _ hts => absurd hts (Nat.not_lt_zero _)⟩
  | succ n ih =>
    obtain ⟨depth, rfl⟩ := Nat.exists_eq_add_of_le' (Nat.lt_of_lt_of_le (Nat.succ_pos n) h)
    obtain ⟨depth', rfl⟩ := Nat.exists_eq_add_of_le' (Nat.lt_of_lt_of_le (Nat.succ_pos n) h')
    have hn := ih (Nat.le_of_succ_le_succ h) (Nat.le_of_succ_le_succ h')
    exact ⟨hn.level ending 12, hn.level ending 0⟩

/-- Brackets are read to any depth: what a depth holds that is large enough is all they hold. -/
theorem alikeBelow_brackets {n depth : Nat} (h : n ≤ depth) :
    (nestedTo ending depth).AlikeBelow n (brackets ending) := by
  have hlevel (k : Nat) (ts : List Token) (hts : ts.length < n) : ∀ depth', n ≤ depth' + 1 →
      Alike ts.length (level ending (nestedTo ending depth') k ts)
        (level ending (nestedTo ending ts.length) k ts) := fun depth' h' =>
    (alikeBelow_nestedTo ending (by omega) (Nat.le_refl _)).level ending k ts (Nat.lt_succ_self _)
  cases depth with
  | zero =>
    obtain rfl := Nat.le_zero.mp h
    exact ⟨fun _ hts => absurd hts (Nat.not_lt_zero _), fun _ hts => absurd hts (Nat.not_lt_zero _)⟩
  | succ depth =>
    exact ⟨fun ts hts => hlevel 12 ts hts depth h, fun ts hts => hlevel 0 ts hts depth h⟩

theorem alikeBelow_brackets_self (n : Nat) : (brackets ending).AlikeBelow n (brackets ending) := by
  have h := alikeBelow_brackets ending (Nat.le_refl n)
  refine ⟨fun ts hts => ?_, fun ts hts => ?_⟩
  · have hterm := h.term ts hts
    rwa [hterm.eq] at hterm
  · have hkey := h.key ts hts
    rwa [hkey.eq] at hkey

end Brackets

/-- Every level makes progress, and so does reading the next chunk of a source that is not at its
end; what may follow a term only moves to the right. The grammar has no bound: brackets hold whole
terms, and no loop goes on for longer than there are tokens. -/
theorem level_advances :
    (∀ n, Advances fun ending => level ending (brackets ending) n) ∧
    (∀ fuel x, Retains fun ending => accesses ending (brackets ending) fuel x) ∧
    (∀ fuel x, Retains fun ending => filters ending (brackets ending) fuel x) ∧
    (Retains fun ending => callArgs ending (brackets ending)) ∧
    (∀ p : Piece, p.text = [] ∨ ∃ s, s ≠ [] ∧ Piece.Leads p s (readChunk p).2) ∧
    ∀ ending ts,
      parseTerm ending ts = level ending (brackets ending) 12 ts ∧
      (brackets ending).key ts = level ending (brackets ending) 0 ts ∧
      ∀ more x,
        accesses ending (brackets ending) (ts.length + more) x ts =
          accesses ending (brackets ending) ts.length x ts ∧
        filters ending (brackets ending) (ts.length + more) x ts =
          filters ending (brackets ending) ts.length x ts ∧
        itemsUntil ending ")" (callArg (brackets ending)) (ts.length + 1 + more) true ts =
          callArgs ending (brackets ending) ts ∧
        ∀ n, binaryRest (operatorAt n) (level ending (brackets ending) (n - 1)) (ts.length + more)
              x ts =
            binaryRest (operatorAt n) (level ending (brackets ending) (n - 1)) ts.length x ts ∧
          comparisonRest (level ending (brackets ending) n) (ts.length + more) ts =
            comparisonRest (level ending (brackets ending) n) ts.length ts := by
  have hself := alikeBelow_brackets_self
  refine ⟨fun n => advances_of_length_lt
      (fun ending => (takes_level (takes_brackets ending) ending n).shrinks)
      fun ending ts _ _ h =>
        ((hself ending ts.length).level ending n ts (Nat.lt_succ_self _)).length_lt h,
    fun fuel x => retains_of_shrinks fun ending =>
      (takes_accesses ending (takes_brackets ending) fuel x).shrinks,
    fun fuel x => retains_of_shrinks fun ending =>
      (takes_filters ending (takes_brackets ending) fuel x).shrinks,
    retains_of_shrinks fun ending =>
      (takes_items ending (by decide) (takes_callArg (takes_brackets ending))).shrinks, ?_, ?_⟩
  · intro p
    by_cases hp : p.text = []
    · exact .inl hp
    obtain ⟨s, hs⟩ := leads_readChunk p
    refine .inr ⟨s, ?_, hs⟩
    rintro rfl
    have hlength := length_readChunk hp
    rw [hs.text] at hlength
    exact Nat.lt_irrefl _ hlength
  · intro ending ts
    have hlevel (k : Nat) := ((alikeBelow_brackets ending (Nat.le_refl ts.length)).level ending k ts
      (Nat.lt_succ_self _)).eq
    refine ⟨hlevel 12, hlevel 0, fun more x => ?_⟩
    have hn := hself ending (ts.length + 1)
    have hmore := Nat.le_add_right ts.length more
    have hlast := Nat.lt_succ_self ts.length
    refine ⟨(alike_accesses hn (Nat.le_of_lt hlast) hmore (Nat.le_refl _)).eq,
      (alike_filters hn (Nat.le_of_lt hlast) hmore (Nat.le_refl _)).eq,
      (alike_itemsUntil hn.callArg hlast (by omega) hlast).eq, fun n => ⟨?_, ?_⟩⟩
    · exact (alike_binaryRest (hn.level ending _) (Nat.lt_succ_of_lt hlast) hmore
        (Nat.le_refl _)).eq
    · exact (alike_comparisonRest (hn.level ending n) (Nat.lt_succ_of_lt hlast) hmore
        (Nat.le_refl _)).eq

end Stencil.Nunjucks

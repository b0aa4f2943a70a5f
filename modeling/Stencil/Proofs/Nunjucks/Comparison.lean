import Mathlib.Data.List.Chain
import Mathlib.Data.List.Induction
import Stencil.Proofs.Nunjucks.Expression

/-!
# Pipelines of comparisons and memberships

Comparisons and membership have one binding strength for the writer and two for the reader. The
writer puts no parentheses around a left operand of that strength, so after a first step it writes
another comparison right behind the text so far. The reader makes one chain of all comparisons that
stand next to each other, which has no neutral form if it is longer than one, and it takes the
comparison behind a membership for part of the container.

Here the pipelines are those over plain names. What is read of their text is computed along the
pipeline: the text is a name before `in`, if there is one, a text in parentheses or a name, and the
comparisons behind it.

## Main results

* `Nunjucks.Tracks.extend` : one more step of the pipeline.
* `Nunjucks.read_text_comparisonPipeline` : what is read of the text of a pipeline.
* `Nunjucks.read_text_comparisonPipeline_iff` : the pipelines that are read back, and those that are
  read at all.
-/

namespace Stencil.Nunjucks

/-! ### Chains of comparisons -/

/-- The lexemes of comparisons with names. -/
def comparisonLexemes (cs : List (Comparison × String)) : List Lexeme :=
  cs.flatMap fun (c, x) => [.sign c.text, .word x]

/-- The comparisons that follow a term are those with the given names. -/
def AreComparisons (cs : List (Comparison × String)) (xs : List (Comparison × Term)) : Prop :=
  List.Forall₂ (fun p q => q.1 = p.1 ∧ IsSymbol p.2 q.2) cs xs

theorem rank_comparison (c : Comparison) : rank (.sign c.text) = 6 := by
  cases c <;> decide

theorem comparisonRest_eq (ending : Ending) (depth fuel : Nat) (hd : 0 < depth)
    {cs : List (Comparison × String)} (hcs : ∀ p ∈ cs, p.2 ∉ keywords) {ts rest : List Token}
    (hts : ts.map Token.lexeme = comparisonLexemes cs) (hr : Follow 7 rest)
    (hf : cs.length ≤ fuel) :
    ∃ xs, comparisonRest (level ending (nestedTo ending depth) 5) fuel (ts ++ rest) =
      .ok (xs, rest) ∧ AreComparisons cs xs := by
  induction cs generalizing ts fuel with
  | nil =>
    obtain rfl := List.map_eq_nil_iff.mp hts
    exact ⟨[], comparisonRest_stop hr fuel, .nil⟩
  | cons p cs ih =>
    obtain ⟨c, x⟩ := p
    rw [List.forall_mem_cons] at hcs
    obtain ⟨t, ts, rfl, ht, hts⟩ := List.map_eq_cons_iff.mp hts
    obtain ⟨u, ts, rfl, hu, hts⟩ := List.map_eq_cons_iff.mp hts
    obtain ⟨fuel, rfl⟩ : ∃ k, fuel = k + 1 := ⟨fuel - 1, by simp at hf; omega⟩
    obtain ⟨xs, hxs, hare⟩ := ih fuel hcs.2 hts (by simpa using hf)
    -- what comes after a name is the next comparison, or what the level leaves alone
    have hfollow : Follow 6 (ts ++ rest) := by
      cases cs with
      | nil =>
        obtain rfl := List.map_eq_nil_iff.mp hts
        exact hr.mono (by omega)
      | cons q cs =>
        obtain ⟨v, ts, rfl, hv, -⟩ := List.map_eq_cons_iff.mp hts
        exact .cons (by rw [hv, rank_comparison]) _
    obtain ⟨y, hy, hlevel⟩ := (readsAt_symbol hcs.1 (n := 5) (by omega)).reads ending depth [u]
      (ts ++ rest) (by simp [hu]) hd hfollow
    have hc : (if t.kind = .sign then Comparison.ofText? t.text.toString else none) = some c := by
      simp only [Token.lexeme, Lexeme.sign, Lexeme.mk.injEq] at ht
      simp [ht.1, Piece.toString, ht.2]
    refine ⟨(c, y) :: xs, ?_, .cons ⟨rfl, hy⟩ hare⟩
    rw [List.singleton_append] at hlevel
    simp [comparisonRest, hc, hlevel, hxs]

/-- A term and the comparisons that follow it. -/
theorem ReadsAt.comparisons {ls : List Lexeme} {P : Term → Prop} (h : ReadsAt 5 ls P)
    {cs : List (Comparison × String)} (hne : cs ≠ []) (hcs : ∀ p ∈ cs, p.2 ∉ keywords) :
    ReadsAt 6 (ls ++ comparisonLexemes cs) fun x =>
      ∃ y ys, x = .comparison y ys ∧ P y ∧ AreComparisons cs ys := by
  obtain ⟨⟨c, z⟩, cs', rfl⟩ := List.exists_cons_of_ne_nil hne
  have hne' : Lexeme.sign c.text ≠ .sign "=" := by cases c <;> decide
  refine ⟨(h.begins.mono (by omega)).append hne' _, fun ending depth ts rest hts hd hr => ?_⟩
  obtain ⟨ts₁, ts₂, rfl, rfl, hts₂⟩ := List.map_eq_append_iff.mp hts
  rw [List.length_append, List.length_map] at hd
  have hlength : ts₂.length = (comparisonLexemes ((c, z) :: cs')).length := by
    rw [← hts₂, List.length_map]
  have hfollow : Follow 6 (ts₂ ++ rest) := by
    obtain ⟨v, ts₂, rfl, hv, -⟩ := List.map_eq_cons_iff.mp hts₂
    exact .cons (by rw [hv, rank_comparison]) _
  obtain ⟨y, hy, hlevel⟩ := h.reads ending depth ts₁ (ts₂ ++ rest) rfl
    (by rw [List.length_map]; omega) hfollow
  have hlexemes : (comparisonLexemes ((c, z) :: cs')).length = 2 * (cs'.length + 1) := by
    simp [comparisonLexemes, List.length_flatMap]
    omega
  obtain ⟨ys, hys, hare⟩ :=
    comparisonRest_eq ending depth (ts₂ ++ rest).length (by omega) hcs hts₂ hr
    (by rw [List.length_append, List.length_cons]; omega)
  refine ⟨.comparison y ys, ⟨y, ys, rfl, hy, hare⟩, ?_⟩
  have hys' : ys ≠ [] := by
    cases hare
    simp
  rw [level, levelOver, List.append_assoc, Nunjucks.comparisons, hlevel, ok_bind]
  dsimp only
  rw [hys]
  simp [hys']

/-! ### What terms are read as -/

/-- The expression of a term outside loops is the given one, or there is none. -/
def Gives (value : Option Expr) (x : Term) : Prop :=
  (x.toExpr {}).toOption = value

variable {value : Option Expr} {x y : Term} {name : String}

theorem IsSymbol.means (h : IsSymbol name x) : x.toExpr {} = .ok (.ident name) := by
  obtain ⟨start, rfl⟩ := h
  simp [Term.toExpr, Piece.toString]

theorem Gives.group (h : Gives value x) : Gives value (.group x) := by
  rw [Gives, Term.toExpr]
  exact h

/-- Membership in a term. -/
theorem Gives.member (h : Gives value x) (hy : IsSymbol name y) :
    Gives (value.map (·.apply .contains (.ident name))) (.binary .member y x) := by
  subst h
  rw [Gives, Term.toExpr, hy.means, ok_bind]
  cases x.toExpr {} <;> rfl

/-- The expression of a value with comparisons behind it. -/
def compared (value : Option Expr) : List (Operator × String) → Option Expr
  | [] => value
  | [(op, name)] => value.map (·.apply op (.ident name))
  | _ :: _ :: _ => none

theorem Gives.compared {cs : List (Comparison × String)} {ys : List (Comparison × Term)}
    (h : Gives value x) (hne : cs ≠ []) (hys : AreComparisons cs ys) :
    Gives (compared value (cs.map fun (c, name) => (c.operator, name))) (.comparison x ys) := by
  subst h
  rw [Gives]
  match cs, ys, hys with
  | [(c, name)], [(_, y)], .cons ⟨rfl, hy⟩ .nil =>
    rw [Term.toExpr, hy.means]
    cases x.toExpr {} <;> rfl
  | _ :: _ :: _, _ :: _ :: _, .cons _ (.cons _ _) => rfl

/-! ### What a pipeline is read as -/

/-- A name and the comparisons and memberships that follow it. -/
def comparisonPipeline (root : String) (steps : List (Operator × String)) : Expr :=
  ⟨[.ident root], steps.map fun (op, name) => .apply (.op op) [.ident name]⟩

/-- What the text of a pipeline is read as: a name before `in`, if there is one, a value, and the
comparisons behind it. -/
structure Reading where
  /-- The name before `in`. -/
  member : Option String
  /-- The value of what stands in parentheses, or of the first name. -/
  value : Option Expr
  /-- The comparisons behind it. -/
  comparisons : List (Operator × String)

namespace Reading

/-- The expression of the whole text. The comparisons belong to the container. -/
def result (r : Reading) : Option Expr :=
  let container := compared r.value r.comparisons
  match r.member with
  | none => container
  | some name => container.map (·.apply .contains (.ident name))

/-- One more step: a membership puts the text so far into parentheses, a comparison is put behind
it. -/
def step (r : Reading) : Operator × String → Reading
  | (.contains, name) => ⟨some name, r.result, []⟩
  | (op, name) => { r with comparisons := r.comparisons ++ [(op, name)] }

/-- What the text of a pipeline is read as. -/
def ofSteps (root : String) (steps : List (Operator × String)) : Reading :=
  steps.foldl step ⟨none, some (.ident root), []⟩

end Reading

/-! ### The text of a pipeline -/

/-- The lexemes of a name before `in`. -/
def memberLexemes : Option String → List Lexeme
  | none => []
  | some name => [.word name, .word "in"]

/-- The text so far is a name before `in`, a text at the tightest level and comparisons, and is read
accordingly. -/
def Tracks (acc : Rendered) (r : Reading) : Prop :=
  ∃ ls cs, Spells acc.text.toList (memberLexemes r.member ++ (ls ++ comparisonLexemes cs)) ∧
    ExtendsAt 0 ls (Gives r.value) ∧ (r.comparisons = cs.map fun (c, name) => (c.operator, name)) ∧
    (∀ name ∈ r.member, name ∉ keywords) ∧ (∀ p ∈ cs, p.2 ∉ keywords) ∧
    acc.form = if r.member = none ∧ cs = [] then .atom else .operator 30

variable {acc : Rendered} {r : Reading} {op : Operator}

/-- The whole text is read as the result of the reading. -/
theorem Tracks.reads (h : Tracks acc r) :
    ∃ ls, Spells acc.text.toList ls ∧ ReadsAt 12 ls (Gives r.result) ∧
      (acc.form = .atom → ExtendsAt 0 ls (Gives r.result)) := by
  obtain ⟨ls, cs, hs, he, hcs, hm, hnames, hform⟩ := h
  have hcontainer :
      ReadsAt 6 (ls ++ comparisonLexemes cs) (Gives (compared r.value r.comparisons)) := by
    by_cases hne : cs = []
    · subst hne
      rw [hcs, show comparisonLexemes [] = [] from rfl, List.append_nil]
      exact he.readsAt.mono (by omega) (by omega)
    · refine ((he.readsAt.mono (by omega) (by omega)).comparisons hne hnames).imp ?_
      rintro _ ⟨y, ys, rfl, hy, hys⟩
      rw [hcs]
      exact hy.compared hne hys
  obtain ⟨member, value, comparisons⟩ := r
  cases member with
  | none =>
    refine ⟨_, hs, hcontainer.mono (by omega) (by omega), fun hatom => ?_⟩
    have hnil : cs = [] := by
      by_contra hne
      simp [hform, hne] at hatom
    subst hnil
    obtain rfl : comparisons = [] := hcs
    simpa [memberLexemes, comparisonLexemes, Reading.result, Nunjucks.compared] using he
  | some name =>
    have hop : ∀ t : Token, t.lexeme = .word "in" → operatorAt 8 t = some .member := by
      rintro ⟨kind, start, text⟩ ht
      obtain ⟨rfl, rfl⟩ := Lexeme.mk.inj ht
      rfl
    have hname := (readsAt_symbol (hm name rfl) (n := 7) (by omega)).extendsAt (by decide)
    have hread := ExtendsAt.binary (n := 6) hname (hcontainer.mono (by omega) (by omega)) hop
      fun x y hx hy => hy.member hx
    refine ⟨_, hs, hread.readsAt.mono (by omega) (by omega), fun hatom => ?_⟩
    simp [hform] at hatom

/-- The text so far can be put behind `in`. -/
theorem Tracks.container (h : Tracks acc r) :
    ∃ text ls, grammar.group acc.text (grammar.needsRight 30 acc.form) = .ok text ∧
      Spells text.toList ls ∧ ExtendsAt 0 ls (Gives r.result) := by
  obtain ⟨ls, hs, hr, hatom⟩ := h.reads
  obtain ⟨_, _, _, _, _, _, _, hform⟩ := h
  split at hform
  · refine ⟨acc.text, ls, ?_, hs, hatom hform⟩
    rw [hform]
    rfl
  · refine ⟨Grammar.parens acc.text, _, ?_, hs.parens, hr.group fun x hx => hx.group⟩
    rw [hform]
    rfl

/-- One more membership. -/
theorem Tracks.contains (h : Tracks acc r) (hn : isPlainRoot (.ident name)) :
    ∃ acc',
      grammar.extend acc (.apply (.op .contains) [⟨.ident name, grammar.render (.ident name)⟩]) =
      .ok acc' ∧ Tracks acc' (r.step (.contains, name)) := by
  simp only [isPlainRoot, Bool.and_eq_true, Bool.not_eq_true', List.contains_eq_mem,
    decide_eq_false_iff_not] at hn
  obtain ⟨s, ls, hg, hs, he⟩ := h.container
  refine ⟨_, extend_operator (.inr ⟨rfl, rfl, rfl⟩) (render_name name) rfl hg, ls, [], ?_, he, rfl,
    ?_, by simp, rfl⟩
  · have htoken : "in" ∈ infixSigns ++ infixWords := by decide
    have hinfix := infix_spells htoken (.name hn.1) hs
    rw [show infixLexeme "in" = .word "in" from rfl] at hinfix
    simpa [Reading.step, memberLexemes, comparisonLexemes, Lexeme.word] using hinfix
  · rintro _ ⟨⟩
    exact hn.2

/-- One more comparison. -/
theorem Tracks.compare (h : Tracks acc r) (hc : op.isComparison) (hne : op ≠ .contains)
    (hn : isPlainRoot (.ident name)) :
    ∃ acc', grammar.extend acc (.apply (.op op) [⟨.ident name, grammar.render (.ident name)⟩]) =
      .ok acc' ∧ Tracks acc' (r.step (op, name)) := by
  simp only [isPlainRoot, Bool.and_eq_true, Bool.not_eq_true', List.contains_eq_mem,
    decide_eq_false_iff_not] at hn
  obtain ⟨c, rfl, hspell, htoken, hlexeme, -⟩ := exists_comparison hc hne
  have hprec : c.operator.precedence = 30 := by cases c <;> rfl
  have hstep : r.step (c.operator, name) =
      { r with comparisons := r.comparisons ++ [(c.operator, name)] } := by
    cases c <;> rfl
  obtain ⟨ls, cs, hs, he, hcs, hm, hnames, hform⟩ := h
  have hg : grammar.group acc.text (grammar.needsLeft c.operator.precedence acc.form) =
      .ok acc.text := by
    rw [hprec, hform]
    split <;> rfl
  refine ⟨_, extend_operator (.inl ⟨hspell, rfl, rfl⟩) (render_name name) hg rfl, ls,
    cs ++ [(c, name)], ?_⟩
  rw [hstep]
  refine ⟨?_, he, by simp [hcs], hm, ?_, by simp [hprec]⟩
  · have hinfix := infix_spells htoken hs (.name hn.1)
    rw [hlexeme] at hinfix
    simpa [comparisonLexemes, Lexeme.word] using hinfix
  · intro p hp
    rcases List.mem_append.mp hp with hp | hp
    · exact hnames p hp
    · obtain rfl := List.mem_singleton.mp hp
      exact hn.2

/-- One more step of a pipeline is written, and the reading follows it. -/
theorem Tracks.extend (h : Tracks acc r) (hc : op.isComparison) (hn : isPlainRoot (.ident name)) :
    ∃ acc', grammar.extend acc (.apply (.op op) [⟨.ident name, grammar.render (.ident name)⟩]) =
      .ok acc' ∧ Tracks acc' (r.step (op, name)) := by
  by_cases hop : op = .contains
  · subst hop
    exact h.contains hn
  · exact h.compare hc hop hn

/-- A whole pipeline is written, and the reading follows it. -/
theorem Tracks.renderSteps {steps : List (Operator × String)} (h : Tracks acc r)
    (hsteps : ∀ s ∈ steps, s.1.isComparison ∧ isPlainRoot (.ident s.2)) :
    ∃ acc', grammar.renderSteps
        (steps.map fun (op, name) => .apply (.op op) [.ident name]) acc = .ok acc' ∧
      Tracks acc' (steps.foldl Reading.step r) := by
  induction steps generalizing acc r with
  | nil => exact ⟨acc, rfl, h⟩
  | cons s steps ih =>
    obtain ⟨op, name⟩ := s
    rw [List.forall_mem_cons] at hsteps
    obtain ⟨acc₁, hext, h₁⟩ := h.extend hsteps.1.1 hsteps.1.2
    obtain ⟨acc', hrender, h'⟩ := ih h₁ hsteps.2
    refine ⟨acc', ?_, h'⟩
    rw [List.map_cons, Grammar.renderSteps, Grammar.renderArgs_eq_map]
    simp only [Step.map, List.map_cons, List.map_nil, hext, ok_bind, hrender]

/-! ### The pipelines that are read back -/

section Results

variable {root : String} {steps : List (Operator × String)}

theorem comparisonPipeline_concat (hc : op.isComparison) :
    comparisonPipeline root (steps ++ [(op, name)]) =
      (comparisonPipeline root steps).apply op (.ident name) := by
  have hu : op.isUnary = false := by
    cases op <;> first | rfl | cases hc
  simp [comparisonPipeline, Expr.apply, Expr.pipe, hu]

theorem apply_inj {e e' a a' : Expr} {op op' : Operator} (h : e.apply op a = e'.apply op' a') :
    e = e' ∧ op = op' := by
  obtain ⟨chain, done⟩ := e
  obtain ⟨chain', done'⟩ := e'
  simp only [Expr.apply, Expr.pipe, Expr.mk.injEq] at h
  obtain ⟨rfl, h⟩ := h
  obtain ⟨rfl, hlast⟩ := List.append_inj' h rfl
  obtain ⟨hop, -⟩ := Step.apply.inj (List.cons.inj hlast).1
  exact ⟨rfl, StepName.op.inj hop⟩

/-- More than one comparison. -/
theorem compared_concat_concat (cs : List (Operator × String)) (p q : Operator × String) :
    compared value (cs ++ [p] ++ [q]) = none := by
  match cs with
  | [] => rfl
  | [_] => rfl
  | _ :: _ :: _ => rfl

namespace Reading

theorem step_compare (hne : op ≠ .contains) :
    r.step (op, name) = { r with comparisons := r.comparisons ++ [(op, name)] } := by
  cases op <;> first | rfl | exact absurd rfl hne

theorem ofSteps_concat (root : String) (steps : List (Operator × String)) (s : Operator × String) :
    ofSteps root (steps ++ [s]) = (ofSteps root steps).step s := by
  simp [ofSteps]

theorem result_contains (root : String) (steps : List (Operator × String)) (name : String) :
    (ofSteps root (steps ++ [(.contains, name)])).result =
      (ofSteps root steps).result.map (·.apply .contains (.ident name)) := by
  rw [ofSteps_concat]
  rfl

theorem result_compare (hne : op ≠ .contains) (root name : String) :
    (ofSteps root [(op, name)]).result = some ((Expr.ident root).apply op (.ident name)) := by
  rw [ofSteps, List.foldl_cons, List.foldl_nil, step_compare hne]
  rfl

/-- A comparison right behind a membership is read as part of the container. -/
theorem result_contains_compare (hne : op ≠ .contains) (root : String)
    (steps : List (Operator × String)) (name name' : String) :
    (ofSteps root (steps ++ [(.contains, name)] ++ [(op, name')])).result =
      ((ofSteps root steps).result.map (·.apply op (.ident name'))).map
        (·.apply .contains (.ident name)) := by
  rw [ofSteps_concat, step_compare hne, ofSteps_concat]
  rfl

/-- Two comparisons next to each other are read as no expression. -/
theorem result_compare_compare {op' : Operator} (hne : op ≠ .contains) (hne' : op' ≠ .contains)
    (root : String) (steps : List (Operator × String)) (name name' : String) :
    (ofSteps root (steps ++ [(op, name)] ++ [(op', name')])).result = none := by
  rw [ofSteps_concat, step_compare hne', ofSteps_concat, step_compare hne, result]
  simp only [compared_concat_concat]
  split <;> rfl

/-- A pipeline is read back exactly if every step after the first one is a membership. -/
theorem result_eq_some_iff (hsteps : ∀ s ∈ steps, s.1.isComparison) :
    (ofSteps root steps).result = some (comparisonPipeline root steps) ↔
      ∀ s ∈ steps.tail, s.1 = .contains := by
  induction steps using List.reverseRecOn with
  | nil => simp [ofSteps, result, compared, comparisonPipeline, Expr.ident, Expr.ofChain]
  | append_singleton steps s ih =>
    obtain ⟨op, name⟩ := s
    simp only [List.mem_append, List.mem_singleton, or_imp, forall_and, forall_eq] at hsteps
    rw [comparisonPipeline_concat hsteps.2]
    by_cases hop : op = .contains
    · subst hop
      have hmap : (ofSteps root steps).result.map (·.apply .contains (.ident name)) =
          some ((comparisonPipeline root steps).apply .contains (.ident name)) ↔
            (ofSteps root steps).result = some (comparisonPipeline root steps) := by
        rw [Option.map_eq_some_iff]
        constructor
        · rintro ⟨e, he, happly⟩
          rw [he, (apply_inj happly).1]
        · intro h
          exact ⟨_, h, rfl⟩
      rw [result_contains, hmap, ih hsteps.1]
      cases steps <;> simp [or_imp, forall_and]
    · rcases List.eq_nil_or_concat' steps with rfl | ⟨front, ⟨op', name'⟩, rfl⟩
      · simp [result_compare hop, comparisonPipeline, Expr.ident, Expr.ofChain]
      · have hlast : (op, name) ∈ (front ++ [(op', name')] ++ [(op, name)]).tail := by
          cases front <;> simp
        refine iff_of_false (fun h => ?_) fun h => hop (h (op, name) hlast)
        by_cases hop' : op' = .contains
        · subst hop'
          rw [result_contains_compare hop, Option.map_eq_some_iff] at h
          obtain ⟨e, -, happly⟩ := h
          exact hop (apply_inj happly).2.symm
        · rw [result_compare_compare hop' hop] at h
          cases h

/-- A pipeline is read as some expression exactly if no two comparisons are next to each other. -/
theorem isSome_result_iff :
    (ofSteps root steps).result.isSome ↔
      steps.IsChain fun s t => s.1 = .contains ∨ t.1 = .contains := by
  induction steps using List.reverseRecOn with
  | nil => simp [ofSteps, result, compared]
  | append_singleton steps s ih =>
    obtain ⟨op, name⟩ := s
    rw [List.isChain_append]
    by_cases hop : op = .contains
    · subst hop
      rw [result_contains, Option.isSome_map, ih]
      simp
    · rcases List.eq_nil_or_concat' steps with rfl | ⟨front, ⟨op', name'⟩, rfl⟩
      · simp [result_compare hop]
      · by_cases hop' : op' = .contains
        · subst hop'
          rw [result_contains, Option.isSome_map] at ih
          rw [result_contains_compare hop, Option.isSome_map, Option.isSome_map, ih]
          simp
        · rw [result_compare_compare hop' hop]
          simp [hop, hop']

end Reading

/-- What is read of the text of a pipeline: one output of the expression that the reading gives, if
it gives one. -/
theorem read_text_comparisonPipeline (hroot : isPlainRoot (.ident root))
    (hsteps : ∀ s ∈ steps, s.1.isComparison ∧ isPlainRoot (.ident s.2)) :
    ∃ text, grammar.text (comparisonPipeline root steps) = .ok text ∧
      ∃ trim, (read ("\x7b\x7b " ++ text ++ " \x7d\x7d")).toOption =
        (Reading.ofSteps root steps).result.map fun e => [.output e trim] := by
  obtain ⟨text, ls, hw, hs, he⟩ := writeRoot_spells (isReadRoot_of_isPlainRoot hroot)
  obtain rfl : root = text := Except.ok.inj hw
  have hstart : Tracks ⟨root, .atom⟩ ⟨none, some (.ident root), []⟩ := by
    refine ⟨ls, [], by simpa [memberLexemes, comparisonLexemes] using hs, ?_, rfl, by simp, by simp,
      rfl⟩
    refine ⟨he.begins, fun ending depth ts rest hts hd hr => ?_⟩
    obtain ⟨x, fuel, hx, hf, hlevel⟩ := he.reads ending depth ts rest hts hd hr
    exact ⟨x, fuel, by rw [Gives, hx]; rfl, hf, hlevel⟩
  obtain ⟨acc, hacc, h⟩ := hstart.renderSteps hsteps
  obtain ⟨ls', hs', hr, -⟩ := h.reads
  obtain ⟨x, trim, hx, hread⟩ := read_output_of_readsAt hs' hr .unset
  have hsource : Markup.output acc.text .unset = "\x7b\x7b " ++ acc.text ++ " \x7d\x7d" := by
    simp [← String.toList_inj, Markup.output, Markup.delimit, Markup.marker, Trim.unset]
  rw [hsource] at hread
  refine ⟨acc.text, ?_, trim, ?_⟩
  · have hwrap : grammar.wrap (comparisonPipeline root steps) acc = acc := by
      have hkeywords : (comparisonPipeline root steps).steps.any usesKeywords = false := by
        simp [comparisonPipeline, usesKeywords]
      simp [Grammar.wrap, grammar, hkeywords]
    have hchain : grammar.chain [.ident root] = .ok root := by
      simp [grammar, ChainWords.write, ChainWords.writeRoot, ChainWords.writeAccesses]
    rw [comparisonPipeline] at hwrap
    rw [Grammar.text, comparisonPipeline, Grammar.render, hchain, ok_bind, hacc, ok_bind, hwrap]
    rfl
  · rw [hread, ← show _ = (Reading.ofSteps root steps).result from hx]
    cases x.toExpr {} <;> rfl

/-- The text of a pipeline of comparisons and memberships is read back exactly if every step after
the first one is a membership, and it is read at all exactly if no two comparisons are next to each
other. The writer never refuses it. -/
theorem read_text_comparisonPipeline_iff (root : String) (steps : List (Operator × String))
    (hroot : isPlainRoot (.ident root))
    (hsteps : ∀ s ∈ steps, s.1.isComparison ∧ isPlainRoot (.ident s.2)) :
    ∃ text, grammar.text (comparisonPipeline root steps) = .ok text ∧
      ((∃ trim, read ("\x7b\x7b " ++ text ++ " \x7d\x7d") =
          .ok [.output (comparisonPipeline root steps) trim]) ↔ ∀ s ∈ steps.tail, s.1 = .contains) ∧
      ((∃ nodes, read ("\x7b\x7b " ++ text ++ " \x7d\x7d") = .ok nodes) ↔
        steps.IsChain fun s t => s.1 = .contains ∨ t.1 = .contains) := by
  obtain ⟨text, hw, trim, hread⟩ := read_text_comparisonPipeline hroot hsteps
  refine ⟨text, hw, ?_, ?_⟩
  · rw [← Reading.result_eq_some_iff fun s hs => (hsteps s hs).1]
    refine ⟨fun ⟨trim', h⟩ => ?_, fun h => ⟨trim, ?_⟩⟩
    · rw [h] at hread
      obtain ⟨e, he, hnodes⟩ := Option.map_eq_some_iff.mp hread.symm
      cases hnodes
      exact he
    · rw [h] at hread
      exact toOption_eq_some_iff.mp hread
  · rw [← Reading.isSome_result_iff, ← Option.isSome_map, ← hread, Option.isSome_iff_exists]
    simp only [toOption_eq_some_iff]

/-- Membership in a membership in a comparison. -/
theorem read_text_comparisonPipeline_iff_nested :
    let steps := [(Operator.lessEqual, "b"), (.contains, "c"), (.contains, "d")]
    isPlainRoot (.ident "a") ∧ (∀ s ∈ steps, s.1.isComparison ∧ isPlainRoot (.ident s.2)) ∧
    ∃ text, grammar.text (comparisonPipeline "a" steps) = .ok text ∧
      ((∃ trim, read ("\x7b\x7b " ++ text ++ " \x7d\x7d") =
          .ok [.output (comparisonPipeline "a" steps) trim]) ↔ ∀ s ∈ steps.tail, s.1 = .contains) ∧
      ((∃ nodes, read ("\x7b\x7b " ++ text ++ " \x7d\x7d") = .ok nodes) ↔
        steps.IsChain fun s t => s.1 = .contains ∨ t.1 = .contains) := by
  intro steps
  have hroot : isPlainRoot (.ident "a") := by decide +kernel
  have hsteps : ∀ s ∈ steps, s.1.isComparison ∧ isPlainRoot (.ident s.2) := by decide +kernel
  exact ⟨hroot, hsteps, read_text_comparisonPipeline_iff "a" steps hroot hsteps⟩

/-- A membership that is compared is written without parentheses and read as membership in a
comparison; a comparison that is compared is written without parentheses and not read at all. -/
theorem read_text_of_compared :
    (grammar.text (comparisonPipeline "a" [(.contains, "b"), (.equal, "c")]) = .ok "b in a == c" ∧
      ∃ trim, read "\x7b\x7b b in a == c \x7d\x7d" =
        .ok [.output (comparisonPipeline "a" [(.equal, "c"), (.contains, "b")]) trim]) ∧
    grammar.text (comparisonPipeline "a" [(.less, "b"), (.less, "c")]) = .ok "a < b < c" ∧
      ∀ nodes, read "\x7b\x7b a < b < c \x7d\x7d" ≠ .ok nodes := by
  have hroot : isPlainRoot (.ident "a") := by decide +kernel
  have hmember : ∀ s ∈ [(Operator.contains, "b"), (.equal, "c")],
      s.1.isComparison ∧ isPlainRoot (.ident s.2) := by decide +kernel
  have hless : ∀ s ∈ [(Operator.less, "b"), (.less, "c")],
      s.1.isComparison ∧ isPlainRoot (.ident s.2) := by decide +kernel
  have htext : grammar.text (comparisonPipeline "a" [(.contains, "b"), (.equal, "c")]) =
      .ok "b in a == c" := by rfl
  have htext' : grammar.text (comparisonPipeline "a" [(.less, "b"), (.less, "c")]) =
      .ok "a < b < c" := by rfl
  obtain ⟨text, hw, trim, hread⟩ := read_text_comparisonPipeline hroot hmember
  obtain ⟨text', hw', trim', hread'⟩ := read_text_comparisonPipeline hroot hless
  obtain rfl : "b in a == c" = text := Except.ok.inj (htext.symm.trans hw)
  obtain rfl : "a < b < c" = text' := Except.ok.inj (htext'.symm.trans hw')
  refine ⟨⟨htext, trim, toOption_eq_some_iff.mp hread⟩, htext', fun nodes hnodes => ?_⟩
  exact Option.some_ne_none _ ((toOption_eq_some_iff.mpr hnodes).symm.trans hread')

end Results

end Stencil.Nunjucks

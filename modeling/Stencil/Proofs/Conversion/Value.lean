import Stencil.Node.Similar
import Stencil.Proofs.Conversion
import Stencil.Proofs.Liquid.Enclosure
import Stencil.Proofs.Liquid.Reading
import Stencil.Proofs.Nunjucks.Expression

/-!
# Liquid values in Nunjucks

An output that is read as Liquid is written as Nunjucks and read back as the same expression, as
long as its words and literals mean the same in both languages. They do not always: a name of Liquid
can have dashes and question marks in it or stand for a value, a filter after a negative number is
one of the number without its sign, no index can be negative, the empty and the blank value have no
literal of their own, a filter can go by the name of another one, and what stands between the
delimiters of a comment is one even inside strings.

## Main results

* `Portable.readable` : a portable expression of a Liquid value is read back from Nunjucks.
* `read_convert_of_portable` : a portable output keeps its meaning.
-/

namespace Stencil

/-! ### Words and literals of both languages -/

/-- The text has no opening delimiter of a comment in it. -/
def isUncommented (text : String) : Bool :=
  decide (¬ ['{', '#'] <:+: text.toList)

/-- The roots of chains that mean the same in both languages. -/
def isPortableRoot : Part → Bool
  | .ident name => Text.isIdentifier name.toList && !Nunjucks.valueWords.contains name
  | .literal text => isUncommented text && text != "empty"
  | .null => true
  | _ => false

/-- The further parts of chains that mean the same in both languages. -/
def isPortableAccess : Part → Bool
  | .ident name => Text.isIdentifier name.toList
  | .literal text => isUncommented text
  | .index value => decide (0 ≤ value.toInt)
  | _ => false

/-- The steps that mean the same in both languages. -/
def isPortableStep : Step Expr → Bool
  | .apply (.custom name) _ => Nunjucks.isFilterName name &&
      !Nunjucks.specialFilters.contains name && (Builtin.ofNunjucks? name).isNone
  | .select _ value => value.bind Expr.literal? != some "true"
  | _ => true

/-- The expressions whose words and literals mean the same in both languages, at any depth. The
first step after a negative number must be an operator. -/
inductive Portable : Expr → Prop
  | intro {root : Part} {parts : List Part} {steps : List (Step Expr)} (hroot : isPortableRoot root)
      (hparts : parts.all isPortableAccess) (hsteps : ∀ s ∈ steps, isPortableStep s)
      (hargs : ∀ s ∈ steps, ∀ a ∈ s.args, Portable a)
      (hopposite : Nunjucks.isNegative (root :: parts) → ∀ s ∈ steps.head?, s.operator? ≠ none) :
      Portable ⟨root :: parts, steps⟩

/-! ### Chains and steps -/

theorem isPlainAccess_of_portable {part : Part} (hl : Liquid.isAccess part)
    (hp : isPortableAccess part) : Nunjucks.isPlainAccess part := by
  cases part with
  | ident name => exact hp
  | index value => exact hp
  | literal text =>
    simp only [Liquid.isAccess, Bool.and_eq_true, Bool.not_eq_true'] at hl
    simp [Nunjucks.isPlainAccess, Nunjucks.isQuietString, Text.unquoted_of_isString hl.1, hl]
    simpa [isPortableAccess, isUncommented] using hp
  | loopVar | null | blank => cases hp

theorem isNegative_of_isSigned {text : String} (h : Liquid.isSigned text.toList) :
    Text.isNumber text.toList ∨ Nunjucks.isNegative [.literal text] := by
  unfold Liquid.isSigned at h
  split at h
  · next cs hcs => exact .inr (by simp [Nunjucks.isNegative, hcs, h])
  · exact .inl h

theorem isReadChain_of_literal {text : String} (hl : Liquid.isOperandChain [.literal text])
    (hp : isPortableRoot (.literal text)) :
    Nunjucks.isReadChain [.literal text] || Nunjucks.isNegative [.literal text] := by
  simp only [isPortableRoot, Bool.and_eq_true, bne_iff_ne] at hp
  simp only [Nunjucks.isReadChain, Nunjucks.isReadRoot, Nunjucks.isPlainRoot, List.all_nil,
    Bool.and_true, Bool.or_eq_true]
  simp only [Liquid.isOperandChain, Bool.or_eq_true] at hl
  rcases hl with (hs | hn) | hw
  · have hstring : Nunjucks.isQuietString text.toList := by
      simpa [Nunjucks.isQuietString, hs, isUncommented] using hp.1
    exact .inl (.inl (.inl hstring))
  · exact (isNegative_of_isSigned hn).imp_left fun hnumber => .inl (.inr hnumber)
  · simp only [Liquid.literalWords, List.contains_eq_mem, List.mem_cons, List.not_mem_nil, or_false,
      decide_eq_true_eq] at hw
    rcases hw with rfl | rfl | rfl
    · decide
    · decide
    · exact absurd rfl hp.2

theorem isReadChain_of_portable {root : Part} {parts : List Part}
    (hl : Liquid.isOperandChain (root :: parts)) (hroot : isPortableRoot root)
    (hparts : parts.all isPortableAccess) :
    Nunjucks.isReadChain (root :: parts) || Nunjucks.isNegative (root :: parts) := by
  cases root with
  | ident name =>
    have haccess : ∀ part ∈ parts, Liquid.isAccess part := by
      unfold Liquid.isOperandChain at hl
      split at hl <;> simp_all
    rw [Bool.or_eq_true, Nunjucks.isReadChain, Bool.and_eq_true, List.all_eq_true]
    rw [List.all_eq_true] at hparts
    exact .inl ⟨hroot, fun part h => isPlainAccess_of_portable (haccess part h) (hparts part h)⟩
  | literal text =>
    cases parts with
    | nil => exact isReadChain_of_literal hl hroot
    | cons => cases hl
  | null =>
    cases parts with
    | nil => rfl
    | cons => cases hl
  | loopVar | blank | index => cases hroot

theorem isPlainStep_of_portable {s : Step Expr} (hs : Liquid.isReadStep s) (hp : isPortableStep s) :
    Nunjucks.isPlainStep s := by
  rw [Liquid.isReadStep, Bool.and_eq_true] at hs
  cases s with
  | apply name args =>
    cases name with
    | op op =>
      have hu : op.isUnary = false := by simpa [Step.operator?] using hs.2
      simpa [Nunjucks.isPlainStep, Liquid.isRegularStep, hu] using hs.1
    | builtin => rfl
    | custom => exact hp
  | truncate _ _ killWords =>
    have hk : killWords = false := by simpa [Liquid.isRegularStep] using hs.1
    simp [Nunjucks.isPlainStep, hk]
  | select => exact hp
  | replace | sort => rfl

/-- No comparison of a value comes right after another one. -/
theorem isChain_of_tail {steps : List (Step Expr)}
    (h : ∀ s ∈ steps.tail, Liquid.isComparisonStep s = false) :
    steps.IsChain fun s t => ¬ (Nunjucks.bindsAsComparison s ∧ Nunjucks.compares t) := by
  induction steps with
  | nil => exact .nil
  | cons s steps ih =>
    cases steps with
    | nil => exact .singleton s
    | cons t steps =>
      rw [List.tail_cons, List.forall_mem_cons] at h
      refine List.isChain_cons_cons.mpr ⟨?_, ih h.2⟩
      rintro ⟨-, ht⟩
      obtain ⟨op, hop, hcompare⟩ := Option.any_eq_true .. |>.mp ht
      have := h.1
      simp_all [Liquid.isComparisonStep]

/-- A portable expression of a Liquid value is read back from Nunjucks. -/
theorem Portable.readable {e : Expr} (hp : Portable e) (h : Liquid.IsValue e) :
    Nunjucks.Readable e := by
  induction hp with
  | intro hroot hparts hsteps _ hopposite ih =>
    cases h with
    | intro hchain hread hcompare hargs =>
      exact .intro (isReadChain_of_portable hchain hroot hparts)
        (fun s hs => isPlainStep_of_portable (hread s hs) (hsteps s hs))
        (fun s hs a ha => ih s hs a ha (hargs s hs a ha)) hopposite (isChain_of_tail hcompare)

/-! ### Outputs -/

/-- A Liquid output whose expression is portable is converted to Nunjucks, and what it is converted
to is read as one output of the same expression. -/
theorem read_convert_of_portable (source : String) (e : Expr) (trim : Trim)
    (hread : Liquid.read source = .ok [.output e trim]) (hp : Portable e) :
    ∃ text, convert "liquid" "nunjucks" source = .ok text ∧
      ∃ trim', Nunjucks.read text = .ok [.output e trim'] := by
  obtain ⟨text, trim', htext, hout⟩ :=
    (hp.readable (Liquid.isValue_of_read hread)).read_output trim
  refine ⟨Markup.output text trim, ?_, trim', hout⟩
  refine (convert_eq_ok_iff .liquid .nunjucks rfl rfl).mpr ⟨_, hread, ?_⟩
  simp [Writer.nunjucks, Nunjucks.write, Dialect.write, Dialect.writeNode, Nunjucks.dialect, htext]

theorem portable_of_chain {root : Part} {parts : List Part} (hroot : isPortableRoot root)
    (hparts : parts.all isPortableAccess) : Portable (.ofChain (root :: parts)) :=
  .intro hroot hparts (by simp) (by simp) (by simp)

/-- An access chain, an operator that only Liquid spells as a filter and two filters, with a
negative number and a word of Nunjucks among their arguments. -/
theorem read_convert_of_portable_filters :
    let source := "\x7b\x7b user['first name'].size | plus: -1 | where: 'x', in.b | upcase \x7d\x7d"
    let e := (((Expr.ofChain [.ident "user", .literal "'first name'", .ident "size"]).apply .add
      (.literal "-1")).pipe
        (.select (.literal "'x'") (some (.ofChain [.ident "in", .ident "b"])))).builtin
        .uppercase []
    Liquid.read source = .ok [.output e .unset] ∧ Portable e ∧
      ∃ text, convert "liquid" "nunjucks" source = .ok text ∧
        ∃ trim', Nunjucks.read text = .ok [.output e trim'] := by
  intro source e
  have hargs : ∀ s ∈ e.steps, ∀ a ∈ s.args, Liquid.Regular a ∧ Portable a := by
    have hnumber : Liquid.Regular (.literal "-1") ∧ Portable (.literal "-1") :=
      ⟨Liquid.regular_of_chain (by decide), portable_of_chain (by decide) (by decide)⟩
    have hstring : Liquid.Regular (.literal "'x'") ∧ Portable (.literal "'x'") :=
      ⟨Liquid.regular_of_chain (by decide), portable_of_chain (by decide) (by decide)⟩
    have hchain : Liquid.Regular (.ofChain [.ident "in", .ident "b"]) ∧
        Portable (.ofChain [.ident "in", .ident "b"]) :=
      ⟨Liquid.regular_of_chain (by decide +kernel),
        portable_of_chain (by decide +kernel) (by decide +kernel)⟩
    simpa [e, Expr.builtin, Expr.apply, Expr.pipe, Expr.ofChain, Operator.isUnary, Step.args] using
      ⟨hnumber, hstring, hchain⟩
  have hchain : Liquid.isOperandChain e.chain := by decide +kernel
  have hregular : Liquid.Regular e := .intro (Liquid.isOperandChain_iff.mp hchain)
    (by decide +kernel) fun s hs a ha => (hargs s hs a ha).1
  have hp : Portable e := .intro (by decide +kernel) (by decide +kernel) (by decide +kernel)
    (fun s hs a ha => (hargs s hs a ha).2) (by decide)
  have htext : Liquid.grammar.text e =
      .ok "user['first name'].size | plus: -1 | where: 'x', in.b | upcase" := rfl
  have hread : Liquid.read source = .ok [.output e .unset] := hregular.read_output htext .unset
  exact ⟨hread, hp, read_convert_of_portable source e .unset hread hp⟩

/-- A name with a dash in it becomes a difference. -/
theorem read_convert_of_dashed_name :
    let source := "\x7b\x7b a-b \x7d\x7d"
    ∃ e text e' trim', Liquid.read source = .ok [.output e .unset] ∧
      convert "liquid" "nunjucks" source = .ok text ∧
      Nunjucks.read text = .ok [.output e' trim'] ∧ e.similar e' = false := by
  intro source
  have hregular : Liquid.Regular (.ident "a-b") := Liquid.regular_of_chain (by decide +kernel)
  have htext : Liquid.grammar.text (.ident "a-b") = .ok "a-b" := rfl
  have hread : Liquid.read source = .ok [.output (.ident "a-b") .unset] :=
    hregular.read_output htext .unset
  have hwrite : Nunjucks.write [.output (.ident "a-b") .unset] = .ok source := rfl
  have hspells : Nunjucks.Spells "a-b".toList [.word "a", .sign "-", .word "b"] :=
    .append (.name (by decide : Text.isIdentifier "a".toList))
      (.minus (by decide) (.name (by decide : Text.isIdentifier "b".toList))) (.cons (by decide) _)
  have hleft : Nunjucks.ExtendsAt 4 [.word "a"] (Nunjucks.IsSymbol "a") :=
    (Nunjucks.readsAt_symbol (n := 3) (by decide) (by omega)).extendsAt rfl
  have hright : Nunjucks.ReadsAt 3 [.word "b"] (Nunjucks.IsSymbol "b") :=
    Nunjucks.readsAt_symbol (by decide) (by omega)
  have hdifference : Nunjucks.ExtendsAt 4 [.word "a", .sign "-", .word "b"]
      (Nunjucks.Means ((Expr.ident "a").apply .subtract (.ident "b"))) := by
    have hminus : ∀ t : Nunjucks.Token, t.lexeme = .sign "-" →
        Nunjucks.operatorAt 4 t = some .subtract := by
      rintro ⟨kind, start, text⟩ ht
      obtain ⟨rfl, rfl⟩ := Nunjucks.Lexeme.mk.inj ht
      rfl
    refine hleft.binary hright hminus ?_
    rintro _ _ ⟨start, rfl⟩ ⟨start', rfl⟩
    rfl
  obtain ⟨x, trim', hx, hout⟩ := Nunjucks.read_output_of_readsAt hspells
    (hdifference.readsAt.mono (by omega) (by omega)) .unset
  rw [Nunjucks.Means] at hx
  rw [hx] at hout
  have hconvert : convert "liquid" "nunjucks" source = .ok source :=
    (convert_eq_ok_iff .liquid .nunjucks rfl rfl).mpr ⟨_, hread, hwrite⟩
  exact ⟨_, source, _, trim', hread, hconvert, hout, by decide⟩

end Stencil

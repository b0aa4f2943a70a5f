import Stencil.Node.Equality
import Stencil.Proofs.Liquid.Fragment
import Stencil.Proofs.Nunjucks.Expression

/-!
# Properties after a dot and in brackets

A property that is a name can be written after a dot or as a string in brackets, in both languages.
A root with selectors after it is read as the chain of their parts, in and outside of loops. So the
two spellings of a property are read as the same chain, whatever selectors come before and after it.
In Nunjucks this is so with blanks around the dots and brackets too, and with parentheses around any
part of the chain. The exception is Liquid's loop object: the properties of it that have a neutral
name are given that name after a dot only.

## Main results

* `Liquid.readsAs_chainOf`, `Nunjucks.Chained.readsAs` : the text of a chain is read as that chain.
* `readsAs_dot_and_bracket` : how the two spellings of a property are read.
* `Liquid.read_loop_subscript` : the exception in a loop.
-/

namespace Stencil

namespace Liquid

/-- The text is read as an expression between the delimiters of an output. -/
def ReadsAs (scope : Scope) (text : String) (e : Expr) : Prop :=
  ∃ trim, readWith (readFragment (Markup.output text .unset).length) scope
    (Markup.output text .unset) = .ok [.output e trim]

/-- The chain that a name with selectors after it stands for. -/
def chainOf (scope : Scope) (root : String) (ss : List Selector) : List Part :=
  let first := if scope.inLoop && root == chainWords.loopVar then Part.loopVar else .ident root
  first :: Selector.parts chainWords.neutralProperty id first ss

theorem toExpr_property {accesses : List Access} {ss : List Selector}
    (h : List.Forall₂ Access.StandsFor accesses ss) (scope : Scope) (root : String) (text : Piece) :
    (Operand.property root accesses text).toExpr scope = .ofChain (chainOf scope root ss) := by
  have hparts : accessParts (scope.inLoop && root == chainWords.loopVar) accesses =
      (chainOf scope root ss).tail := by
    cases h with
    | nil => rfl
    | cons hs hss =>
      rw [accessParts, map_toPart_of_standsFor hss, hs]
      simp only [chainOf, Selector.parts, List.tail_cons]
      cases scope.inLoop && root == chainWords.loopVar <;> simp
  rw [Operand.toExpr, hparts]
  rfl

/-- A text that is read as one operand is a value by itself. -/
theorem parseValue_of_operandAt {text : List Char} (ht : Solid text) {start stop : Nat}
    {o : Operand} (h : operandAt ⟨start, text⟩ = .ok (o, ⟨stop, []⟩)) :
    parseValue ⟨start, text⟩ = .ok ⟨⟨o, []⟩, []⟩ := by
  have htrim : Piece.trimStart ⟨start, text⟩ = ⟨start, text⟩ :=
    ht.trimStart start
  have hend : atEnd ⟨start, text⟩ = false := by
    obtain ⟨c, cs, rfl, -, hc⟩ := ht
    simp [atEnd, hc]
  have hlinks : readLinks ⟨stop, []⟩ = .ok ([], ⟨stop, []⟩) := readLinks_of_atEnd rfl
  have hfilters : readFilters ⟨stop, []⟩ = .ok ([], ⟨stop, []⟩) := by
    rw [readFilters_eq]
    rfl
  simp only [parseValue, readValue, readChain, htrim, hend, readOperand, h, ok_bind, hlinks]
  simp [hfilters, complete, Piece.text_trimStart, Text.trimStart]

/-- The text of a chain is read as that chain. -/
theorem readsAs_chainOf {root : String} {ss : List Selector} (hroot : isIdentifier root.toList)
    (hss : ∀ s ∈ ss, s.isWritten isIdentifier isKey) (hne : ss ≠ []) (scope : Scope) :
    ReadsAs scope (root ++ Selector.texts ss) (.ofChain (chainOf scope root ss)) := by
  have hread := operandAt_texts hroot hss ends_nil.noAccess (.inl stops_nil) 0
  have hstands := Access.standsFor_ofSelectors hss (0 + Text.byteLength root.toList)
  obtain ⟨s, ss, rfl⟩ := List.exists_cons_of_ne_nil hne
  rw [List.append_nil] at hread
  have hsolid : Solid (root ++ Selector.texts (s :: ss)).toList := by
    rw [String.toList_append]
    exact (solid_of_isIdentifier hroot).append _
  refine (readWith_output_iff _ _ _ _).mpr ⟨_, parseValue_of_operandAt hsolid (hread.trans rfl), ?_⟩
  rw [← toExpr_property hstands scope root ⟨0, (root ++ Selector.texts (s :: ss)).toList⟩]
  rfl

/-- A chain has the same parts for both spellings of a property, unless this is a property of the
loop object with a neutral name. -/
theorem chainOf_dot_eq_bracket {name quote : String} (hname : Text.isIdentifier name.toList)
    (hquote : quote ∈ ["'", "\""]) {scope : Scope} {root : String} {before : List Selector}
    (h : scope.inLoop → root = "forloop" → before = [] → name ∉ ["rindex", "rindex0"])
    (after : List Selector) :
    chainOf scope root (before ++ .dot name :: after) =
      chainOf scope root (before ++ .bracket "" (quote ++ name ++ quote) "" :: after) := by
  refine congrArg (_ :: ·) (Selector.parts_dot_eq_parts_bracket hname hquote ?_ after)
  intro hroot hbefore
  have hloop : scope.inLoop ∧ root = "forloop" := by
    by_contra hne
    simp [chainWords, hne] at hroot
  have hplain := h hloop.1 hloop.2 hbefore
  simp only [List.mem_cons, List.not_mem_nil, or_false, not_or] at hplain
  exact (if_neg hplain.1).trans (if_neg hplain.2)

end Liquid

namespace Nunjucks

/-- The text is read as an expression between the delimiters of an output. -/
def ReadsAs (scope : Scope) (text : String) (e : Expr) : Prop :=
  ∃ trim, readIn scope (Markup.output text .unset) = .ok [.output e trim]

/-- The roots of chains: names, numbers and strings without comments. -/
def isRoot (root : String) : Bool :=
  Text.isIdentifier root.toList && root != "not" || Text.isNumber root.toList ||
    isQuietString root.toList

/-- The part of a chain that its root stands for. -/
def rootPart (scope : Scope) (root : String) : Part :=
  if ["none", "null", "None"].contains root then .null
  else if !Text.isIdentifier root.toList || ["true", "false", "True", "False"].contains root then
    .literal root
  else if scope.inLoop && root == chainWords.loopVar then .loopVar
  else .ident root

theorem toExpr_wordTerm {word : String} (h : Text.isIdentifier word.toList) (scope : Scope)
    (start : Nat) : (wordTerm ⟨start, word.toList⟩).toExpr scope =
      .ok (.ofChain [rootPart scope word]) := by
  have hbooleans : ∀ w ∈ ["true", "false", "True", "False"], w ∉ ["none", "null", "None"] := by
    decide
  simp only [wordTerm, rootPart, Piece.toString, String.ofList_toList, List.contains_eq_mem,
    decide_eq_true_eq, h, Bool.not_true, Bool.false_or]
  by_cases hb : word ∈ ["true", "false", "True", "False"]
  · simp only [if_pos hb, if_neg (hbooleans word hb), Term.toExpr, Piece.toString,
      String.ofList_toList]
    rfl
  · by_cases hn : word ∈ ["none", "null", "None"]
    · simp only [if_neg hb, if_pos hn]
      rfl
    · simp only [if_neg hb, if_neg hn, Term.toExpr, Piece.toString, String.ofList_toList]
      split <;> rfl

theorem rootPart_of_not_isIdentifier {text : String} (h : Text.isIdentifier text.toList = false)
    (scope : Scope) : rootPart scope text = .literal text := by
  have hnone : ∀ w ∈ ["none", "null", "None"], Text.isIdentifier w.toList := by decide
  rw [rootPart, if_neg (fun hw => ?_), if_pos (by simp [h])]
  rw [List.contains_eq_mem, decide_eq_true_eq] at hw
  rw [hnone text hw] at h
  cases h

/-- The root of a chain is read as its part. -/
theorem isRoot_spells {root : String} (h : isRoot root) (scope : Scope) :
    ∃ ls, Spells root.toList ls ∧
      ExtendsAt 0 ls fun x => x.toExpr scope = .ok (.ofChain [rootPart scope root]) := by
  simp only [isRoot, isQuietString, Bool.or_eq_true, Bool.and_eq_true, bne_iff_ne,
    decide_eq_true_eq] at h
  rcases h with (⟨hname, hnot⟩ | hnumber) | ⟨hstring, hquiet⟩
  · refine ⟨_, .name hname, .name (fun he => hnot ?_) (toExpr_wordTerm hname scope)⟩
    rwa [String.toList_inj] at he
  · have hword : Text.isIdentifier root.toList = false := by
      rw [Bool.eq_false_iff]
      intro hid
      obtain ⟨c, cs, hr, hc⟩ :=
        Liquid.exists_cons_of_isIdentifier (Liquid.isIdentifier_of_text hid)
      rw [hr, Text.isNumber_cons, Text.isDigit_eq_false_of_isNameStart hc] at hnumber
      cases hnumber.1
    refine ⟨_, .number hnumber, .number fun start => ?_⟩
    rw [rootPart_of_not_isIdentifier hword]
    simp [Term.toExpr, Piece.toString, Expr.literal]
  · have hword : Text.isIdentifier root.toList = false := by
      rw [Bool.eq_false_iff]
      intro hid
      obtain ⟨c, cs, hr, hc⟩ :=
        Liquid.exists_cons_of_isIdentifier (Liquid.isIdentifier_of_text hid)
      rw [hr, Text.isString_cons,
        Text.isQuote_eq_false_of_isNameChar (Text.isNameChar_of_isNameStart hc)] at hstring
      cases hstring.1
    refine ⟨_, .string hstring hquiet, .string fun start => ?_⟩
    rw [rootPart_of_not_isIdentifier hword]
    simp [Term.toExpr, Piece.toString, Expr.literal]

/-- An access chain as it is written: a root with selectors after it. There can be blanks around
each dot and bracket, and parentheses around what stands before a selector and around the whole. -/
inductive Chained where
  /-- A name, a number or a string. -/
  | root (text : String)
  /-- A chain in parentheses, between the blanks around it. -/
  | group (left : String) (inner : Chained) (right : String)
  /-- A name after a dot, with the blanks on both sides of the dot. -/
  | dot (target : Chained) (left right name : String)
  /-- A key in brackets, with the blanks before the bracket and around the key. -/
  | bracket (target : Chained) (outer left key right : String)

namespace Chained

/-- The text of a chain. -/
def text : Chained → String
  | root text => text
  | group left inner right => "(" ++ left ++ inner.text ++ right ++ ")"
  | dot target left right name => target.text ++ left ++ "." ++ right ++ name
  | bracket target outer left key right =>
    target.text ++ outer ++ "[" ++ left ++ key ++ right ++ "]"

/-- The roots, names and keys of a chain are what they should be, and the rest is blank. -/
def isWritten : Chained → Bool
  | root text => isRoot text
  | group left inner right => inner.isWritten && (left ++ right).toList.all Text.isBlank
  | dot target left right name =>
    target.isWritten && (left ++ right).toList.all Text.isBlank && Text.isIdentifier name.toList
  | bracket target outer left key right =>
    target.isWritten && (outer ++ left ++ right).toList.all Text.isBlank && isKey key.toList

/-- The parts that a chain stands for. -/
def parts (scope : Scope) : Chained → List Part
  | root text => [rootPart scope text]
  | group _ inner _ => inner.parts scope
  | dot target _ _ name => target.parts scope ++ [.ident (naming (target.parts scope) name)]
  | bracket target _ _ key _ =>
    target.parts scope ++ [Selector.keyPart (naming (target.parts scope)) key]

theorem spells {c : Chained} (h : c.isWritten) (scope : Scope) :
    ∃ ls, Spells c.text.toList ls ∧
      ExtendsAt 0 ls fun x => x.toExpr scope = .ok (.ofChain (c.parts scope)) := by
  induction c with
  | root text => exact isRoot_spells h scope
  | group left inner right ih =>
    simp only [isWritten, Bool.and_eq_true, String.toList_append, List.all_append,
      List.all_eq_true] at h
    obtain ⟨ls, hs, he⟩ := ih h.1
    have hclosed := hs.append (.blanks h.2.2 (.lone (c := ')') (by decide) .nil))
      (.blanks h.2.2 (.cons (by decide) []))
    refine ⟨_, ?_, (he.readsAt.mono (by omega) (by omega)).group fun x hx => ?_⟩
    · simpa [text, Lexeme.sign] using Spells.lone (c := '(') (by decide) (hclosed.blanks h.2.1)
    · rw [Term.toExpr]
      exact hx
  | dot target left right name ih =>
    simp only [isWritten, Bool.and_eq_true, String.toList_append, List.all_append,
      List.all_eq_true] at h
    obtain ⟨ls, hs, he⟩ := ih h.1.1
    simpa [text, parts] using property_spells h.1.2.1 h.1.2.2 h.2 hs he
  | bracket target outer left key right ih =>
    simp only [isWritten, Bool.and_eq_true, String.toList_append, List.all_append,
      List.all_eq_true] at h
    obtain ⟨ls, hs, he⟩ := ih h.1.1
    simpa [text, parts] using subscript_spells h.1.2.1.1 h.1.2.1.2 h.2 h.1.2.2 hs he

/-- The text of a chain is read as the parts that it stands for. -/
theorem readsAs {c : Chained} (h : c.isWritten) (scope : Scope) :
    ReadsAs scope c.text (.ofChain (c.parts scope)) := by
  obtain ⟨ls, hs, he⟩ := spells h scope
  obtain ⟨x, trim, hx, hread⟩ :=
    readIn_output_of_readsAt hs (he.readsAt.mono (by omega) (by omega)) .unset scope
  exact ⟨trim, by rw [hread, hx, map_ok]⟩

/-- The second chain is the first one with one property `name` in brackets instead of after a dot.
The blanks around the two may differ. -/
inductive Respelled (name quote : String) : Chained → Chained → Prop
  | property {target : Chained} {left right outer left' right' : String} :
    Respelled name quote (.dot target left right name)
      (.bracket target outer left' (quote ++ name ++ quote) right')
  | group {c d : Chained} {left right : String} : Respelled name quote c d →
    Respelled name quote (.group left c right) (.group left d right)
  | dot {c d : Chained} {left right after : String} : Respelled name quote c d →
    Respelled name quote (.dot c left right after) (.dot d left right after)
  | bracket {c d : Chained} {outer left key right : String} : Respelled name quote c d →
    Respelled name quote (.bracket c outer left key right) (.bracket d outer left key right)

theorem Respelled.parts_eq {name quote : String} {c d : Chained} (h : Respelled name quote c d)
    (hname : Text.isIdentifier name.toList) (hquote : quote ∈ ["'", "\""]) (scope : Scope) :
    c.parts scope = d.parts scope := by
  induction h with
  | property => simp only [parts, Selector.keyPart_quoted hname hquote]
  | group _ ih => simpa only [parts] using ih
  | dot _ ih => simp only [parts, ih]
  | bracket _ ih => simp only [parts, ih]

end Chained

end Nunjucks

/-- A property that is a name is read alike after a dot and in brackets: as the same chain, whatever
chain stands before it and whatever selectors come after it, in and outside of loops. In Liquid this
does not hold of the two properties of the loop object that have a neutral name, which is given to
them after a dot only. In Nunjucks it holds of every chain, with blanks and parentheses in it. -/
theorem readsAs_dot_and_bracket {name quote : String} (hname : Text.isIdentifier name.toList)
    (hquote : quote ∈ ["'", "\""]) (scope : Scope) (root : String) (before after : List Selector) :
    let dot := before ++ .dot name :: after
    let bracket := before ++ .bracket "" (quote ++ name ++ quote) "" :: after
    (Liquid.isIdentifier root.toList →
      (∀ s ∈ before ++ after, s.isWritten Liquid.isIdentifier Liquid.isKey) →
      ((scope.inLoop → root = "forloop" → before = [] → name ∉ ["rindex", "rindex0"]) →
        ∃ chain, Liquid.ReadsAs scope (root ++ Selector.texts dot) (.ofChain chain) ∧
          Liquid.ReadsAs scope (root ++ Selector.texts bracket) (.ofChain chain)) ∧
      (scope.inLoop → root = "forloop" → before = [] → ∃ more,
        Liquid.ReadsAs scope (root ++ Selector.texts dot)
          (.ofChain (.loopVar :: .ident (Liquid.chainWords.neutralProperty name) :: more)) ∧
        Liquid.ReadsAs scope (root ++ Selector.texts bracket)
          (.ofChain (.loopVar :: .ident name :: more)))) ∧
    (∀ c d : Nunjucks.Chained, c.Respelled name quote d → c.isWritten → d.isWritten →
      ∃ chain, Nunjucks.ReadsAs scope c.text (.ofChain chain) ∧
        Nunjucks.ReadsAs scope d.text (.ofChain chain)) := by
  intro dot bracket
  have hkey := Selector.isString_of_quoted hname hquote
  refine ⟨fun hroot hss => ?_, fun c d hcd hc hd => ⟨_, Nunjucks.Chained.readsAs hc scope, ?_⟩⟩
  · rw [List.forall_mem_append] at hss
    have hdot : ∀ s ∈ dot, s.isWritten Liquid.isIdentifier Liquid.isKey :=
      List.forall_mem_append.mpr
        ⟨hss.1, List.forall_mem_cons.mpr ⟨Liquid.isIdentifier_of_text hname, hss.2⟩⟩
    have hbracket : ∀ s ∈ bracket, s.isWritten Liquid.isIdentifier Liquid.isKey :=
      List.forall_mem_append.mpr ⟨hss.1, List.forall_mem_cons.mpr
        ⟨Selector.isWritten_bracket (by rw [Liquid.isKey, hkey, Bool.true_or]), hss.2⟩⟩
    have h₁ := Liquid.readsAs_chainOf hroot hdot (by simp [dot]) scope
    have h₂ := Liquid.readsAs_chainOf hroot hbracket (by simp [bracket]) scope
    refine ⟨fun hplain => ⟨_, h₁, ?_⟩, fun hin hloop hbefore => ?_⟩
    · rwa [Liquid.chainOf_dot_eq_bracket hname hquote hplain after]
    · subst hloop hbefore
      have hfirst : (scope.inLoop && "forloop" == Liquid.chainWords.loopVar) = true := by
        rw [hin]
        rfl
      refine ⟨after.map (Selector.toPart id id), ?_, ?_⟩
      · simpa [Liquid.chainOf, hfirst, dot, Selector.parts, Selector.toPart] using h₁
      · simpa [Liquid.chainOf, hfirst, bracket, Selector.parts, Selector.toPart,
          Selector.keyPart_quoted hname hquote] using h₂
  · rw [hcd.parts_eq hname hquote]
    exact Nunjucks.Chained.readsAs hd scope

/-- Properties in a loop: one of an item of an item, and those that count down. -/
theorem readsAs_dot_and_bracket_loop :
    (∃ chain, Liquid.ReadsAs .loopBody ("xs" ++ Selector.texts
        [.bracket " " "0" "", .dot "size", .dot "a-b?"]) (.ofChain chain) ∧
      Liquid.ReadsAs .loopBody ("xs" ++ Selector.texts
        [.bracket " " "0" "", .bracket "" "'size'" "", .dot "a-b?"]) (.ofChain chain)) ∧
    (∃ more, Liquid.ReadsAs .loopBody ("forloop" ++ Selector.texts [.dot "rindex"])
        (.ofChain (.loopVar :: .ident (Liquid.chainWords.neutralProperty "rindex") :: more)) ∧
      Liquid.ReadsAs .loopBody ("forloop" ++ Selector.texts [.bracket "" "\"rindex\"" ""])
        (.ofChain (.loopVar :: .ident "rindex" :: more))) ∧
    (∃ chain, Nunjucks.ReadsAs .loopBody "( loop ) . revindex.x" (.ofChain chain) ∧
      Nunjucks.ReadsAs .loopBody "( loop ) [ 'revindex' ].x" (.ofChain chain)) := by
  refine ⟨?_, ?_, ?_⟩
  · exact ((@readsAs_dot_and_bracket "size" "'" (by decide) (by decide)
      .loopBody "xs" [.bracket " " "0" ""] [.dot "a-b?"]).1 (by decide) (by decide)).1
        (fun _ h => absurd h (by decide))
  · exact ((@readsAs_dot_and_bracket "rindex" "\"" (by decide) (by decide)
      .loopBody "forloop" [] []).1 (by decide) (by decide)).2 rfl rfl rfl
  · have h := (@readsAs_dot_and_bracket "revindex" "'" (by decide) (by decide) .loopBody "" [] []).2
    exact h (.dot (.dot (.group " " (.root "loop") " ") " " " " "revindex") "" "" "x")
      (.dot (.bracket (.group " " (.root "loop") " ") " " " " "'revindex'" " ") "" "" "x")
      (.dot .property) (by decide) (by decide)

/-- In a loop the property that counts down to one is a different one in brackets. -/
theorem Liquid.read_loop_subscript :
    Liquid.read "\x7b% for x in xs %\x7d\x7b\x7b forloop.rindex \x7d\x7d\x7b% endfor %\x7d" =
        .ok [.loop "x" (.ident "xs") [.output (.ofChain [.loopVar, .ident loopRevindex]) {}] none
          {} {} {}] ∧
      Liquid.read "\x7b% for x in xs %\x7d\x7b\x7b forloop[\"rindex\"] \x7d\x7d\x7b% endfor %\x7d" =
        .ok [.loop "x" (.ident "xs") [.output (.ofChain [.loopVar, .ident "rindex"]) {}] none
          {} {} {}] := by
  decide +kernel

end Stencil

import Stencil.Proofs.Conversion.ValueList
import Stencil.Proofs.Conversion.WellFormed
import Stencil.Proofs.Nunjucks.Selection

/-!
# Case distinctions with several values

Nunjucks has no form for a clause with several values, so a case distinction with such a clause is
refused. Whether it has one is told from the text of its clauses. If the clauses are regular, that
is right: exactly the case distinctions in which some clause lists several values are refused, and
all others are converted.

## Main results

* `Nunjucks.write_case_of_listsMany`, `Nunjucks.exists_write_case` : when a case distinction is
  refused, and when it is written.
* `Liquid.any_listsMany` : the arms of regular clauses are taken for what they are.
* `convert_caseOf_eq_error_iff` : a case distinction is refused exactly if some clause lists several
  values.
-/

namespace Stencil

namespace Liquid

/-! ### Clauses as arms -/

variable {fragment : FragmentReader} {scope : Scope} {P : List Node → Prop}

/-- The arm of a clause, with a property of the nodes in its body. -/
structure IsArm (scope : Scope) (P : List Node → Prop) (w : When Element) (b : Branch (List Node)) :
    Prop where
  condition : b.condition = some (whenCondition scope w.tag w.values)
  body : P b.body

/-- The clauses of a case distinction whose bodies are read, as arms. -/
theorem exists_whenArms {whens : List (When Element)}
    (h : ∀ w ∈ whens, ∃ nodes, Element.toNodes fragment scope w.body = .ok nodes ∧ P nodes) :
    ∃ arms, Element.whenArms fragment scope whens = .ok arms ∧
      List.Forall₂ (IsArm scope P) whens arms := by
  induction whens with
  | nil => exact ⟨[], by rw [Element.whenArms], .nil⟩
  | cons w whens ih =>
    obtain ⟨⟨nodes, hnodes, hP⟩, hrest⟩ := List.forall_mem_cons.mp h
    obtain ⟨arms, harms, hforall⟩ := ih hrest
    obtain ⟨head, values, body⟩ := w
    refine ⟨⟨some (whenCondition scope head values), nodes, head.trim⟩ :: arms, ?_,
      .cons ⟨rfl, hP⟩ hforall⟩
    rw [Element.whenArms, hnodes, harms]
    rfl

/-- The alternative of a case distinction whose body is read, as an arm. -/
theorem exists_toAlternative {otherwise : Option (Alternative Element)}
    (h : ∀ a ∈ otherwise, ∃ nodes, Element.toNodes fragment scope a.body = .ok nodes ∧ P nodes) :
    ∃ alternative, Element.toAlternative fragment scope otherwise = .ok alternative ∧
      ∀ b ∈ Branch.ofAlternative alternative, b.condition = none ∧ P b.body := by
  cases otherwise with
  | none => exact ⟨none, by rw [Element.toAlternative], List.forall_mem_nil _⟩
  | some a =>
    obtain ⟨nodes, hnodes, hP⟩ := h a rfl
    obtain ⟨head, body⟩ := a
    refine ⟨some (nodes, head.trim), ?_, List.forall_mem_singleton.mpr ⟨rfl, hP⟩⟩
    rw [Element.toAlternative, hnodes]
    rfl

end Liquid

/-! ### Case distinctions -/

namespace Nunjucks

variable {β : Type} {language : String} {subject : Expr} {arms : List (Branch β)}

/-- The condition of an arm is taken for a list of values. -/
def listsMany (b : Branch β) : Bool :=
  b.condition.any fun value => value.literal?.any isValueList

theorem caseArms_of_listsMany (h : arms.any listsMany) :
    caseArms language subject arms = .error (multiValueError language) := by
  induction arms with
  | nil => cases h
  | cons b arms ih =>
    rw [List.any_cons, Bool.or_eq_true] at h
    obtain ⟨_ | value, body, trim⟩ := b
    · rw [caseArms, ih (h.resolve_left Bool.false_ne_true)]
      rfl
    · rw [caseArms]
      split
      · rfl
      · next hvalue =>
        rw [ih (h.resolve_left hvalue)]
        rfl

theorem exists_caseArms (h : arms.any listsMany = false) :
    ∃ arms', caseArms language subject arms = .ok arms' := by
  induction arms with
  | nil => exact ⟨[], rfl⟩
  | cons b arms ih =>
    rw [List.any_cons, Bool.or_eq_false_iff] at h
    obtain ⟨rest, hrest⟩ := ih h.2
    obtain ⟨_ | value, body, trim⟩ := b
    · exact ⟨⟨none, body, trim⟩ :: rest, by rw [caseArms, hrest]; rfl⟩
    · refine ⟨⟨some (subject.apply .equal value), body, trim⟩ :: rest, ?_⟩
      rw [caseArms, if_neg (by simpa [listsMany] using h.1), hrest]
      rfl

variable {arms : List (Branch (List Node))} {body : List Node} {first trim endTrim : Trim}

/-- A case distinction with a list of values is refused. -/
theorem write_case_of_listsMany (h : arms.any listsMany) :
    write [.conditional .caseOf (⟨some subject, body, first⟩ :: arms) trim endTrim] =
      .error (multiValueError languageName) := by
  rw [write_conditional, lower, lowerCase, caseArms_of_listsMany h]
  rfl

/-- A case distinction without lists of values is written, if its bodies are. -/
theorem exists_write_case {word : String} {scope : Scope} (hs : subject.EveryRead word scope)
    (ha : ∀ b ∈ arms, (∀ e ∈ b.condition, e.EveryRead word scope) ∧ ∃ text, write b.body = .ok text)
    (h : arms.any listsMany = false) :
    ∃ text, write [.conditional .caseOf (⟨some subject, body, first⟩ :: arms) trim endTrim] =
      .ok text := by
  have harms : Markup.ArmsFailOnly (fun _ => False) (Expr.EveryRead word scope)
      (arms.map (Branch.map dialect.write)) := by
    rw [Markup.ArmsFailOnly, List.forall_mem_map]
    intro b hb
    obtain ⟨hc, text, htext⟩ := ha b hb
    refine ⟨hc, ?_⟩
    rw [Branch.map, show dialect.write b.body = .ok text from htext]
    exact .ok text
  have hcase : FailsOnly (fun _ => False)
      (caseArms languageName subject (arms.map (Branch.map dialect.write))) := by
    have hnone : (arms.map (Branch.map dialect.write)).any listsMany = false := by
      rw [List.any_map]
      exact h
    obtain ⟨arms', harms'⟩ := @exists_caseArms _ languageName subject _ hnone
    rw [harms']
    exact .ok arms'
  rw [write_singleton, Dialect.writeNode, Dialect.writeBranches_eq_map]
  exact (failsOnly_writeCase trim endTrim hs harms hcase).exists_ok

end Nunjucks

namespace Liquid

/-- The clauses of a case distinction are read from their tags. -/
theorem DerivesWhens.parseWhen : {ts : List Token} → {whens : List (When Element)} →
    {otherwise : Option (Alternative Element)} → {closing : Tag} →
    DerivesWhens ts whens otherwise closing →
      ∀ w ∈ whens, Liquid.parseWhen w.tag.args = .ok w.values
  | _, _, _, _, .last _ => List.forall_mem_nil _
  | _, _, _, _, .clause _ hv _ hs => List.forall_mem_cons.mpr ⟨hv, hs.parseWhen⟩

/-- Arms are taken for lists exactly if their clauses are lists. -/
theorem any_listsMany {scope : Scope} {P : List Node → Prop} {whens : List (When Element)}
    {arms : List (Branch (List Node))}
    (h : List.Forall₂ (IsArm scope P) whens arms)
    (hparse : ∀ w ∈ whens, Liquid.parseWhen w.tag.args = .ok w.values)
    (hregular : ∀ w ∈ whens, w.IsRegular) :
    arms.any Nunjucks.listsMany = whens.any fun w => decide (2 ≤ w.values.length) := by
  induction h with
  | nil => rfl
  | cons hb _ ih =>
    obtain ⟨hw, hparse⟩ := List.forall_mem_cons.mp hparse
    obtain ⟨hr, hregular⟩ := List.forall_mem_cons.mp hregular
    rw [List.any_cons, List.any_cons, ih hparse hregular, Nunjucks.listsMany, hb.condition,
      Option.any_some, isValueList_whenCondition hw hr]

/-- The clauses and the alternative of a case distinction over a variable. -/
def Element.caseOverVariable? :
    Element → Option (List (When Element) × Option (Alternative Element))
  | .caseOf _ ⟨⟨.property _ [] _, []⟩, []⟩ whens otherwise _ => some (whens, otherwise)
  | _ => none

variable {source : String} {e : Element} {whens : List (When Element)}
  {otherwise : Option (Alternative Element)}

theorem eq_caseOf_of_caseOverVariable? (h : e.caseOverVariable? = some (whens, otherwise)) :
    ∃ opening name text closing,
      e = .caseOf opening ⟨⟨.property name [] text, []⟩, []⟩ whens otherwise closing := by
  unfold Element.caseOverVariable? at h
  split at h
  · cases h
    exact ⟨_, _, _, _, rfl⟩
  · cases h

/-- The clauses of a source that is a case distinction are read from their tags. -/
theorem parseWhen_of_parse (hparse : parse source = .ok [e])
    (h : e.caseOverVariable? = some (whens, otherwise)) :
    ∀ w ∈ whens, parseWhen w.tag.args = .ok w.values := by
  obtain ⟨opening, name, text, closing, rfl⟩ := eq_caseOf_of_caseOverVariable? h
  obtain ⟨ts, -, hts⟩ := bind_eq_ok.mp hparse
  cases derives_of_ofTokens hts with
  | caseOf ho hv hb ha hs => exact ha.parseWhen

/-- The template of a source that is a case distinction over a variable. -/
theorem read_of_caseOverVariable? {arms : List (Branch (List Node))}
    {alternative : Option (List Node × Trim)} (hparse : parse source = .ok [e])
    (h : e.caseOverVariable? = some (whens, otherwise))
    (harms : Element.whenArms (readFragment source.length) {} whens = .ok arms)
    (halternative :
      Element.toAlternative (readFragment source.length) {} otherwise = .ok alternative) :
    ∃ subject trim endTrim, EveryRead {} subject ∧ read source = .ok [.conditional .caseOf
      (⟨some subject, [], .unset⟩ :: (arms ++ Branch.ofAlternative alternative)) trim endTrim] := by
  obtain ⟨opening, name, text, closing, rfl⟩ := eq_caseOf_of_caseOverVariable? h
  refine ⟨(Operand.property name [] text).toExpr {}, opening.trim, closing.trim,
    Operand.isRead {} _, ?_⟩
  rw [read, readWith, hparse, bind_ok, Element.toNodes, Element.toNodes, Element.toNode, harms,
    halternative]
  rfl

/-- What is read from the clauses and the alternative of a case distinction. -/
theorem everyRead_arms {scope : Scope} {P : List Node → Prop} {arms : List (Branch (List Node))}
    {alternative : Option (List Node × Trim)} (harms : List.Forall₂ (IsArm scope P) whens arms)
    (hlast : ∀ b ∈ Branch.ofAlternative alternative, b.condition = none ∧ P b.body) :
    ∀ b ∈ arms ++ Branch.ofAlternative alternative,
      (∀ e ∈ b.condition, EveryRead scope e) ∧ P b.body := by
  refine List.forall_mem_append.mpr ⟨?_, fun b hb => ?_⟩
  · induction harms with
    | nil => exact List.forall_mem_nil _
    | cons hb _ ih =>
      refine List.forall_mem_cons.mpr ⟨⟨fun e he => ?_, hb.body⟩, ih⟩
      rw [hb.condition] at he
      exact Option.some.inj he ▸ (stated_whenCondition scope _ _).everyRead
  · obtain ⟨hnone, hP⟩ := hlast b hb
    rw [hnone]
    exact ⟨fun _ he => absurd he (Option.not_mem_none _), hP⟩

end Liquid

open Liquid in
/-- A case distinction over a variable, with bodies that have a form in Nunjucks and with regular
clauses, is refused because of several values exactly if some clause lists several values, and is
converted otherwise. -/
theorem convert_caseOf_eq_error_iff {source : String} {e : Element} {whens : List (When Element)}
    {otherwise : Option (Alternative Element)} (hparse : parse source = .ok [e])
    (hcase : e.caseOverVariable? = some (whens, otherwise))
    (hbodies : ∀ body ∈ whens.map (·.body) ++ otherwise.toList.map (·.body), ∃ nodes,
      Element.toNodes (readFragment source.length) {} body = .ok nodes ∧
        ∃ text, Nunjucks.write nodes = .ok text)
    (hregular : ∀ w ∈ whens, w.IsRegular) :
    (convert "liquid" "nunjucks" source =
        .error (.write (Nunjucks.multiValueError Nunjucks.languageName)) ↔
      ∃ w ∈ whens, ∃ values, parseWhen w.tag.args = .ok values ∧ 2 ≤ values.length) ∧
    ((∀ w ∈ whens, ∀ values, parseWhen w.tag.args = .ok values → values.length < 2) →
      ∃ text, convert "liquid" "nunjucks" source = .ok text) := by
  have hvalues := parseWhen_of_parse hparse hcase
  rw [List.forall_mem_append, List.forall_mem_map, List.forall_mem_map] at hbodies
  obtain ⟨arms, harms, hforall⟩ := exists_whenArms hbodies.1
  obtain ⟨alternative, halternative, hlast⟩ := exists_toAlternative fun a ha =>
    hbodies.2 a (Option.mem_toList.mpr ha)
  obtain ⟨subject, trim, endTrim, hsubject, hread⟩ :=
    read_of_caseOverVariable? hparse hcase harms halternative
  have hany : (arms ++ Branch.ofAlternative alternative).any Nunjucks.listsMany =
      whens.any fun w => decide (2 ≤ w.values.length) := by
    have hnone : (Branch.ofAlternative alternative).any Nunjucks.listsMany = false := by
      refine List.any_eq_false.mpr fun b hb => ?_
      simp [Nunjucks.listsMany, (hlast b hb).1]
    rw [List.any_append, any_listsMany hforall hvalues hregular, hnone, Bool.or_false]
  by_cases hmany : ∃ w ∈ whens, 2 ≤ w.values.length
  · obtain ⟨w, hw, hlength⟩ := hmany
    have hlists : (arms ++ Branch.ofAlternative alternative).any Nunjucks.listsMany := by
      rw [hany]
      exact List.any_eq_true.mpr ⟨w, hw, decide_eq_true hlength⟩
    refine ⟨iff_of_true ?_ ⟨w, hw, w.values, hvalues w hw, hlength⟩, fun hfew => ?_⟩
    · exact (convert_eq_write_iff .liquid .nunjucks rfl rfl).mpr
        ⟨_, hread, Nunjucks.write_case_of_listsMany hlists⟩
    · exact absurd (hfew w hw w.values (hvalues w hw)) (Nat.not_lt.mpr hlength)
  · have hlists : (arms ++ Branch.ofAlternative alternative).any Nunjucks.listsMany = false := by
      rw [hany]
      refine List.any_eq_false.mpr fun w hw => ?_
      rw [decide_eq_true_iff]
      exact fun hlength => hmany ⟨w, hw, hlength⟩
    have hevery := everyRead_arms hforall hlast
    obtain ⟨written, hwritten⟩ := Nunjucks.exists_write_case hsubject hevery hlists
    have hconvert : convert "liquid" "nunjucks" source = .ok written :=
      (convert_eq_ok_iff .liquid .nunjucks rfl rfl).mpr ⟨_, hread, hwritten⟩
    refine ⟨iff_of_false ?_ ?_, fun _ => ⟨written, hconvert⟩⟩
    · rw [hconvert]
      rintro ⟨⟩
    · rintro ⟨w, hw, values, hparsed, hlength⟩
      obtain rfl := Except.ok.inj ((hvalues w hw).symm.trans hparsed)
      exact hmany ⟨w, hw, hlength⟩

open Liquid in
/-- A single string with a comma and a doubled quote, and a list of a number and a property with a
comma in its key, which is refused. -/
theorem convert_caseOf_eq_error_iff_listed :
    let source := "\x7b% case x %\x7d\x7b% when 'a, ''b' %\x7dy" ++
      "\x7b% when 1 or\tz[\"k,\"] or 2 %\x7dn\x7b% else %\x7d\x7b% endcase %\x7d"
    (∃ elements ∈ (parse source).toOption, ∃ e ∈ elements, ∃ p ∈ e.caseOverVariable?,
      p.1.map (·.values.length) = [1, 3]) ∧
    convert "liquid" "nunjucks" source =
      .error (.write (Nunjucks.multiValueError Nunjucks.languageName)) := by
  intro source
  have hshape : ∃ elements ∈ (parse source).toOption, elements.length = 1 ∧ ∃ e ∈ elements,
      ∃ p ∈ e.caseOverVariable?, (∀ w ∈ p.1, w.IsRegular) ∧ p.1.map (·.values.length) = [1, 3] ∧
        ∀ body ∈ p.1.map (·.body) ++ p.2.toList.map (·.body),
          ∃ nodes ∈ (Element.toNodes (readFragment source.length) {} body).toOption,
            (Nunjucks.write nodes).isOk := by
    decide +kernel
  obtain ⟨elements, helements, hlength, e, he, ⟨whens, otherwise⟩, hcase, hregular, hcounts,
    hwritten⟩ := hshape
  refine ⟨⟨elements, helements, e, he, _, hcase, hcounts⟩, ?_⟩
  have hparse : parse source = .ok [e] := by
    obtain ⟨e', rfl⟩ := List.length_eq_one_iff.mp hlength
    obtain rfl := List.mem_singleton.mp he
    exact toOption_eq_some_iff.mp helements
  have hmany : ∃ w ∈ whens, w.values.length = 3 := by
    have hmem : 3 ∈ whens.map (·.values.length) := by rw [hcounts]; decide
    exact List.mem_map.mp hmem
  obtain ⟨w, hw, hthree⟩ := hmany
  refine (convert_caseOf_eq_error_iff hparse hcase (fun body hbody => ?_) hregular).1.mpr
    ⟨w, hw, w.values, parseWhen_of_parse hparse hcase w hw, by omega⟩
  obtain ⟨nodes, hnodes, hok⟩ := hwritten body hbody
  exact ⟨nodes, toOption_eq_some_iff.mp hnodes, exists_of_isOk hok⟩

open Liquid in
/-- A single string that escapes its own quote is refused as a list, and a list with a tab after its
separator is not. -/
theorem convert_caseOf_misjudged :
    let single := "\x7b% case x %\x7d\x7b% when 'it\\'s, a' %\x7dy\x7b% endcase %\x7d"
    let double := "\x7b% case x %\x7d\x7b% when 1 or\t2 %\x7dy\x7b% endcase %\x7d"
    ((∃ elements ∈ (parse single).toOption, ∃ e ∈ elements, ∃ p ∈ e.caseOverVariable?,
        p.1.map (·.values.length) = [1]) ∧
      convert "liquid" "nunjucks" single =
        .error (.write (Nunjucks.multiValueError Nunjucks.languageName))) ∧
    (∃ elements ∈ (parse double).toOption, ∃ e ∈ elements, ∃ p ∈ e.caseOverVariable?,
        p.1.map (·.values.length) = [2]) ∧
      convert "liquid" "nunjucks" double =
        .ok "\x7b% if x == 1 or\t2 %\x7dy\x7b% endif %\x7d" := by
  intro single double
  have hsingle : (∃ elements ∈ (parse single).toOption, ∃ e ∈ elements,
        ∃ p ∈ e.caseOverVariable?, p.1.map (·.values.length) = [1]) ∧
      ∃ nodes ∈ (read single).toOption,
        Nunjucks.write nodes = .error (Nunjucks.multiValueError Nunjucks.languageName) := by
    decide +kernel
  have hdouble : (∃ elements ∈ (parse double).toOption, ∃ e ∈ elements,
        ∃ p ∈ e.caseOverVariable?, p.1.map (·.values.length) = [2]) ∧
      ∃ nodes ∈ (read double).toOption,
        Nunjucks.write nodes = .ok "\x7b% if x == 1 or\t2 %\x7dy\x7b% endif %\x7d" := by
    decide +kernel
  obtain ⟨hcounts, nodes, hread, hwrite⟩ := hsingle
  obtain ⟨hcounts', nodes', hread', hwrite'⟩ := hdouble
  refine ⟨⟨hcounts, ?_⟩, hcounts', ?_⟩
  · exact (convert_eq_write_iff .liquid .nunjucks rfl rfl).mpr
      ⟨nodes, toOption_eq_some_iff.mp hread, hwrite⟩
  · exact (convert_eq_ok_iff .liquid .nunjucks rfl rfl).mpr
      ⟨nodes', toOption_eq_some_iff.mp hread', hwrite'⟩

end Stencil

import Stencil.Node.Equality
import Stencil.Proofs.Conversion
import Stencil.Proofs.Liquid.Scoping
import Stencil.Proofs.Nunjucks.Scoping
import Stencil.Proofs.Writing

/-!
# Conversions and the shape of templates

What is read is well formed, so no conversion between the languages that are always there fails
because of the shape of a template. Nunjucks moreover has a form for everything that is read from
Nunjucks.

## Main results

* `Nunjucks.serves_grammar`, `Liquid.serves_grammar` : how expressions fail to be written.
* `Nunjucks.failsOnly_write`, `Liquid.failsOnly_write` : how templates fail to be written.
* `convert_ne_malformed` : no conversion fails because of the shape of a template.
-/

namespace Stencil

open Markup (ArmsFailOnly)

variable {A : WriteError → Prop} {kinds : Node → Bool} {word : String} {scope : Scope} {n : Node}
  {nodes : List Node}

/-- What a grammar makes of an expression that is read. -/
theorem Grammar.Serves.text_of_everyRead {g : Grammar} (hg : g.Serves A) {e : Expr}
    (h : e.EveryRead word scope) : FailsOnly A (g.text e) :=
  hg.text (h.mono fun _ => (·.toWellFormed))

/-! ### Nunjucks -/

namespace Nunjucks

theorem failsOnly_argTexts {args : List Argument} (h : ∀ a ∈ args, FailsOnly A a.rendered) :
    FailsOnly A (argTexts args) := by
  induction args with
  | nil => exact .ok _
  | cons a args ih =>
    rw [List.forall_mem_cons] at h
    exact (h.1.map).bind fun _ _ => (ih h.2).bind fun _ _ => .ok _

theorem operatorForm_ne_filter : ∀ op : Operator, operatorForm op ≠ .filter := by
  rintro ⟨⟩ <;> nofun

/-- Every step that is no operator has a form as a filter. -/
theorem failsOnly_stepText {s : Step Argument} (ha : ∀ a ∈ s.args, FailsOnly A a.rendered)
    (hop : s.operator? = none) : FailsOnly A (stepText s) := by
  cases s with
  | apply name args =>
    have hname : FailsOnly A (stepName name) := by
      cases name with
      | op => cases hop
      | builtin | custom => exact .ok _
    exact hname.bind fun _ _ => (failsOnly_argTexts ha).bind fun _ _ => .ok _
  | truncate length ellipsis killWords =>
    obtain ⟨hlength, hellipsis⟩ := List.forall_mem_cons.mp ha
    have hmore : FailsOnly A (truncateArgs ellipsis killWords) := by
      cases ellipsis with
      | none => exact .ok _
      | some ellipsis => exact ((hellipsis ellipsis (by simp)).map).map
    exact hlength.map.bind fun _ _ => hmore.bind fun _ _ => .ok _
  | replace old new count => exact (failsOnly_argTexts ha).map
  | select key value =>
    obtain ⟨hkey, hvalue⟩ := List.forall_mem_cons.mp ha
    exact (failsOnly_argTexts (List.forall_mem_cons.mpr
      ⟨hkey, fun a h => hvalue a (List.mem_of_mem_filter h)⟩)).map
  | sort key reverse =>
    have hkey : FailsOnly A (sortKey key) := by
      cases key with
      | none => exact .ok _
      | some key => exact ((ha key (by simp [Step.args])).map).map
    exact hkey.map

/-- Every well-formed expression has a form. -/
theorem serves_grammar (A : WriteError → Prop) : grammar.Serves A where
  chain _ h := chainWords.failsOnly_write h
  group text needed := by
    cases needed <;> exact .ok _
  operator _ := .ok _
  binary op token h := by
    cases op with
    | not => simp [grammar, operatorForm] at h
    | _ => rfl
  step s ha hop := by
    refine failsOnly_stepText ha (Option.eq_none_iff_forall_not_mem.mpr fun op h => ?_)
    exact operatorForm_ne_filter op (Except.ok.inj (hop op h))

/-- The arms of a case distinction become arms of a chain. -/
theorem armsFailOnly_caseArms {language : String} {subject : Expr}
    {arms arms' : List (Branch Markup.Written)}
    (hs : subject.EveryRead word scope) (ha : ArmsFailOnly A (Expr.EveryRead word scope) arms)
    (h : caseArms language subject arms = .ok arms') :
    ArmsFailOnly A (Expr.EveryRead word scope) arms' := by
  induction arms generalizing arms' with
  | nil =>
    obtain rfl := Except.ok.inj h
    exact fun _ => nofun
  | cons arm arms ih =>
    obtain ⟨⟨hc, hb⟩, hrest⟩ := List.forall_mem_cons.mp ha
    obtain ⟨condition, body, trim⟩ := arm
    cases condition with
    | none =>
      obtain ⟨rest, hr, rfl⟩ := bind_pure_eq_ok.mp h
      exact List.forall_mem_cons.mpr ⟨⟨nofun, hb⟩, ih hrest hr⟩
    | some value =>
      rw [caseArms] at h
      split at h
      · cases h
      · obtain ⟨rest, hr, rfl⟩ := bind_pure_eq_ok.mp h
        refine List.forall_mem_cons.mpr ⟨⟨?_, hb⟩, ih hrest hr⟩
        rintro _ ⟨⟩
        exact Expr.every_apply hs _ (hc value rfl)

/-- A case distinction is refused only for a clause with several values. -/
theorem failsOnly_caseArms (hA : ∀ e, WriteError.IsRefusal e → A e) (language : String)
    (subject : Expr) (arms : List (Branch Markup.Written)) :
    FailsOnly A (caseArms language subject arms) := by
  induction arms with
  | nil => exact .ok _
  | cons arm arms ih =>
    obtain ⟨condition, body, trim⟩ := arm
    cases condition with
    | none => exact ih.bind fun _ _ => .ok _
    | some value =>
      rw [caseArms]
      split
      · exact .error (hA _ trivial)
      · exact ih.bind fun _ _ => .ok _

theorem failsOnly_conditional {branches : List (Branch Markup.Written)} (trim endTrim : Trim)
    (hfirst : ∀ b ∈ branches.head?, b.condition.isSome)
    (h : ArmsFailOnly A (Expr.EveryRead word scope) branches) :
    FailsOnly A (Markup.conditional grammar.text conditionalWords trim endTrim branches) :=
  Markup.failsOnly_conditional conditionalWords trim endTrim
    (fun _ => (serves_grammar A).text_of_everyRead) hfirst h

/-- A case distinction fails only as its arms do, and as they are refused. -/
theorem failsOnly_writeCase {subject : Expr} {body : Markup.Written} {first : Trim}
    {arms : List (Branch Markup.Written)} (trim endTrim : Trim) (hs : subject.EveryRead word scope)
    (ha : ArmsFailOnly A (Expr.EveryRead word scope) arms)
    (h : FailsOnly A (caseArms languageName subject arms)) :
    FailsOnly A (writeConditional .caseOf (⟨some subject, body, first⟩ :: arms) trim endTrim) := by
  refine h.map.bind fun lowered hl => ?_
  obtain ⟨arms', harms', rfl⟩ := map_eq_ok.mp hl
  have harms := armsFailOnly_caseArms hs ha harms'
  match arms', harms with
  | [], _ => exact .ok _
  | ⟨none, body, _⟩ :: _, harms => exact (harms _ List.mem_cons_self).2
  | ⟨some condition, body, first⟩ :: rest, harms =>
    refine failsOnly_conditional _ endTrim ?_ harms
    rintro _ ⟨⟩
    rfl

/-- A conditional. Only a case distinction can be refused. -/
theorem failsOnly_writeConditional {kind : Variant} {branches : List (Branch Markup.Written)}
    (trim endTrim : Trim) (hk : kind ≠ .caseOf ∨ ∀ e, WriteError.IsRefusal e → A e)
    (hfirst : ∀ b ∈ branches.head?, b.condition.isSome)
    (h : ArmsFailOnly A (Expr.EveryRead word scope) branches) :
    FailsOnly A (writeConditional kind branches trim endTrim) := by
  cases kind with
  | ifTrue => exact failsOnly_conditional trim endTrim hfirst h
  | ifFalse =>
    match branches, hfirst, h with
    | [], hfirst, h => exact failsOnly_conditional trim endTrim hfirst h
    | ⟨none, body, first⟩ :: rest, hfirst, h => exact failsOnly_conditional trim endTrim hfirst h
    | ⟨some condition, body, first⟩ :: rest, _, h =>
      obtain ⟨⟨hc, hb⟩, hrest⟩ := List.forall_mem_cons.mp h
      have harms : ArmsFailOnly A (Expr.EveryRead word scope)
          (⟨some condition.negate, body, first⟩ :: rest) := by
        refine List.forall_mem_cons.mpr ⟨⟨?_, hb⟩, hrest⟩
        rintro _ ⟨⟩
        exact Expr.every_negate (hc condition rfl)
      refine failsOnly_conditional trim endTrim ?_ harms
      rintro _ ⟨⟩
      rfl
  | caseOf =>
    have hA := hk.resolve_left (fun hne => hne rfl)
    cases branches with
    | nil => exact .ok _
    | cons b branches =>
      obtain ⟨⟨hc, hb⟩, hrest⟩ := List.forall_mem_cons.mp h
      obtain ⟨_ | subject, body, first⟩ := b
      · exact absurd (hfirst _ rfl) (by simp)
      · exact failsOnly_writeCase trim endTrim (hc subject rfl) hrest
          (failsOnly_caseArms hA languageName subject branches)

/-- A single node, given the nodes inside it. Only case distinctions and tags can be refused. -/
theorem failsOnly_writeNode (hk : isReadKind n ∨ ∀ e, WriteError.IsRefusal e → A e)
    (hn : n.IsRead kinds word scope)
    (hparts : ∀ p ∈ n.parts scope, FailsOnly A (dialect.writeNode p.2)) :
    FailsOnly A (dialect.writeNode n) := by
  have htext : ∀ e ∈ n.exprs, FailsOnly A (grammar.text e) := fun e he =>
    (serves_grammar A).text_of_everyRead (hn.exprs e he)
  cases n with
  | text | comment | raw =>
    rw [Dialect.writeNode]
    exact .ok _
  | output e trim =>
    rw [Dialect.writeNode]
    exact (htext e List.mem_cons_self).map
  | conditional kind branches trim endTrim =>
    rw [Dialect.writeNode]
    refine failsOnly_writeConditional trim endTrim (hk.imp_left fun h => ?_)
      (Dialect.isSome_head?_writeBranches hn.complete)
      (Dialect.armsFailOnly_writeBranches hn.exprs hparts)
    simpa [isReadKind] using h
  | loop name collection children otherwise trim elseTrim endTrim =>
    rw [Dialect.writeNode]
    exact Dialect.failsOnly_loop (htext collection List.mem_cons_self) hparts
  | assignment target e children trim endTrim =>
    rw [Dialect.writeNode]
    exact Dialect.failsOnly_assignment assignmentWords hn.complete htext hparts
  | subtemplate e ignoreMissing trim =>
    rw [Dialect.writeNode]
    exact (htext e List.mem_cons_self).map
  | tag name args children trim =>
    have hA := hk.resolve_left (by simp [isReadKind])
    rw [Dialect.writeNode]
    change FailsOnly A (writeTag name args trim)
    unfold writeTag
    split
    · exact .error (hA _ trivial)
    · exact .ok _

end Nunjucks

/-! ### Liquid -/

namespace Liquid

open WriteError (IsRefusal)

theorem failsOnly_atomText {a : Argument} (h : FailsOnly IsRefusal a.rendered) :
    FailsOnly IsRefusal (atomText a) := by
  refine h.bind fun r _ => ?_
  split
  · exact .ok _
  · exact .error trivial

theorem failsOnly_filterText (name : String) {args : List Argument}
    (h : ∀ a ∈ args, FailsOnly IsRefusal a.rendered) :
    FailsOnly IsRefusal (filterText name args) := by
  have hmore : ∀ args : List Argument, (∀ a ∈ args, FailsOnly IsRefusal a.rendered) →
      FailsOnly IsRefusal (moreArgsText args) := by
    intro args
    induction args with
    | nil => exact fun _ => .ok _
    | cons a args ih =>
      intro h
      rw [List.forall_mem_cons] at h
      exact (failsOnly_atomText h.1).bind fun _ _ => (ih h.2).bind fun _ _ => .ok _
  cases args with
  | nil => exact .ok _
  | cons a args =>
    rw [List.forall_mem_cons] at h
    exact (failsOnly_atomText h.1).bind fun _ _ => (hmore args h.2).bind fun _ _ => .ok _

/-- The operators that are spelled as filters have a name as one. -/
theorem failsOnly_stepName {name : StepName}
    (h : ∀ op, name = .op op → operatorForm op = .ok .filter) : FailsOnly A (stepName name) := by
  cases name with
  | op op =>
    have := h op rfl
    cases op with
    | add | subtract | multiply | divide | modulo | concat => exact .ok _
    | _ => cases this
  | builtin | custom => exact .ok _

theorem failsOnly_stepText {s : Step Argument} (ha : ∀ a ∈ s.args, FailsOnly IsRefusal a.rendered)
    (hop : ∀ op ∈ s.operator?, operatorForm op = .ok .filter) :
    FailsOnly IsRefusal (stepText s) := by
  cases s with
  | apply name args =>
    refine (failsOnly_stepName fun op hn => ?_).bind fun name _ => failsOnly_filterText name ha
    subst hn
    exact hop op rfl
  | truncate length ellipsis killWords =>
    rw [stepText]
    split
    · exact .error trivial
    · exact failsOnly_filterText "truncate" ha
  | replace old new count =>
    rw [stepText]
    split
    · exact .error trivial
    · rw [Step.args, List.forall_mem_cons, List.forall_mem_cons] at ha
      exact failsOnly_filterText "replace"
        (List.forall_mem_cons.mpr ⟨ha.1, List.forall_mem_singleton.mpr ha.2.1⟩)
  | select key value => exact failsOnly_filterText "where" ha
  | sort key reverse => exact (failsOnly_filterText "sort" ha).map

/-- A well-formed expression is only refused. -/
theorem serves_grammar : grammar.Serves IsRefusal where
  chain _ h := chainWords.failsOnly_write h
  group text needed := by
    cases needed
    · exact .ok _
    · exact .error trivial
  operator op := by
    cases op with
    | not | power | floorDivide => exact .error trivial
    | _ => exact .ok _
  binary op token h := by
    cases op with
    | not => simp [grammar, operatorForm] at h
    | _ => rfl
  step _ ha hop := failsOnly_stepText ha hop

/-- The node is not a loop with several variables. -/
def hasOneVariable : Node → Bool
  | .loop name .. => !name.toList.contains ','
  | _ => true

/-- A single node, given the expressions and the nodes inside it. Only loops with several variables
and subtemplates that may be missing can be refused. -/
theorem failsOnly_writeNode (hk : hasOneVariable n ∧ isReadKind n ∨ ∀ e, IsRefusal e → A e)
    (hc : n.isComplete) (htext : ∀ e ∈ n.exprs, FailsOnly A (grammar.text e))
    (hparts : ∀ p ∈ n.parts scope, FailsOnly A (dialect.writeNode p.2)) :
    FailsOnly A (dialect.writeNode n) := by
  cases n with
  | text | comment | raw | tag =>
    rw [Dialect.writeNode]
    exact .ok _
  | output e trim =>
    rw [Dialect.writeNode]
    exact (htext e List.mem_cons_self).map
  | conditional kind branches trim endTrim =>
    rw [Dialect.writeNode]
    exact Markup.failsOnly_conditional (conditionalWords kind) trim endTrim (fun _ h => h)
      (Dialect.isSome_head?_writeBranches hc) (Dialect.armsFailOnly_writeBranches htext hparts)
  | loop name collection children otherwise trim elseTrim endTrim =>
    rw [Dialect.writeNode]
    change FailsOnly A (writeLoop name collection _ _ trim elseTrim endTrim)
    unfold writeLoop
    split
    · next hname =>
      have hA := hk.resolve_left fun h => by
        rw [hasOneVariable, hname] at h
        cases h.1
      exact .error (hA _ trivial)
    · exact Dialect.failsOnly_loop (htext collection List.mem_cons_self) hparts
  | assignment target e children trim endTrim =>
    rw [Dialect.writeNode]
    exact Dialect.failsOnly_assignment assignmentWords hc htext hparts
  | subtemplate e ignoreMissing trim =>
    rw [Dialect.writeNode]
    change FailsOnly A (writeSubtemplate e ignoreMissing trim)
    unfold writeSubtemplate
    split
    · next hmissing =>
      have hA := hk.resolve_left fun h => by
        rw [isReadKind, hmissing] at h
        cases h.2
      exact .error (hA _ trivial)
    · exact (htext e List.mem_cons_self).map

end Liquid

/-! ### Templates -/

/-- A template that is read, in whichever language, is only refused by Liquid. -/
theorem Liquid.failsOnly_write (h : ∀ n ∈ nodes, n.EveryRead kinds word scope) :
    FailsOnly WriteError.IsRefusal (Liquid.write nodes) :=
  Dialect.failsOnly_write
    (fun _ _ hn => Liquid.failsOnly_writeNode (.inr fun _ => id) hn.complete
      fun e he => Liquid.serves_grammar.text_of_everyRead (hn.exprs e he)) h

/-- A template that is read, in whichever language, is only refused by Nunjucks, and not even that
if it has only nodes that are read from Nunjucks. -/
theorem Nunjucks.failsOnly_write
    (hk : (∀ n, kinds n → isReadKind n) ∨ ∀ e, WriteError.IsRefusal e → A e)
    (h : ∀ n ∈ nodes, n.EveryRead kinds word scope) : FailsOnly A (Nunjucks.write nodes) :=
  Dialect.failsOnly_write
    (fun _ n hn => Nunjucks.failsOnly_writeNode (hk.imp_left fun hk => hk n hn.kind) hn) h

theorem mem_languages_iff {language : String} :
    language ∈ languages ↔ language = "liquid" ∨ language = "nunjucks" := by
  simp [languages, Reader.builtin, Writer.builtin, Reader.liquid, Reader.nunjucks, Writer.liquid,
    Writer.nunjucks]
  tauto

/-- The reader of a language that is always there gives well-formed templates. -/
theorem everyRead_of_reader {language : String} (hl : language ∈ languages) :
    ∃ reader word, Reader.ofLanguage? language = some reader ∧ ∀ input nodes,
      reader.read input = .ok nodes → ∀ n ∈ nodes, n.EveryRead (fun _ => true) word {} := by
  rcases mem_languages_iff.mp hl with rfl | rfl
  · exact ⟨.liquid, _, rfl, fun input nodes h => Liquid.every_read h⟩
  · refine ⟨.nunjucks, Nunjucks.chainWords.loopVar, rfl, fun input nodes h n hn => ?_⟩
    exact (Nunjucks.every_read h n hn).mono fun _ _ hread => ⟨rfl, hread.complete, hread.exprs⟩

/-- A well-formed template is only refused by the writer of a language that is always there. -/
theorem failsOnly_of_writer {language : String} (hl : language ∈ languages) :
    ∃ writer, Writer.ofLanguage? language = some writer ∧ ∀ word nodes,
      (∀ n ∈ nodes, n.EveryRead (fun _ => true) word {}) →
        FailsOnly WriteError.IsRefusal (writer.write nodes) := by
  rcases mem_languages_iff.mp hl with rfl | rfl
  · exact ⟨.liquid, rfl, fun word nodes => Liquid.failsOnly_write⟩
  · exact ⟨.nunjucks, rfl, fun word nodes => Nunjucks.failsOnly_write (.inr fun _ h => h)⟩

/-- No conversion between the languages that are always there fails because of the shape of a
template, and none from Nunjucks to Nunjucks fails in writing at all. -/
theorem convert_ne_malformed {source target : String} (hs : source ∈ languages)
    (ht : target ∈ languages) (input : String) :
    (∀ cause, convert source target input ≠ .error (.write (.malformed cause))) ∧
      (∀ e, convert "nunjucks" "nunjucks" input ≠ .error (.write e)) ∧
      ∀ nodes, Nunjucks.read input = .ok nodes → ∃ text, Nunjucks.write nodes = .ok text := by
  have hnunjucks : ∀ nodes, Nunjucks.read input = .ok nodes →
      FailsOnly (fun _ => False) (Nunjucks.write nodes) := fun nodes h =>
    Nunjucks.failsOnly_write (.inl fun _ => id) (Nunjucks.every_read h)
  refine ⟨fun cause h => ?_, fun e h => ?_, fun nodes h => (hnunjucks nodes h).exists_ok⟩
  · obtain ⟨reader, word, hreader, hread⟩ := everyRead_of_reader hs
    obtain ⟨writer, hwriter, hwrite⟩ := failsOnly_of_writer ht
    obtain ⟨nodes, hnodes, herror⟩ := (convert_eq_write_iff reader writer hreader hwriter).mp h
    exact hwrite word nodes (hread input nodes hnodes) _ herror
  · obtain ⟨nodes, hnodes, herror⟩ :=
      (convert_eq_write_iff .nunjucks .nunjucks rfl rfl).mp h
    exact hnunjucks nodes hnodes e herror

/-- A case distinction with a single value and with several, a loop, and a filter with an
operand. -/
theorem convert_ne_malformed_case :
    let input := "\x7b% for x in xs %\x7d\x7b% case x | plus: 1 %\x7d\x7b% when 1, 2 %\x7da" ++
      "\x7b% endcase %\x7d\x7b% endfor %\x7d"
    "liquid" ∈ languages ∧ "nunjucks" ∈ languages ∧
      (∀ cause, convert "liquid" "nunjucks" input ≠ .error (.write (.malformed cause))) ∧
      (∀ e, convert "nunjucks" "nunjucks" input ≠ .error (.write e)) ∧
      ∀ nodes, Nunjucks.read input = .ok nodes → ∃ text, Nunjucks.write nodes = .ok text := by
  intro input
  have hliquid := mem_languages_iff.mpr (.inl rfl)
  have hnunjucks := mem_languages_iff.mpr (.inr rfl)
  exact ⟨hliquid, hnunjucks, convert_ne_malformed hliquid hnunjucks input⟩

end Stencil

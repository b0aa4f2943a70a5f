import Stencil.Liquid.Grammar
import Stencil.Nunjucks.Grammar
import Stencil.Proofs.LoopObject
import Stencil.Proofs.Text.Decimal

/-!
# Expressions that are written without a word

The names, literals and filters of an expression are written as they stand, and everything else with
words and signs of the language. So a word that stands in none of them, and that the language does
not use itself, does not stand in what is written, unless the expression refers to the loop object
and that is what the word stands for.
-/

namespace Stencil

open Text (ClearOf IsWord)

variable {w : List Char}

/-! ### Written chains -/

theorem isLetter_toString (i : Int) :
    ∀ c ∈ (toString i).toList, Text.isLetter c = false ∧ Text.isQuote c = false := by
  have hdigit : ∀ c, Text.isDigit c → Text.isLetter c = false ∧ Text.isQuote c = false := by
    intro c hd
    refine ⟨?_, Text.isQuote_eq_false_of_isNameChar (Text.isNameChar_of_isDigit hd)⟩
    rw [Bool.eq_false_iff]
    intro hl
    have := (Text.isDigit_iff.mp hd).2
    have := Text.le_toNat_of_isLetter hl
    omega
  intro c hc
  by_cases h : 0 ≤ i
  · rw [Text.toList_toString_of_nonneg h] at hc
    exact hdigit c (Text.isDigit_of_mem_toDigits hc)
  · rw [Text.toList_toString_of_neg (Int.not_le.mp h)] at hc
    rcases List.mem_cons.mp hc with rfl | hc
    · decide
    · exact hdigit c (Text.isDigit_of_mem_toDigits hc)

namespace ChainWords

variable {cw : ChainWords} {s : List Char} {parts : List Part} {position : Nat} {text : String}

theorem clearOf_writeAccess (hw : IsWord w) (hs : ClearOf w s) {part : Part}
    (hp : part.Avoids w) (h : cw.writeAccess false position part = .ok text) :
    ClearOf w (s ++ text.toList) := by
  cases part with
  | ident name =>
    obtain rfl := Except.ok.inj h
    simpa using ClearOf.join hw (by decide) hs hp
  | literal literal =>
    obtain rfl := Except.ok.inj h
    simpa using ClearOf.join hw (by decide) hs (ClearOf.concat hw (by decide) hp)
  | index value =>
    obtain rfl := Except.ok.inj h
    have hindex := ClearOf.of_forall hw (isLetter_toString value.toInt)
    simpa using ClearOf.join hw (by decide) hs (ClearOf.concat hw (by decide) hindex)
  | null | blank | loopVar => cases h

theorem clearOf_writeAccesses (hw : IsWord w) (hs : ClearOf w s) (hp : ∀ p ∈ parts, p.Avoids w)
    (h : cw.writeAccesses false position parts = .ok text) : ClearOf w (s ++ text.toList) := by
  induction parts generalizing s position text with
  | nil =>
    obtain rfl := Except.ok.inj h
    simpa using hs
  | cons part parts ih =>
    rw [List.forall_mem_cons] at hp
    obtain ⟨first, hfirst, h⟩ := bind_eq_ok.mp h
    obtain ⟨rest, hrest, rfl⟩ := bind_pure_eq_ok.mp h
    rw [String.toList_append, ← List.append_assoc]
    exact ih (clearOf_writeAccess hw hs hp.1 hfirst) hp.2 hrest

/-- A chain that is not rooted in the loop object. -/
theorem clearOf_write (hw : IsWord w) (hnull : ClearOf w cw.null.toList)
    (hblank : ClearOf w cw.blank.toList) (hl : parts.head? ≠ some .loopVar)
    (hp : ∀ p ∈ parts, p.Avoids w) (h : cw.write parts = .ok text) : ClearOf w text.toList := by
  cases parts with
  | nil =>
    obtain rfl := Except.ok.inj h
    exact .nil hw
  | cons root parts =>
    rw [List.forall_mem_cons] at hp
    obtain ⟨first, hfirst, h⟩ := bind_eq_ok.mp h
    obtain ⟨rest, hrest, rfl⟩ := bind_pure_eq_ok.mp h
    have hroot : ClearOf w first.toList := by
      cases root with
      | ident | literal =>
        obtain rfl := Except.ok.inj hfirst
        exact hp.1
      | null =>
        obtain rfl := Except.ok.inj hfirst
        exact hnull
      | blank =>
        obtain rfl := Except.ok.inj hfirst
        exact hblank
      | index => cases hfirst
      | loopVar => exact absurd rfl hl
    have hplain : (root == .loopVar) = false := by simpa using fun hr => hl (by rw [hr]; rfl)
    rw [hplain] at hrest
    rw [String.toList_append]
    exact clearOf_writeAccesses hw hroot hp.2 hrest

end ChainWords

/-! ### Written expressions -/

/-- What is written, if it is, does not have the word. -/
def Argument.Spares (w : List Char) (a : Argument) : Prop :=
  ∀ r, a.rendered = .ok r → ClearOf w r.text.toList

namespace Grammar

/-- The language does not use the word itself: chains that are not rooted in the loop object, the
signs of operators and steps do not have it if what is written into them does not. -/
structure Spares (g : Grammar) (w : List Char) : Prop where
  isWord : IsWord w
  chain : ∀ {parts text}, parts.head? ≠ some .loopVar → (∀ p ∈ parts, p.Avoids w) →
    g.chain parts = .ok text → ClearOf w text.toList
  sign : ∀ {op token}, g.operatorForm op = .ok (.between token) ∨
    g.operatorForm op = .ok (.swapped token) ∨ g.operatorForm op = .ok (.leading token) →
      ClearOf w token.toList
  step : ∀ {s : Step Argument} {text}, s.Avoids w → (∀ a ∈ s.args, a.Spares w) →
    g.step s = .ok text → ClearOf w text.toList

namespace Spares

variable {g : Grammar} {acc r : Rendered} {s : Step Argument}

theorem parens (hg : g.Spares w) {content : String} (hc : ClearOf w content.toList) :
    ClearOf w (Grammar.parens content).toList := by
  have hclose := ClearOf.concat hg.isWord (c := ')') (by decide) hc
  simpa [Grammar.parens] using ClearOf.cons hg.isWord (c := '(') (by decide) hclose

theorem group (hg : g.Spares w) {content grouped : String} (hc : ClearOf w content.toList)
    {needed : Bool} (h : g.group content needed = .ok grouped) : ClearOf w grouped.toList := by
  unfold Grammar.group at h
  split at h
  · split at h
    · obtain rfl := Except.ok.inj h
      exact hg.parens hc
    · cases h
  · obtain rfl := Except.ok.inj h
    exact hc

theorem extendFilter (hg : g.Spares w) (hacc : ClearOf w acc.text.toList) (hs : s.Avoids w)
    (ha : ∀ a ∈ s.args, a.Spares w) (h : g.extendFilter acc s = .ok r) :
    ClearOf w r.text.toList := by
  obtain ⟨filter, hfilter, h⟩ := bind_eq_ok.mp h
  obtain ⟨left, hleft, rfl⟩ := bind_pure_eq_ok.mp h
  have hbar : ClearOf w ['|'] := .of_forall hg.isWord (by decide)
  simpa using ClearOf.join_sign hg.isWord (hg.group hacc hleft) hbar (hg.step hs ha hfilter)

theorem operand {op : Operator} (ha : ∀ a ∈ s.args, a.Spares w)
    (h : Grammar.operand op s = .ok r) : ClearOf w r.text.toList := by
  unfold Grammar.operand at h
  split at h
  · exact ha _ List.mem_cons_self r h
  · cases h

theorem extendOperator (hg : g.Spares w) (hacc : ClearOf w acc.text.toList) {op : Operator}
    (hs : s.Avoids w) (ha : ∀ a ∈ s.args, a.Spares w) (h : g.extendOperator acc op s = .ok r) :
    ClearOf w r.text.toList := by
  obtain ⟨form, hform, h⟩ := bind_eq_ok.mp h
  cases form with
  | between token =>
    obtain ⟨value, hvalue, h⟩ := bind_eq_ok.mp h
    obtain ⟨left, hleft, h⟩ := bind_eq_ok.mp h
    obtain ⟨right, hright, rfl⟩ := bind_pure_eq_ok.mp h
    simpa using ClearOf.join_sign hg.isWord (hg.group hacc hleft) (hg.sign (.inl hform))
      (hg.group (operand ha hvalue) hright)
  | swapped token =>
    obtain ⟨value, hvalue, h⟩ := bind_eq_ok.mp h
    obtain ⟨right, hright, h⟩ := bind_eq_ok.mp h
    obtain ⟨left, hleft, rfl⟩ := bind_pure_eq_ok.mp h
    simpa using ClearOf.join_sign hg.isWord (hg.group (operand ha hvalue) hleft)
      (hg.sign (.inr (.inl hform))) (hg.group hacc hright)
  | leading token =>
    obtain ⟨inner, hinner, rfl⟩ := bind_pure_eq_ok.mp h
    simpa using ClearOf.join hg.isWord (by decide) (hg.sign (.inr (.inr hform)))
      (hg.group hacc hinner)
  | filter => exact hg.extendFilter hacc hs ha h

theorem renderSteps (hg : g.Spares w) {steps : List (Step Expr)}
    (hacc : ClearOf w acc.text.toList) (hs : ∀ s ∈ steps, s.Avoids w)
    (ha : ∀ s ∈ steps, ∀ e ∈ s.args, ∀ r, g.render e = .ok r → ClearOf w r.text.toList)
    (h : g.renderSteps steps acc = .ok r) : ClearOf w r.text.toList := by
  induction steps generalizing acc with
  | nil =>
    obtain rfl := Except.ok.inj h
    exact hacc
  | cons s steps ih =>
    rw [List.forall_mem_cons] at hs ha
    obtain ⟨next, hnext, h⟩ := bind_eq_ok.mp h
    refine ih ?_ hs.2 ha.2 h
    rw [renderArgs_eq_map] at hnext
    have hargs : ∀ a ∈ (s.map fun e => (⟨e, g.render e⟩ : Argument)).args, a.Spares w := by
      rw [Step.args_map, List.forall_mem_map]
      exact ha.1
    unfold Grammar.extend at hnext
    split at hnext
    · exact hg.extendOperator hacc (hs.1.map _) hargs hnext
    · exact hg.extendFilter hacc (hs.1.map _) hargs hnext

theorem render (hg : g.Spares w) {e : Expr} (he : e.Spares w) (h : g.render e = .ok r) :
    ClearOf w r.text.toList := by
  induction he generalizing r with
  | @intro e he _ ih =>
    obtain ⟨chain, steps⟩ := e
    obtain ⟨text, htext, h⟩ := bind_eq_ok.mp h
    obtain ⟨inner, hinner, rfl⟩ := bind_pure_eq_ok.mp h
    have hlacks := hg.renderSteps (hg.chain he.1 he.2.1 htext) he.2.2
      (fun s hs e he r => ih s hs e he) hinner
    unfold Grammar.wrap
    split
    · exact hg.parens hlacks
    · exact hlacks

/-- The word does not stand in what is written. -/
theorem text (hg : g.Spares w) {e : Expr} (he : e.Spares w) {text : String}
    (h : g.text e = .ok text) : ClearOf w text.toList := by
  obtain ⟨r, hr, rfl⟩ := map_eq_ok.mp h
  exact hg.render he hr

end Spares

end Grammar

/-- The text of an argument. -/
theorem Argument.Spares.text {a : Argument} (h : a.Spares w) {text : String}
    (ht : a.text = .ok text) : ClearOf w text.toList := by
  obtain ⟨r, hr, rfl⟩ := map_eq_ok.mp ht
  exact h r hr

/-! ### Liquid -/

namespace Liquid

/-- The name of the loop object. -/
def loopWord : List Char :=
  chainWords.loopVar.toList

theorem isWord_loopWord : IsWord loopWord :=
  ⟨by decide, by decide⟩

variable {a : Argument} {args : List Argument} {name text : String}

theorem clearOf_atomText (ha : a.Spares loopWord) (h : atomText a = .ok text) :
    ClearOf loopWord text.toList := by
  obtain ⟨r, hr, h⟩ := bind_eq_ok.mp h
  split at h
  · obtain rfl := Except.ok.inj h
    exact ha r hr
  · cases h

/-- Each further argument stands after a comma. -/
theorem clearOf_moreArgsText {s : List Char} (hs : ClearOf loopWord s)
    (ha : ∀ a ∈ args, a.Spares loopWord) (h : moreArgsText args = .ok text) :
    ClearOf loopWord (s ++ text.toList) := by
  induction args generalizing s text with
  | nil =>
    obtain rfl := Except.ok.inj h
    simpa using hs
  | cons a args ih =>
    rw [List.forall_mem_cons] at ha
    obtain ⟨first, hfirst, h⟩ := bind_eq_ok.mp h
    obtain ⟨rest, hrest, rfl⟩ := bind_pure_eq_ok.mp h
    have hcomma := ClearOf.join isWord_loopWord (c := ',') (by decide) hs
      (.cons isWord_loopWord (c := ' ') (by decide) (clearOf_atomText ha.1 hfirst))
    simpa using ih hcomma ha.2 hrest

theorem clearOf_filterText (hn : ClearOf loopWord name.toList)
    (ha : ∀ a ∈ args, a.Spares loopWord) (h : filterText name args = .ok text) :
    ClearOf loopWord text.toList := by
  cases args with
  | nil =>
    obtain rfl := Except.ok.inj h
    exact hn
  | cons a args =>
    rw [List.forall_mem_cons] at ha
    obtain ⟨first, hfirst, h⟩ := bind_eq_ok.mp h
    obtain ⟨rest, hrest, rfl⟩ := bind_pure_eq_ok.mp h
    have hcolon := ClearOf.join isWord_loopWord (c := ':') (by decide) hn
      (.cons isWord_loopWord (c := ' ') (by decide) (clearOf_atomText ha.1 hfirst))
    simpa using clearOf_moreArgsText hcolon ha.2 hrest

theorem clearOf_stepName {step : StepName} {ε : Type} {args : List ε}
    (hs : (Step.apply step args).Avoids loopWord) (h : stepName step = .ok name) :
    ClearOf loopWord name.toList := by
  cases step with
  | op op =>
    have hnames : ∀ name ∈ filterOfOperator? op, Text.Closed name.toList ∧
        ¬ loopWord <:+: name.toList := by
      cases op <;> decide
    rw [stepName] at h
    split at h
    · next hop =>
      obtain rfl := Except.ok.inj h
      exact .of_absent (hnames _ hop)
    · cases h
  | builtin filter =>
    obtain rfl := Except.ok.inj h
    exact .of_absent (by cases filter <;> decide)
  | custom name =>
    obtain rfl := Except.ok.inj h
    exact hs

theorem clearOf_stepText {s : Step Argument} (hs : s.Avoids loopWord)
    (ha : ∀ a ∈ s.args, a.Spares loopWord) (h : stepText s = .ok text) :
    ClearOf loopWord text.toList := by
  have hnames : ∀ name ∈ ["truncate", "replace", "where", "sort"],
      Text.Closed (String.toList name) ∧ ¬ loopWord <:+: String.toList name := by decide
  cases s with
  | apply step args =>
    obtain ⟨name, hname, h⟩ := bind_eq_ok.mp h
    exact clearOf_filterText (clearOf_stepName hs hname) ha h
  | truncate length ellipsis killWords =>
    rw [stepText] at h
    split at h
    · cases h
    · exact clearOf_filterText (.of_absent (hnames _ (by simp))) ha h
  | replace old new count =>
    rw [stepText] at h
    split at h
    · cases h
    · refine clearOf_filterText (.of_absent (hnames _ (by simp))) (fun a hmem => ha a ?_) h
      exact List.mem_append_left count.toList hmem
  | select key value => exact clearOf_filterText (.of_absent (hnames _ (by simp))) ha h
  | sort key reverse =>
    obtain ⟨sorted, hsorted, rfl⟩ := map_eq_ok.mp h
    have hfilter := clearOf_filterText (.of_absent (hnames _ (by simp))) ha hsorted
    split
    · have hreverse : ClearOf loopWord "| reverse".toList := .of_absent (by decide)
      simpa using ClearOf.join isWord_loopWord (c := ' ') (by decide) hfilter hreverse
    · exact hfilter

/-- Only the loop object is written with its name. -/
theorem spares_grammar : grammar.Spares loopWord where
  isWord := isWord_loopWord
  chain hl hp h := ChainWords.clearOf_write isWord_loopWord (.of_absent (by decide))
    (.of_absent (by decide)) hl hp h
  sign {op token} h := by
    refine .of_absent ?_
    cases op <;> rcases h with h | h | h <;> cases h <;> decide
  step hs ha h := clearOf_stepText hs ha h

end Liquid

/-! ### Nunjucks -/

namespace Nunjucks

/-- The name of the loop object. -/
def loopWord : List Char :=
  chainWords.loopVar.toList

theorem isWord_loopWord : IsWord loopWord :=
  ⟨by decide, by decide⟩

variable {args : List Argument} {texts : List String} {name text : String}

theorem clearOf_argTexts (ha : ∀ a ∈ args, a.Spares loopWord) (h : argTexts args = .ok texts) :
    ∀ text ∈ texts, ClearOf loopWord text.toList := by
  induction args generalizing texts with
  | nil =>
    obtain rfl := Except.ok.inj h
    simp
  | cons a args ih =>
    rw [List.forall_mem_cons] at ha
    obtain ⟨first, hfirst, h⟩ := bind_eq_ok.mp h
    obtain ⟨rest, hrest, rfl⟩ := bind_pure_eq_ok.mp h
    exact List.forall_mem_cons.mpr ⟨ha.1.text hfirst, ih ha.2 hrest⟩

/-- Texts with commas between them. -/
theorem clearOf_intercalate (h : ∀ text ∈ texts, ClearOf loopWord text.toList) :
    ClearOf loopWord (", ".intercalate texts).toList := by
  induction texts with
  | nil => exact .nil isWord_loopWord
  | cons first rest ih =>
    rw [List.forall_mem_cons] at h
    cases rest with
    | nil => simpa using h.1
    | cons second rest =>
      have hcomma := ClearOf.join isWord_loopWord (c := ',') (by decide) h.1
        (.cons isWord_loopWord (c := ' ') (by decide) (ih h.2))
      simpa [Text.intercalate_cons] using hcomma

theorem clearOf_callText (hn : ClearOf loopWord name.toList)
    (h : ∀ text ∈ texts, ClearOf loopWord text.toList) :
    ClearOf loopWord (callText name texts).toList := by
  unfold callText
  split
  · exact hn
  · have hargs := ClearOf.concat isWord_loopWord (c := ')') (by decide) (clearOf_intercalate h)
    simpa using ClearOf.join isWord_loopWord (c := '(') (by decide) hn hargs

theorem clearOf_stepName {step : StepName} {ε : Type} {args : List ε}
    (hs : (Step.apply step args).Avoids loopWord) (h : stepName step = .ok name) :
    ClearOf loopWord name.toList := by
  cases step with
  | op op => cases h
  | builtin filter =>
    obtain rfl := Except.ok.inj h
    exact .of_absent (by cases filter <;> decide)
  | custom name =>
    obtain rfl := Except.ok.inj h
    exact hs

theorem clearOf_boolText (b : Bool) : ClearOf loopWord (boolText b).toList :=
  .of_absent (by cases b <;> decide)

theorem clearOf_truncateArgs {ellipsis : Option Argument} {killWords : Bool}
    (ha : ∀ a ∈ ellipsis.toList, a.Spares loopWord)
    (h : truncateArgs ellipsis killWords = .ok texts) :
    ∀ text ∈ texts, ClearOf loopWord text.toList := by
  cases ellipsis with
  | some ellipsis =>
    obtain ⟨text, htext, rfl⟩ := map_eq_ok.mp h
    simpa using And.intro (clearOf_boolText killWords) ((ha ellipsis (by simp)).text htext)
  | none =>
    obtain rfl := Except.ok.inj h
    have hdots : ClearOf loopWord "'...'".toList := .of_absent (by decide)
    cases killWords with
    | false => simp
    | true => simpa using And.intro (clearOf_boolText true) hdots

theorem clearOf_sortKey {key : Option Argument} (ha : ∀ a ∈ key.toList, a.Spares loopWord)
    (h : sortKey key = .ok texts) : ∀ text ∈ texts, ClearOf loopWord text.toList := by
  cases key with
  | none =>
    obtain rfl := Except.ok.inj h
    simp
  | some key =>
    obtain ⟨text, htext, rfl⟩ := map_eq_ok.mp h
    have hattribute : ClearOf loopWord "attribute".toList := .of_absent (by decide)
    refine List.forall_mem_singleton.mpr ?_
    simpa using ClearOf.join isWord_loopWord (c := '=') (by decide) hattribute
      ((ha key (by simp)).text htext)

theorem clearOf_stepText {s : Step Argument} (hs : s.Avoids loopWord)
    (ha : ∀ a ∈ s.args, a.Spares loopWord) (h : stepText s = .ok text) :
    ClearOf loopWord text.toList := by
  have hnames : ∀ name ∈ ["truncate", "replace", "selectattr", "sort", "reverse=true"],
      Text.Closed (String.toList name) ∧ ¬ loopWord <:+: String.toList name := by decide
  cases s with
  | apply step args =>
    obtain ⟨name, hname, h⟩ := bind_eq_ok.mp h
    obtain ⟨texts, htexts, rfl⟩ := bind_pure_eq_ok.mp h
    exact clearOf_callText (clearOf_stepName hs hname) (clearOf_argTexts ha htexts)
  | truncate length ellipsis killWords =>
    obtain ⟨first, hfirst, h⟩ := bind_eq_ok.mp h
    obtain ⟨rest, hrest, rfl⟩ := bind_pure_eq_ok.mp h
    obtain ⟨hlength, hellipsis⟩ := List.forall_mem_cons.mp ha
    exact clearOf_callText (.of_absent (hnames _ (by simp)))
      (List.forall_mem_cons.mpr ⟨hlength.text hfirst, clearOf_truncateArgs hellipsis hrest⟩)
  | replace old new count =>
    obtain ⟨texts, htexts, rfl⟩ := map_eq_ok.mp h
    exact clearOf_callText (.of_absent (hnames _ (by simp))) (clearOf_argTexts ha htexts)
  | select key value =>
    obtain ⟨texts, htexts, rfl⟩ := map_eq_ok.mp h
    obtain ⟨hkey, hvalue⟩ := List.forall_mem_cons.mp ha
    refine clearOf_callText (.of_absent (hnames _ (by simp))) (clearOf_argTexts ?_ htexts)
    exact List.forall_mem_cons.mpr ⟨hkey, fun a hmem => hvalue a (List.mem_filter.mp hmem).1⟩
  | sort key reverse =>
    obtain ⟨texts, htexts, rfl⟩ := map_eq_ok.mp h
    refine clearOf_callText (.of_absent (hnames _ (by simp))) ?_
    refine List.forall_mem_append.mpr ⟨clearOf_sortKey ha htexts, ?_⟩
    cases reverse with
    | false => simp
    | true => exact List.forall_mem_singleton.mpr (.of_absent (hnames _ (by simp)))

/-- Only the loop object is written with its name. -/
theorem spares_grammar : grammar.Spares loopWord where
  isWord := isWord_loopWord
  chain hl hp h := ChainWords.clearOf_write isWord_loopWord (.of_absent (by decide))
    (.of_absent (by decide)) hl hp h
  sign {op token} h := by
    refine .of_absent ?_
    cases op <;> rcases h with h | h | h <;> cases h <;> decide
  step hs ha h := clearOf_stepText hs ha h

end Nunjucks

end Stencil

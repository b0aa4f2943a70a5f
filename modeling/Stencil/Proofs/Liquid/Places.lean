import Stencil.Proofs.Conversion.ValueList
import Stencil.Proofs.Liquid.Variables

/-!
# The places of operands

Every operand of a value keeps the piece of source that it was read from. These pieces stand in the
value one after the other, in the order in which the operands come in the postfix form of the chain
and then in the arguments of the filters. Shunting moves connectors only. No piece is empty, and
each is read by itself as its operand.

## Main results

* `Liquid.Walked.places` : the operands that reading leads over stand one after the other.
* `Liquid.operands_of_parseValue` : the same by offsets, also for the operands in postfix order.
-/

namespace Stencil.Liquid

variable {p rest : Piece}

/-- A text that is read as one operand is a chain by itself. -/
theorem parseChain_of_operandAt {start stop : Nat} {c : Char} {cs : List Char} {o : Operand}
    (hc : Text.isBlank c = false) (hbar : c ≠ '|')
    (h : operandAt ⟨start, c :: cs⟩ = .ok (o, ⟨stop, []⟩)) :
    parseChain ⟨start, c :: cs⟩ = .ok ⟨o, []⟩ := by
  have htrim : Piece.trimStart ⟨start, c :: cs⟩ = ⟨start, c :: cs⟩ :=
    Piece.trimStart_eq_self (by simpa using hc)
  have hend : atEnd ⟨start, c :: cs⟩ = false := by simp [atEnd, hbar]
  have hlinks : readLinks ⟨stop, []⟩ = .ok ([], ⟨stop, []⟩) := readLinks_of_atEnd rfl
  simp only [parseChain, readChain, htrim, hend, readOperand, h, ok_bind, hlinks]
  simp [complete, Piece.text_trimStart, Text.trimStart]

/-- Each operand that reading leads over has its place in the piece, is read from its own text, and
ends before the next one begins. -/
theorem Walked.places {os : List Operand} (h : Walked p os rest) :
    os.Pairwise (fun a b => a.text.stop ≤ b.text.start) ∧
      ∀ o ∈ os, o.text.text ≠ [] ∧ parseChain o.text = .ok ⟨o, []⟩ ∧ ∃ before after,
        p.text = before ++ o.text.text ++ after ∧
          o.text.start = p.start + Text.byteLength before := by
  -- what is true of a piece is true of one that reading leads to it from
  have hlead : ∀ {p q : Piece} {s : List Char}, p.Leads s q → ∀ o : Operand,
      (∃ before after, q.text = before ++ o.text.text ++ after ∧
        o.text.start = q.start + Text.byteLength before) →
      ∃ before after, p.text = before ++ o.text.text ++ after ∧
        o.text.start = p.start + Text.byteLength before := by
    rintro p q s h o ⟨before, after, htext, hstart⟩
    refine ⟨s ++ before, after, ?_, ?_⟩
    · rw [h.text, htext]
      simp only [List.append_assoc]
    · rw [hstart, h.start, Text.byteLength_append, Nat.add_assoc]
  induction h with
  | done => exact ⟨.nil, List.forall_mem_nil _⟩
  | skip h _ ih =>
    obtain ⟨s, hs, -⟩ := h
    exact ⟨ih.1, fun o ho => ⟨(ih.2 o ho).1, (ih.2 o ho).2.1, hlead hs o (ih.2 o ho).2.2⟩⟩
  | @operand p q r o os h _ ih =>
    obtain ⟨text, htext, hleads, -⟩ := exists_of_operandAt h
    have ho := htext.text_eq
    have hleads' : p.Leads o.text.text q := by rwa [ho]
    refine ⟨.cons (fun b hb => ?_) ih.1, List.forall_mem_cons.mpr ⟨?_, fun b hb => ?_⟩⟩
    · obtain ⟨-, -, before, after, -, hstart⟩ := ih.2 b hb
      rw [hstart, Piece.stop, ho, ← hleads.start]
      exact Nat.le_add_right _ _
    · obtain ⟨c, cs, rfl, hb, hbar⟩ := htext.solid
      rw [ho]
      have hread := htext.operandAt (by simp) (.inr (.inr (.inl stops_nil)))
      rw [List.append_nil] at hread
      refine ⟨by simp, parseChain_of_operandAt hb hbar hread, [], q.text, ?_, rfl⟩
      exact hleads.text
    · exact ⟨(ih.2 b hb).1, (ih.2 b hb).2.1, hlead hleads' b (ih.2 b hb).2.2⟩

/-- Postfix order keeps the operands of a chain in order. The pieces of the operands of a value,
with the arguments of its filters at the end, are in the piece that it was read from. They are not
empty, each one ends before the next one begins, and each of them is read as its operand and nothing
else. -/
theorem operands_of_parseValue {v : Value} (h : parseValue p = .ok v) :
    v.initial.postfixEntries.filterMap Entry.operand? = v.initial.operands ∧
      v.operands.Pairwise (fun a b => a.text.stop ≤ b.text.start) ∧
      ∀ o ∈ v.operands, o.text.text ≠ [] ∧ parseChain o.text = .ok ⟨o, []⟩ ∧ ∃ before after,
        p.text = before ++ o.text.text ++ after ∧
          o.text.start = p.start + Text.byteLength before := by
  obtain ⟨rest, hread, -⟩ := exists_of_parseValue h
  exact ⟨operands_postfixEntries _, (Walked.readValue hread).places⟩

theorem operands_of_parseValue_mixed :
    let p : Piece := ⟨2, "é.b[ \"x\" ] == -1.5 and nil | f: 'a''b', k: 'c\\'d'".toList⟩
    ∃ v, parseValue p = .ok v ∧ v.operands.length = 5 ∧
      ∀ o ∈ v.operands, parseChain o.text = .ok ⟨o, []⟩ := by
  intro p
  have hread : ∃ v ∈ (parseValue p).toOption, v.operands.length = 5 := by decide +kernel
  obtain ⟨v, hv, hlength⟩ := hread
  have hparse := toOption_eq_some_iff.mp hv
  exact ⟨v, hparse, hlength, fun o ho => ((operands_of_parseValue hparse).2.2 o ho).2.1⟩

end Stencil.Liquid

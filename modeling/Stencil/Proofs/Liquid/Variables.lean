import Stencil.Proofs.Avoidance
import Stencil.Proofs.Liquid.Scoping

/-!
# The variables of a Liquid value

A value is read from a piece of source, and the names of its variables are names of their own in the
text of that piece. So a text without the word for the loop object gives a value without a variable
of that name. The scope of a value decides only what this name means, so such a value means the same
in every scope.
-/

namespace Stencil.Liquid

open Text (LacksWord Ready)

/-- The variable of an operand, if it has one. -/
def Operand.variable? : Operand → Option String
  | property root _ _ => some root
  | quoted _ | number _ | keyword _ _ => none

/-- The operand is not called like the loop object. -/
def Operand.isOrdinary (o : Operand) : Bool :=
  o.variable? != some chainWords.loopVar

/-! ### Pieces without the word -/

variable {p rest : Piece} {o : Operand} {os : List Operand}

/-- An operand that is read from a piece without the word for the loop object. What it leaves does
not have the word either. -/
theorem isOrdinary_of_operandAt (hp : LacksWord loopWord p.text)
    (h : operandAt p = .ok (o, rest)) : o.isOrdinary ∧ LacksWord loopWord rest.text := by
  obtain ⟨text, htext, hleads, hended⟩ := exists_of_operandAt h
  have hapart := hended.apart
  rw [hleads.text] at hp
  refine ⟨?_, hp.of_append isWord_loopWord htext.closed hapart⟩
  cases htext with
  | string | number | keyword => rfl
  | @property root ss hroot hss =>
    rw [Operand.isOrdinary, Operand.variable?, bne_iff_ne, Ne, Option.some_inj]
    rintro rfl
    rw [String.toList_append] at hp hapart
    refine hp ⟨[], (Selector.texts ss).toList ++ rest.text, List.append_assoc _ _ _, Text.ready_nil,
      fun d hd => ?_⟩
    cases ss with
    | cons s ss => rcases Selector.head?_texts ss hd with rfl | rfl <;> decide
    | nil =>
      rw [Selector.texts, String.toList_empty, List.append_nil] at hapart
      exact hapart.resolve_left (fun hlast => absurd (hlast 'p' rfl) (by decide)) d hd

/-- The same for all operands that reading leads over. -/
theorem Walked.isOrdinary (h : Walked p os rest) (hp : LacksWord loopWord p.text) :
    ∀ o ∈ os, o.isOrdinary := by
  induction h with
  | done => exact List.forall_mem_nil _
  | skip h _ ih =>
    obtain ⟨s, hleads, hloose, hapart⟩ := h
    rw [hleads.text] at hp
    exact ih (hp.of_append isWord_loopWord (closed_of_loose hloose) hapart)
  | operand h _ ih =>
    obtain ⟨ho, hrest⟩ := isOrdinary_of_operandAt hp h
    exact List.forall_mem_cons.mpr ⟨ho, ih hrest⟩

/-- A value that is read from a text without the word for the loop object. -/
theorem isOrdinary_of_parseValue {v : Value} (hp : LacksWord loopWord p.text)
    (h : parseValue p = .ok v) : ∀ o ∈ v.operands, o.isOrdinary := by
  obtain ⟨rest, hread, -⟩ := exists_of_parseValue h
  exact (Walked.readValue hread).isOrdinary hp

theorem isOrdinary_of_parseChain {c : Chain} (hp : LacksWord loopWord p.text)
    (h : parseChain p = .ok c) : ∀ o ∈ c.operands, o.isOrdinary := by
  obtain ⟨rest, hread, -⟩ := exists_of_complete h
  exact (Walked.readChain hread).isOrdinary hp

theorem isOrdinary_of_parseWhen (hp : LacksWord loopWord p.text) (h : parseWhen p = .ok os) :
    ∀ o ∈ os, o.isOrdinary := by
  obtain ⟨rest, hread⟩ := walked_parseWhen h
  exact hread.isOrdinary hp

/-! ### Values that do not name the loop object -/

theorem Operand.toExpr_eq {o : Operand} (h : o.isOrdinary) (scope : Scope) :
    o.toExpr scope = o.toExpr {} := by
  cases o with
  | quoted | number | keyword => rfl
  | property root accesses text =>
    have hroot : (root == chainWords.loopVar) = false := by
      simpa [Operand.isOrdinary, Operand.variable?] using h
    simp [Operand.toExpr, hroot]

/-- The operand that an entry is. -/
def Entry.operand? : Entry → Option Operand
  | operand o => some o
  | connector _ _ => none

/-- Shunting keeps the operands in their order. -/
theorem operands_shunt (waiting : List (Connector × Span)) (es : List Entry) :
    (shunt waiting es).filterMap Entry.operand? = es.filterMap Entry.operand? := by
  have hwaiting (ws : List (Connector × Span)) :
      (ws.map fun w => Entry.connector w.1 w.2).filterMap Entry.operand? = [] := by
    simp [List.filterMap_map, Entry.operand?, Function.comp_def]
  induction es generalizing waiting with
  | nil => exact hwaiting waiting
  | cons e es ih =>
    cases e with
    | operand o =>
      rw [shunt, List.filterMap_cons, List.filterMap_cons, ih]
    | connector c s =>
      rw [shunt, List.filterMap_append, ih]
      exact congrArg (· ++ _) (hwaiting _)

theorem operands_postfixEntries (c : Chain) :
    c.postfixEntries.filterMap Entry.operand? = c.operands := by
  rw [Chain.postfixEntries, operands_shunt, Chain.entries, Chain.operands, List.filterMap_cons,
    List.filterMap_flatMap, List.map_eq_flatMap]
  rfl

/-- A chain whose operands are not called like the loop object means the same in every scope. -/
theorem Chain.toExpr_eq {c : Chain} (h : ∀ o ∈ c.operands, o.isOrdinary) (scope : Scope) :
    c.toExpr scope = c.toExpr {} := by
  rw [Chain.toExpr, Chain.toExpr]
  congr 1
  refine List.map_congr_left fun entry he => ?_
  cases entry with
  | connector => rfl
  | operand o =>
    have ho := h o (operands_postfixEntries c ▸ List.mem_filterMap.mpr ⟨_, he, rfl⟩)
    rw [Entry.toPostfix, Entry.toPostfix, Operand.toExpr_eq ho scope]

theorem Filter.toArgs_eq {f : Filter} (h : ∀ o ∈ f.operands, o.isOrdinary) (scope : Scope) :
    f.toArgs scope = f.toArgs {} := by
  rw [Filter.operands, List.forall_mem_map] at h
  rw [Filter.toArgs, Filter.toArgs, FilterArgs.mk.injEq]
  refine ⟨rfl, ?_, ?_⟩
  all_goals
    refine List.filterMap_congr fun arg ha => ?_
    have hvalue := Operand.toExpr_eq (h arg ha) scope
    cases arg with
    | positional value | keyword key value => simp_all [FilterArg.value]

theorem applyFilters_eq {fs : List Filter} (h : ∀ o ∈ fs.flatMap Filter.operands, o.isOrdinary)
    (scope : Scope) (e : Expr) : applyFilters scope e fs = applyFilters {} e fs := by
  induction fs generalizing e with
  | nil => rfl
  | cons f fs ih =>
    rw [List.flatMap_cons, List.forall_mem_append] at h
    have hstep : f.toStep scope = f.toStep {} := by
      rw [Filter.toStep, Filter.toStep, Filter.toArgs_eq h.1]
    rw [applyFilters, applyFilters, hstep]
    refine congrArg _ (funext fun step => ih h.2 _)

/-- A value whose operands are not called like the loop object means the same in every scope. -/
theorem Value.toExpr_eq {v : Value} (h : ∀ o ∈ v.operands, o.isOrdinary) (scope : Scope) :
    v.toExpr scope = v.toExpr {} := by
  rw [Value.operands, List.forall_mem_append] at h
  rw [Value.toExpr, Value.toExpr, v.initial.toExpr_eq h.1, applyFilters_eq h.2]

end Stencil.Liquid

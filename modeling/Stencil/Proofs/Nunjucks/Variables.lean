import Stencil.Nunjucks.Reader
import Stencil.Proofs.Nunjucks.Consumption
import Stencil.Proofs.Nunjucks.Lifting
import Stencil.Proofs.Nunjucks.Scoping

/-!
# The variables of a Nunjucks term

The scope of a term decides only what the name of the loop object means. A term is made of tokens,
and its variables are names among them, so a term whose tokens do not have that name means the same
in every scope, and a term whose tokens have no name like a symbol stands for no comment.
-/

namespace Stencil.Nunjucks

namespace Term.From

theorem toExprs_eq {args : List Term} {scope : Scope}
    (h : ∀ x ∈ args, x.toExpr scope = x.toExpr {}) :
    Term.toExprs scope args = Term.toExprs {} args := by
  induction args with
  | nil => rw [Term.toExprs, Term.toExprs]
  | cons x args ih =>
    rw [List.forall_mem_cons] at h
    rw [Term.toExprs, Term.toExprs, h.1, ih h.2]

theorem toKeywords_eq {keywords : List (String × Term)} {scope : Scope}
    (h : ∀ entry ∈ keywords, entry.2.toExpr scope = entry.2.toExpr {}) :
    Term.toKeywords scope keywords = Term.toKeywords {} keywords := by
  induction keywords with
  | nil => rw [Term.toKeywords, Term.toKeywords]
  | cons entry keywords ih =>
    rw [List.forall_mem_cons] at h
    rw [Term.toKeywords, Term.toKeywords, h.1, ih h.2]

/-- A term that does not name the loop object means the same in every scope. -/
theorem toExpr_eq {P : Token → Prop} {x : Term} (h : x.From P)
    (hP : ∀ name, P ⟨.name, name⟩ → name.toString ≠ chainWords.loopVar) (scope : Scope) :
    x.toExpr scope = x.toExpr {} := by
  induction h with
  | symbol h => simp [Term.toExpr, hP _ h]
  | @literal kind => cases kind <;> simp [Term.toExpr]
  | lookup _ _ ht _ => rw [Term.toExpr, Term.toExpr, ht]
  | group _ ih => rw [Term.toExpr, Term.toExpr, ih]
  | filter _ _ _ _ _ ht ha hk => rw [Term.toExpr, Term.toExpr, ht, toExprs_eq ha, toKeywords_eq hk]
  | binary _ _ hl hr => rw [Term.toExpr, Term.toExpr, hl, hr]
  | @comparison first rest _ _ hf hr =>
    rcases rest with _ | ⟨⟨c, second⟩, _ | ⟨c', rest⟩⟩
    · simp [Term.toExpr]
    · rw [Term.toExpr, Term.toExpr, hf, hr (c, second) List.mem_cons_self]
    · simp [Term.toExpr]
  | negated _ ih => rw [Term.toExpr, Term.toExpr, ih]
  | @opposite target _ _ =>
    by_cases hn : ∃ text, target = .literal .number text
    · obtain ⟨text, rfl⟩ := hn
      rw [Term.toExpr, Term.toExpr]
    · rw [Term.toExpr, Term.toExpr]
      all_goals exact fun text ht => hn ⟨text, ht⟩
  | test | call | choice | array | dict => simp [Term.toExpr]

/-- A term none of whose names begins like a symbol stands for no comment. -/
theorem termComment?_eq_none {P : Token → Prop} {x : Term} (h : x.From P)
    (hP : ∀ name, P ⟨.name, name⟩ → Text.startsWith symbolHead name.text = false) (l : Lifted) :
    l.termComment? x = none := by
  cases h with
  | symbol hname => exact l.comment?_eq_none (hP _ hname)
  | literal | lookup | group | filter | binary | comparison | negated | opposite | test | call
  | choice | array | dict => rfl

end Term.From

end Stencil.Nunjucks

import Stencil.Nunjucks.Comment
import Stencil.Proofs.Text.Decimal
import Stencil.Proofs.Text.Scan

/-!
# Lifting comments out of a text

Comments are lifted out of a source from left to right. A text that has no opening delimiter of a
comment in it, and does not end in the middle of one, is passed over as it stands; such a text is
called quiet. What is lifted out of a text does not depend on what comes after it, apart from the
number of the first comment.
-/

namespace Stencil.Nunjucks

/-! ### Texts without comments -/

/-- A text that has no opening delimiter of a comment in it, and does not end in the middle of
one. -/
abbrev Quiet (s : List Char) : Prop :=
  Text.Lacks '{' '#' s

namespace Quiet

theorem name {name : List Char} (h : Text.isIdentifier name) : Quiet name := by
  refine .of_notMem fun hb => ?_
  exact absurd (Text.isNameChar_of_mem_identifier h hb) (by decide)

/-- No comment begins at the start of a quiet text. -/
theorem commentAt?_eq_none {c : Char} {s : List Char} (h : Quiet (c :: s)) (rest : List Char) :
    commentAt? (c :: s ++ rest) = none := by
  have hstrip : Text.strip? "\x7b#".toList (c :: s ++ rest) = none := by
    by_cases hc : '{' = c
    · subst hc
      obtain ⟨d, s, rfl, hd⟩ := h.exists_cons
      simp [Text.strip?, Ne.symm hd]
    · simp [Text.strip?, hc]
  rw [commentAt?, hstrip]
  rfl

end Quiet

/-! ### Texts with comments, one after the other -/

namespace Lifted

instance : Append Lifted :=
  ⟨fun a b => ⟨a.source ++ b.source, a.comments ++ b.comments⟩⟩

@[simp] theorem source_append (a b : Lifted) : (a ++ b).source = a.source ++ b.source :=
  rfl

@[simp] theorem comments_append (a b : Lifted) : (a ++ b).comments = a.comments ++ b.comments :=
  rfl

theorem append_assoc (a b c : Lifted) : a ++ b ++ c = a ++ (b ++ c) := by
  change Lifted.mk _ _ = Lifted.mk _ _
  simp

/-- What is lifted out of two texts, one after the other: the comments of the second one are
numbered after those of the first one. -/
def seq (F G : Nat → Lifted) (i : Nat) : Lifted :=
  F i ++ G (i + (F i).comments.length)

end Lifted

/-! ### What is lifted out of a text -/

/-- Out of the text `s` comments are lifted, which gives `F i` if the first of them has the number
`i`. -/
def Lifts (s : List Char) (F : Nat → Lifted) : Prop :=
  ∀ i rest, liftFrom i (s ++ rest) = F i ++ liftFrom (i + (F i).comments.length) rest

theorem liftFrom_cons {c : Char} {cs : List Char} (h : commentAt? (c :: cs) = none) (i : Nat) :
    liftFrom i (c :: cs) = (liftFrom i cs).consChar c := by
  rw [liftFrom]
  split
  · next hc => exact absurd hc (by simp [h])
  · rfl

theorem liftFrom_comment {cs inner rest : List Char} (h : commentAt? cs = some (inner, rest))
    (i : Nat) : liftFrom i cs = (liftFrom (i + 1) rest).consComment i (.ofInner inner) := by
  rw [liftFrom]
  split
  · next hs =>
    rw [h] at hs
    obtain ⟨rfl, rfl⟩ := Prod.mk.inj (Option.some.inj hs)
    rfl
  · next hs =>
    rw [h] at hs
    cases hs

/-- Nothing is lifted out of a quiet text. -/
theorem Lifts.quiet {s : List Char} (h : Quiet s) : Lifts s fun _ => ⟨s, []⟩ := by
  intro i rest
  induction s with
  | nil => rfl
  | cons c s ih =>
    have hc : commentAt? (c :: (s ++ rest)) = none := h.commentAt?_eq_none rest
    rw [List.cons_append, liftFrom_cons hc, ih h.tail]
    rfl

/-- A comment is lifted out whole, and its placeholder is left. -/
theorem Lifts.comment {inner : List Char} (h : ¬ ['#', '}'] <:+: inner) :
    Lifts ("\x7b#".toList ++ inner ++ "#\x7d".toList)
      fun i => ⟨placeholder i, [.ofInner inner]⟩ := by
  intro i rest
  have hc : commentAt? ("\x7b#".toList ++ inner ++ "#\x7d".toList ++ rest) =
      some (inner, rest) := by
    have hcut := Text.cut?_pair (by decide) h rest
    simp [commentAt?, Text.strip?, hcut]
  rw [liftFrom_comment hc]
  rfl

theorem Lifts.append {s₁ s₂ : List Char} {F G : Nat → Lifted} (h₁ : Lifts s₁ F) (h₂ : Lifts s₂ G) :
    Lifts (s₁ ++ s₂) (Lifted.seq F G) := by
  intro i rest
  rw [List.append_assoc, h₁ i (s₂ ++ rest), h₂, Lifted.seq, Lifted.append_assoc]
  simp [Nat.add_assoc]

@[simp] theorem liftFrom_nil (i : Nat) : liftFrom i [] = ⟨[], []⟩ := by
  rw [liftFrom]
  simp [commentAt?, Text.strip?]

/-- What is lifted out of a text that is the whole source. -/
theorem Lifts.liftComments {s : List Char} {F : Nat → Lifted} (h : Lifts s F) :
    liftComments s = F 0 := by
  rw [Nunjucks.liftComments, ← List.append_nil s, h 0 [], liftFrom_nil]
  change Lifted.mk _ _ = _
  simp

/-! ### Comments that are put back -/

/-- The symbol of a comment is a name. -/
theorem isIdentifier_commentSymbol (i : Nat) : Text.isIdentifier (commentSymbol i) := by
  have hhead : symbolHead = '_' :: "_COMMENT_".toList := by decide
  have hdigits : (toString i).toList = Nat.toDigits 10 i := by simp
  rw [commentSymbol, hhead, hdigits, List.cons_append, List.cons_append]
  refine Text.isIdentifier_cons.mpr ⟨by decide, fun c hc => ?_⟩
  rw [List.mem_append, List.mem_append] at hc
  have hhead : ∀ c ∈ "_COMMENT_".toList, Text.isNameChar c := by decide
  have htail : ∀ c ∈ symbolTail, Text.isNameChar c := by decide
  rcases hc with (hc | hc) | hc
  · exact hhead c hc
  · exact Text.isNameChar_of_isDigit (Text.isDigit_of_mem_toDigits hc)
  · exact htail c hc

/-- A symbol stands for the comment with its number. -/
theorem Lifted.comment?_commentSymbol (l : Lifted) (i : Nat) :
    l.comment? (commentSymbol i) = l.comments[i]? := by
  have hdigits : (toString i).toList = Nat.toDigits 10 i := by simp
  rw [comment?, commentSymbol, List.append_assoc, Text.strip?_append, Option.bind_some,
    List.reverse_append, Text.strip?_append, Option.bind_some, List.reverse_reverse, hdigits,
    Text.position?_toDigits, Option.bind_some]

/-- A text that does not begin like a symbol stands for no comment. -/
theorem Lifted.comment?_eq_none (l : Lifted) {s : List Char}
    (h : Text.startsWith symbolHead s = false) : l.comment? s = none := by
  rw [Text.startsWith, Option.isSome_eq_false_iff, Option.isNone_iff_eq_none] at h
  rw [comment?, h, Option.bind_none]

/-- A text that holds no part of a symbol is left as it stands. -/
theorem Lifted.restore_eq_self (l : Lifted) {text : List Char} (h : ¬ symbolHead <:+: text) :
    l.restore text = text := by
  have hplaceholder : ∀ i, ¬ placeholder i <:+: text := by
    intro i hi
    refine h (List.IsInfix.trans ?_ hi)
    exact ⟨"\x7b\x7b ".toList, (toString i).toList ++ symbolTail ++ " \x7d\x7d".toList,
      by simp [placeholder, commentSymbol]⟩
  rw [restore]
  generalize 0 = i
  induction l.comments generalizing i with
  | nil => rfl
  | cons c cs ih => rw [restoreFrom, Text.replaceAll_eq_self (hplaceholder i), ih]

end Stencil.Nunjucks

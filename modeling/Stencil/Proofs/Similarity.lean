import Mathlib.Data.List.Forall2
import Mathlib.Tactic.Tauto
import Stencil.Node.Equality
import Stencil.Proofs.Respelling

/-!
# Similar templates

Comparing two templates up to their presentation is comparing two things: what is left of them when
markers, the blanks around the arguments of tags and the texts of literals are taken away, and the
texts of their literals, one after the other, without quotes. So similarity is an equivalence, and
markers play no part in it.

Taking the quotes of a literal away forgets whether there were any. A string is therefore similar to
a literal that reads like its body, as `'1'` is to `1`. No other literals of different kinds are
similar.

## Main results

* `Node.similarList_iff` : similarity in terms of skeletons and literals.
* `equalUnquoted_iff` : the literals that are similar.
* `Node.similarList_ignores_markers` : similarity is an equivalence that ignores markers.
* `Node.similarList_literals` : what stands in the places of literals in similar templates.
-/

namespace Stencil

/-! ### Skeletons and literals -/

/-- Two literals that are the same without their quotes. -/
def EqualUnquoted (a b : String) : Prop :=
  Text.unquoted a = Text.unquoted b

theorem forall₂_equalUnquoted_iff {l m : List String} :
    List.Forall₂ EqualUnquoted l m ↔ l.map Text.unquoted = m.map Text.unquoted := by
  rw [← List.forall₂_eq_eq_eq, List.forall₂_map_left_iff, List.forall₂_map_right_iff]
  rfl

/-- The number of literals does not depend on how they are spelled. -/
theorem length_literals_of_eq {α : Type} {respell : α → α} {literals : α → List String}
    {f : String → String} (hf : ∀ a, literals (respell a) = (literals a).map f) {a b : α}
    (h : respell a = respell b) : (literals a).length = (literals b).length := by
  have hlen := congrArg (fun x => (literals x).length) h
  simpa only [hf, List.length_map] using hlen

/-- Two lists in two parts, the first of which have one length, are compared part by part. -/
theorem forall₂_append_iff {α β : Type} {R : α → β → Prop} {A B : Prop} {l₁ l₂ : List α}
    {m₁ m₂ : List β} (h : A → l₁.length = m₁.length) :
    (A ∧ B) ∧ List.Forall₂ R (l₁ ++ l₂) (m₁ ++ m₂) ↔
      (A ∧ List.Forall₂ R l₁ m₁) ∧ B ∧ List.Forall₂ R l₂ m₂ := by
  constructor
  · rintro ⟨⟨ha, hb⟩, hl⟩
    have h₁ := List.forall₂_take l₁.length hl
    have h₂ := List.forall₂_drop l₁.length hl
    rw [List.take_left, h ha, List.take_left] at h₁
    rw [List.drop_left, h ha, List.drop_left] at h₂
    exact ⟨⟨ha, h₁⟩, hb, h₂⟩
  · rintro ⟨⟨ha, h₁⟩, hb, h₂⟩
    exact ⟨⟨ha, hb⟩, List.rel_append h₁ h₂⟩

namespace Part

theorem similar_iff (a b : Part) : a.similar b = true ↔
    a.respell .skeleton = b.respell .skeleton ∧
      List.Forall₂ EqualUnquoted a.literals b.literals := by
  cases a <;> cases b <;> simp [similar, respell, literals, EqualUnquoted]

theorem similarChain_iff : (a b : List Part) → similarChain a b = true ↔
    a.map (respell .skeleton) = b.map (respell .skeleton) ∧
      List.Forall₂ EqualUnquoted (a.flatMap literals) (b.flatMap literals)
  | [], [] => by simp [similarChain]
  | [], _ :: _ | _ :: _, [] => by simp [similarChain]
  | a :: as, b :: bs => by
      rw [similarChain, Bool.and_eq_true, similar_iff, similarChain_iff as bs, List.map_cons,
        List.map_cons, List.cons_eq_cons, List.flatMap_cons, List.flatMap_cons,
        forall₂_append_iff (length_literals_of_eq (literals_respell .skeleton))]

end Part

namespace Expr

theorem length_literals {a b : Expr} (h : a.respell .skeleton = b.respell .skeleton) :
    a.literals.length = b.literals.length :=
  length_literals_of_eq (literals_respell .skeleton) h

mutual

theorem similar_iff : (a b : Expr) → a.similar b = true ↔
    a.respell .skeleton = b.respell .skeleton ∧ List.Forall₂ EqualUnquoted a.literals b.literals
  | ⟨c, s⟩, ⟨c', s'⟩ => by
      rw [similar, Bool.and_eq_true, Part.similarChain_iff, similarSteps_iff s s', respell,
        respell, Expr.mk.injEq, literals, literals,
        forall₂_append_iff (length_literals_of_eq (Part.flatMap_literals_map_respell .skeleton))]

theorem similarSteps_iff : (a b : List (Step Expr)) → similarSteps a b = true ↔
    respellSteps .skeleton a = respellSteps .skeleton b ∧
      List.Forall₂ EqualUnquoted (literalsSteps a) (literalsSteps b)
  | [], [] => by simp [similarSteps, literalsSteps]
  | [], _ :: _ | _ :: _, [] => by simp [similarSteps, respellSteps]
  | s :: ss, t :: ts => by
      rw [similarSteps, Bool.and_eq_true, similarStep_iff s t, similarSteps_iff ss ts,
        respellSteps, respellSteps, List.cons_eq_cons, literalsSteps, literalsSteps,
        forall₂_append_iff (length_literals_of_eq (literalsStep_respell .skeleton))]

theorem similarStep_iff : (a b : Step Expr) → similarStep a b = true ↔
    respellStep .skeleton a = respellStep .skeleton b ∧
      List.Forall₂ EqualUnquoted (literalsStep a) (literalsStep b)
  | .apply n as, b => by
      cases b with
      | apply m bs =>
        simp only [similarStep, respellStep, literalsStep, Bool.and_eq_true, beq_iff_eq,
          Step.apply.injEq, similarArgs_iff as bs, and_assoc]
      | _ => simp [similarStep, respellStep]
  | .truncate l e k, b => by
      cases b with
      | truncate l' e' k' =>
        simp only [similarStep, respellStep, literalsStep, Bool.and_eq_true, beq_iff_eq,
          Step.truncate.injEq, similar_iff l l', similarOption_iff e e']
        rw [forall₂_append_iff length_literals]
        tauto
      | _ => simp [similarStep, respellStep]
  | .replace o n c, b => by
      cases b with
      | replace o' n' c' =>
        simp only [similarStep, respellStep, literalsStep, Bool.and_eq_true, Step.replace.injEq,
          similar_iff o o', similar_iff n n', similarOption_iff c c']
        rw [forall₂_append_iff length_literals, forall₂_append_iff length_literals, and_assoc]
      | _ => simp [similarStep, respellStep]
  | .select k v, b => by
      cases b with
      | select k' v' =>
        simp only [similarStep, respellStep, literalsStep, Bool.and_eq_true, Step.select.injEq,
          similar_iff k k', similarOption_iff v v']
        rw [forall₂_append_iff length_literals]
      | _ => simp [similarStep, respellStep]
  | .sort k r, b => by
      cases b with
      | sort k' r' =>
        simp only [similarStep, respellStep, literalsStep, Bool.and_eq_true, beq_iff_eq,
          Step.sort.injEq, similarOption_iff k k']
        tauto
      | _ => simp [similarStep, respellStep]

theorem similarArgs_iff : (a b : List Expr) → similarArgs a b = true ↔
    respellArgs .skeleton a = respellArgs .skeleton b ∧
      List.Forall₂ EqualUnquoted (literalsArgs a) (literalsArgs b)
  | [], [] => by simp [similarArgs, literalsArgs]
  | [], _ :: _ | _ :: _, [] => by simp [similarArgs, respellArgs]
  | a :: as, b :: bs => by
      rw [similarArgs, Bool.and_eq_true, similar_iff a b, similarArgs_iff as bs, respellArgs,
        respellArgs, List.cons_eq_cons, literalsArgs, literalsArgs,
        forall₂_append_iff length_literals]

theorem similarOption_iff : (a b : Option Expr) → similarOption a b = true ↔
    respellOption .skeleton a = respellOption .skeleton b ∧
      List.Forall₂ EqualUnquoted (literalsOption a) (literalsOption b)
  | none, none => by simp [similarOption, literalsOption]
  | none, some _ | some _, none => by simp [similarOption, respellOption]
  | some a, some b => by
      rw [similarOption, similar_iff a b, respellOption, respellOption, Option.some.injEq,
        literalsOption, literalsOption]

end

end Expr

namespace Node

theorem length_literalsList {a b : List Node}
    (h : respellList .skeleton a = respellList .skeleton b) :
    (literalsList a).length = (literalsList b).length :=
  length_literals_of_eq (literalsList_respell .skeleton) h

mutual

theorem similar_iff : (a b : Node) → a.similar b = true ↔
    a.respell .skeleton = b.respell .skeleton ∧ List.Forall₂ EqualUnquoted a.literals b.literals
  | .text c, b => by
      cases b with
      | text c' => simp [similar, respell, literals]
      | _ => simp [similar, respell]
  | .output e t, b => by
      cases b with
      | output e' t' => simp [similar, respell, literals, Expr.similar_iff e e']
      | _ => simp [similar, respell]
  | .conditional v bs t et, b => by
      cases b with
      | conditional v' bs' t' et' =>
        simp [similar, respell, literals, similarBranches_iff bs bs', and_assoc]
      | _ => simp [similar, respell]
  | .loop n c cs es t lt et, b => by
      cases b with
      | loop n' c' cs' es' t' lt' et' =>
        simp only [similar, respell, literals, Bool.and_eq_true, beq_iff_eq, Node.loop.injEq,
          Respelling.skeleton_trim, and_true, c.similar_iff c', similarList_iff cs cs',
          similarOption_iff es es', and_assoc (a := n = n')]
        rw [forall₂_append_iff Expr.length_literals, forall₂_append_iff length_literalsList,
          and_assoc (a := _ ∧ _)]
      | _ => simp [similar, respell]
  | .assignment n e cs t et, b => by
      cases b with
      | assignment n' e' cs' t' et' =>
        simp only [similar, respell, literals, Bool.and_eq_true, beq_iff_eq,
          Node.assignment.injEq, Respelling.skeleton_trim, and_true, Expr.similarOption_iff e e',
          similarOption_iff cs cs', and_assoc (a := n = n')]
        rw [forall₂_append_iff (length_literals_of_eq (Expr.literalsOption_respell .skeleton))]
      | _ => simp [similar, respell]
  | .comment c t et, b => by
      cases b with
      | comment c' t' et' => simp [similar, respell, literals]
      | _ => simp [similar, respell]
  | .raw c t et, b => by
      cases b with
      | raw c' t' et' => simp [similar, respell, literals]
      | _ => simp [similar, respell]
  | .subtemplate e i t, b => by
      cases b with
      | subtemplate e' i' t' =>
        simp only [similar, respell, literals, Bool.and_eq_true, beq_iff_eq,
          Node.subtemplate.injEq, Respelling.skeleton_trim, and_true, e.similar_iff e']
        exact and_left_comm.trans and_assoc.symm
      | _ => simp [similar, respell]
  | .tag n a cs t, b => by
      cases b with
      | tag n' a' cs' t' =>
        simp only [similar, respell, literals, Bool.and_eq_true, beq_iff_eq, Node.tag.injEq,
          Respelling.skeleton_trim, Respelling.skeleton_args, and_true, similarList_iff cs cs',
          and_assoc]
      | _ => simp [similar, respell]

theorem similarList_iff : (a b : List Node) → similarList a b = true ↔
    respellList .skeleton a = respellList .skeleton b ∧
      List.Forall₂ EqualUnquoted (literalsList a) (literalsList b)
  | [], [] => by simp [similarList, literalsList]
  | [], _ :: _ | _ :: _, [] => by simp [similarList, respellList]
  | a :: as, b :: bs => by
      rw [similarList, Bool.and_eq_true, similar_iff a b, similarList_iff as bs, respellList,
        respellList, List.cons_eq_cons, literalsList, literalsList,
        forall₂_append_iff (length_literals_of_eq (literals_respell .skeleton))]

theorem similarOption_iff : (a b : Option (List Node)) → similarOption a b = true ↔
    respellOption .skeleton a = respellOption .skeleton b ∧
      List.Forall₂ EqualUnquoted (literalsOption a) (literalsOption b)
  | none, none => by simp [similarOption, literalsOption]
  | none, some _ | some _, none => by simp [similarOption, respellOption]
  | some a, some b => by
      rw [similarOption, similarList_iff a b, respellOption, respellOption, Option.some.injEq,
        literalsOption, literalsOption]

theorem similarBranch_iff : (a b : Branch (List Node)) → similarBranch a b = true ↔
    respellBranch .skeleton a = respellBranch .skeleton b ∧
      List.Forall₂ EqualUnquoted (literalsBranch a) (literalsBranch b)
  | ⟨c, b, t⟩, ⟨c', b', t'⟩ => by
      have ht : Respelling.skeleton.trim t = Respelling.skeleton.trim t' := rfl
      rw [similarBranch, Bool.and_eq_true, Expr.similarOption_iff c c', similarList_iff b b',
        respellBranch, respellBranch, Branch.mk.injEq, and_iff_left ht, literalsBranch,
          literalsBranch,
        forall₂_append_iff (length_literals_of_eq (Expr.literalsOption_respell .skeleton))]

theorem similarBranches_iff : (a b : List (Branch (List Node))) → similarBranches a b = true ↔
    respellBranches .skeleton a = respellBranches .skeleton b ∧
      List.Forall₂ EqualUnquoted (literalsBranches a) (literalsBranches b)
  | [], [] => by simp [similarBranches, literalsBranches]
  | [], _ :: _ | _ :: _, [] => by simp [similarBranches, respellBranches]
  | a :: as, b :: bs => by
      rw [similarBranches, Bool.and_eq_true, similarBranch_iff a b, similarBranches_iff as bs,
        respellBranches, respellBranches, List.cons_eq_cons, literalsBranches, literalsBranches,
        forall₂_append_iff (length_literals_of_eq (literalsBranch_respell .skeleton))]

end

/-! ### Similarity ignores markers -/

/-- Similarity is an equivalence. -/
theorem equivalence_similarList : Equivalence fun a b => similarList a b = true where
  refl a := (similarList_iff a a).mpr ⟨rfl, forall₂_equalUnquoted_iff.mpr rfl⟩
  symm := by
    intro a b h
    rw [similarList_iff, forall₂_equalUnquoted_iff] at h ⊢
    exact ⟨h.1.symm, h.2.symm⟩
  trans := by
    intro a b c h h'
    rw [similarList_iff, forall₂_equalUnquoted_iff] at h h' ⊢
    exact ⟨h.1.trans h'.1, h.2.trans h'.2⟩

/-- Templates that differ at most in their markers are similar. -/
theorem similarList_of_unmarked {a b : List Node}
    (h : respellList .unmarked a = respellList .unmarked b) : similarList a b = true := by
  have hskeleton := congrArg (respellList .skeleton) h
  have hliterals := congrArg literalsList h
  rw [respellList_respell, respellList_respell, Respelling.skeleton_comp_unmarked] at hskeleton
  rw [literalsList_respell, literalsList_respell] at hliterals
  refine (similarList_iff a b).mpr ⟨hskeleton, forall₂_equalUnquoted_iff.mpr ?_⟩
  simpa [Respelling.unmarked] using congrArg (List.map Text.unquoted) hliterals

/-- Similarity is an equivalence, equal templates are similar, and markers play no part in it: a
template with other markers, at any depth, is similar to the same templates. -/
theorem similarList_ignores_markers :
    (Equivalence fun a b => similarList a b = true) ∧
      (∀ a b : List Node, (a == b) = true → similarList a b = true) ∧
      ∀ a b : List Node, respellList .unmarked a = respellList .unmarked b →
        similarList a b = true ∧
          ∀ c, similarList a c = similarList b c ∧ similarList c a = similarList c b := by
  refine ⟨equivalence_similarList, ?_, ?_⟩
  · intro a b h
    obtain rfl := eq_of_beq h
    exact equivalence_similarList.refl a
  · intro a b h
    have hab := similarList_of_unmarked h
    have hba := equivalence_similarList.symm hab
    refine ⟨hab, fun c => ⟨?_, ?_⟩⟩
    · exact Bool.eq_iff_iff.mpr
        ⟨equivalence_similarList.trans hba, equivalence_similarList.trans hab⟩
    · exact Bool.eq_iff_iff.mpr ⟨fun h => equivalence_similarList.trans h hab,
        fun h => equivalence_similarList.trans h hba⟩

/-- A loop with markers at all of its tags and at those of a conditional in its body, and the same
loop without markers. -/
theorem similarList_ignores_markers_nested :
    let marked : List Node :=
      [.loop "x" (.ident "xs")
        [.conditional .ifTrue
          [⟨some (.literal "'a'"), [.output (.ident "x") ⟨true, false⟩], .unset⟩,
            ⟨none, [.tag "break" " " [] ⟨false, true⟩], ⟨true, true⟩⟩] .unset ⟨true, false⟩]
        (some [.comment "c" ⟨true, false⟩ ⟨false, true⟩]) ⟨true, true⟩ ⟨false, true⟩ ⟨true, false⟩]
    let unmarked : List Node :=
      [.loop "x" (.ident "xs")
        [.conditional .ifTrue
          [⟨some (.literal "'a'"), [.output (.ident "x") .unset], .unset⟩,
            ⟨none, [.tag "break" " " [] .unset], .unset⟩] .unset .unset]
        (some [.comment "c" .unset .unset]) .unset .unset .unset]
    marked ≠ unmarked ∧ respellList .unmarked marked = respellList .unmarked unmarked ∧
      similarList marked unmarked = true ∧
        ∀ c, similarList marked c = similarList unmarked c ∧
          similarList c marked = similarList c unmarked :=
  ⟨by decide, rfl, similarList_ignores_markers.2.2 _ _ rfl⟩

end Node

/-! ### Literals in the same places -/

/-- The text is a quoted string with the given body: it has the same quote at both ends. -/
def IsQuoted (text : String) (body : List Char) : Prop :=
  ∃ q, Text.isQuote q ∧ text.toList = q :: (body ++ [q])

/-- Two literals that are the same, or strings with the same body. -/
def SameLiteral (t u : String) : Prop :=
  t = u ∨ ∃ body, IsQuoted t body ∧ IsQuoted u body

/-- A string, and a literal without quotes that reads like the body of the string. -/
def BareBody (t u : String) : Prop :=
  IsQuoted t u.toList ∧ ∀ body, ¬IsQuoted u body

theorem unquote?_eq_some_iff {text : String} {body : List Char} :
    Text.unquote? text.toList = some body ↔ IsQuoted text body := by
  unfold IsQuoted
  constructor
  · intro h
    cases htext : text.toList with
    | nil => simp [htext, Text.unquote?] at h
    | cons q cs =>
      simp only [htext, Text.unquote?, Option.ite_none_right_eq_some, Bool.and_eq_true,
        beq_iff_eq, Option.some.injEq] at h
      obtain ⟨⟨hq, hlast⟩, rfl⟩ := h
      exact ⟨q, hq, by rw [List.dropLast_append_getLast? q hlast]⟩
  · rintro ⟨q, hq, htext⟩
    simp [htext, Text.unquote?, hq]

theorem unquoted_of_isQuoted {text : String} {body : List Char} (h : IsQuoted text body) :
    Text.unquoted text = body := by
  rw [Text.unquoted, unquote?_eq_some_iff.mpr h, Option.getD_some]

theorem unquoted_of_forall_not {text : String} (h : ∀ body, ¬IsQuoted text body) :
    Text.unquoted text = text.toList := by
  have hnone : Text.unquote? text.toList = none :=
    Option.eq_none_iff_forall_not_mem.mpr fun body hb => h body (unquote?_eq_some_iff.mp hb)
  rw [Text.unquoted, hnone, Option.getD_none]

/-- Literals are the same without their quotes if they are the same up to the kind of quotes, or if
one of them is the bare body of the other. -/
theorem equalUnquoted_iff {t u : String} :
    EqualUnquoted t u ↔ SameLiteral t u ∨ BareBody t u ∨ BareBody u t := by
  constructor
  · intro h
    by_cases ht : ∃ body, IsQuoted t body
    · obtain ⟨body, ht⟩ := ht
      rw [EqualUnquoted, unquoted_of_isQuoted ht] at h
      by_cases hu : ∃ body, IsQuoted u body
      · obtain ⟨body', hu⟩ := hu
        rw [unquoted_of_isQuoted hu] at h
        exact .inl (.inr ⟨body, ht, h ▸ hu⟩)
      · rw [not_exists] at hu
        rw [unquoted_of_forall_not hu] at h
        exact .inr (.inl ⟨h ▸ ht, hu⟩)
    · rw [not_exists] at ht
      rw [EqualUnquoted, unquoted_of_forall_not ht] at h
      by_cases hu : ∃ body, IsQuoted u body
      · obtain ⟨body, hu⟩ := hu
        rw [unquoted_of_isQuoted hu] at h
        exact .inr (.inr ⟨h ▸ hu, ht⟩)
      · rw [not_exists] at hu
        rw [unquoted_of_forall_not hu] at h
        exact .inl (.inl (String.toList_inj.mp h))
  · rintro ((rfl | ⟨body, ht, hu⟩) | ⟨ht, hu⟩ | ⟨hu, ht⟩)
    · rfl
    · rw [EqualUnquoted, unquoted_of_isQuoted ht, unquoted_of_isQuoted hu]
    · rw [EqualUnquoted, unquoted_of_isQuoted ht, unquoted_of_forall_not hu]
    · rw [EqualUnquoted, unquoted_of_isQuoted hu, unquoted_of_forall_not ht]

theorem SameLiteral.symm {t u : String} : SameLiteral t u → SameLiteral u t
  | .inl h => .inl h.symm
  | .inr ⟨body, ht, hu⟩ => .inr ⟨body, hu, ht⟩

theorem SameLiteral.not_bareBody {t u : String} (h : SameLiteral t u) : ¬BareBody t u := by
  rintro ⟨ht, hu⟩
  obtain rfl | ⟨body, -, hbody⟩ := h
  · exact hu _ ht
  · exact hu body hbody

namespace Node

/-- Similar templates have the same skeleton, and literals in the same places of it. Two literals in
the same place are the same up to the kind of their quotes, unless one of them is the bare body of
the other. -/
theorem similarList_literals (a b : List Node) :
    (similarList a b = true ↔ respellList .skeleton a = respellList .skeleton b ∧
      List.Forall₂ (fun t u => SameLiteral t u ∨ BareBody t u ∨ BareBody u t)
        (literalsList a) (literalsList b)) ∧
    (similarList a b = true →
      (List.Forall₂ SameLiteral (literalsList a) (literalsList b) ↔
        ∀ p ∈ (literalsList a).zip (literalsList b),
          ¬BareBody p.1 p.2 ∧ ¬BareBody p.2 p.1)) := by
  have hiff : similarList a b = true ↔ respellList .skeleton a = respellList .skeleton b ∧
      List.Forall₂ (fun t u => SameLiteral t u ∨ BareBody t u ∨ BareBody u t)
        (literalsList a) (literalsList b) := by
    simp only [similarList_iff, ← equalUnquoted_iff]
  refine ⟨hiff, fun h => ?_⟩
  obtain ⟨hlen, hpairs⟩ := List.forall₂_iff_zip.mp (hiff.mp h).2
  rw [List.forall₂_iff_zip, and_iff_right hlen]
  constructor
  · intro hsame p hp
    have hpair := hsame hp
    exact ⟨hpair.not_bareBody, hpair.symm.not_bareBody⟩
  · intro hbare t u hp
    rcases hpairs hp with hsame | htu | hut
    · exact hsame
    · exact absurd htu (hbare (t, u) hp).1
    · exact absurd hut (hbare (t, u) hp).2

/-- Strings with other quotes, in a loop next to a number. -/
theorem similarList_literals_quotes :
    let a : List Node := [.forEach "x" (.literal "'a'") [.ofExpr (.literal "1")]]
    let b : List Node := [.forEach "x" (.literal "\"a\"") [.ofExpr (.literal "1")]]
    similarList a b = true ∧ respellList .skeleton a = respellList .skeleton b ∧
      List.Forall₂ SameLiteral (literalsList a) (literalsList b) := by
  intro a b
  have h : similarList a b = true := by decide +kernel
  refine ⟨h, ((similarList_literals a b).1.mp h).1, ((similarList_literals a b).2 h).mpr ?_⟩
  have hstrings : SameLiteral "'a'" "\"a\"" :=
    .inr ⟨['a'], ⟨'\'', by decide, by decide⟩, '"', by decide, by decide⟩
  have hnumbers : SameLiteral "1" "1" := .inl rfl
  exact List.forall_mem_cons.mpr ⟨⟨hstrings.not_bareBody, hstrings.symm.not_bareBody⟩,
    List.forall_mem_singleton.mpr ⟨hnumbers.not_bareBody, hnumbers.not_bareBody⟩⟩

/-- A number and a string that reads like it are in the same place of similar templates. -/
theorem similarList_of_number_and_string :
    similarList [.ofExpr (.literal "1")] [.ofExpr (.literal "'1'")] = true ∧
      ¬List.Forall₂ SameLiteral (literalsList [.ofExpr (.literal "1")])
        (literalsList [.ofExpr (.literal "'1'")]) := by
  refine ⟨by decide +kernel, ?_⟩
  change ¬List.Forall₂ SameLiteral ["1"] ["'1'"]
  rw [List.forall₂_cons]
  rintro ⟨hsame | ⟨body, ⟨q, -, hquoted⟩, -⟩, -⟩
  · exact absurd hsame (by decide)
  · exact absurd (congrArg List.length hquoted) (by simp)

end Node

end Stencil

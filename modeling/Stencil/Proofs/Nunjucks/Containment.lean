import Stencil.Nunjucks.Writer
import Stencil.Proofs.Echo
import Stencil.Proofs.Nunjucks.Lifting
import Stencil.Proofs.Nunjucks.Statement

/-!
# Templates that stay between their delimiters in Nunjucks

A template is written without a look at what stands between its delimiters. Nothing leaves them as
long as the texts hold no delimiter, each expression is written as whole tokens, and comments and
raw blocks do not hold what would end them. A conditional is written as the chain of conditions that
it becomes, so it is this chain that has to stay between its delimiters; where only the body of an
alternative is left of a case distinction, that body becomes part of what stands around it. A tag
that is passed on must not be taken for the opening tag of a block or for one that goes on with a
block.
-/

namespace Stencil.Nunjucks

/-! ### Conditionals as chains -/

section Lowering

variable {β γ : Type} (f : β → γ) {language : String} {subject : Expr} {trim : Trim}
  {kind : Variant} {branches chain arms arms' : List (Branch β)}

/-- The same with other bodies. -/
def Lowered.map : Lowered β → Lowered γ
  | .chain trim branches => .chain trim (branches.map (Branch.map f))
  | .always body => .always (f body)
  | .nothing => .nothing

theorem negateFirst_map (branches : List (Branch β)) :
    negateFirst (branches.map (Branch.map f)) = (negateFirst branches).map (Branch.map f) := by
  rcases branches with _ | ⟨⟨_ | condition, body, trim⟩, rest⟩ <;> rfl

theorem caseArms_map (language : String) (subject : Expr) (arms : List (Branch β)) :
    caseArms language subject (arms.map (Branch.map f)) =
      (caseArms language subject arms).map (List.map (Branch.map f)) := by
  induction arms with
  | nil => rfl
  | cons arm arms ih =>
    obtain ⟨_ | value, body, trim⟩ := arm
    · simp only [List.map_cons, Branch.map, caseArms, ih]
      cases caseArms language subject arms <;> rfl
    · simp only [List.map_cons, Branch.map, caseArms, ih]
      split
      · rfl
      · cases caseArms language subject arms <;> rfl

theorem ofCaseArms_map (trim : Trim) (arms : List (Branch β)) :
    ofCaseArms trim (arms.map (Branch.map f)) = (ofCaseArms trim arms).map f := by
  rcases arms with _ | ⟨⟨_ | condition, body, first⟩, rest⟩ <;> rfl

/-- What a conditional becomes does not depend on its bodies. -/
theorem lower_map (language : String) (trim : Trim) (branches : List (Branch β)) (kind : Variant) :
    lower language trim (branches.map (Branch.map f)) kind =
      (lower language trim branches kind).map (Lowered.map f) := by
  cases kind with
  | ifTrue => rfl
  | ifFalse =>
    rw [lower, negateFirst_map]
    rfl
  | caseOf =>
    rw [lower, lower]
    rcases branches with _ | ⟨⟨_ | subject, body, first⟩, arms⟩
    · rfl
    · rfl
    · change (caseArms language subject (arms.map (Branch.map f))).map (ofCaseArms trim) =
        ((caseArms language subject arms).map (ofCaseArms trim)).map (Lowered.map f)
      rw [caseArms_map]
      cases caseArms language subject arms with
      | error => rfl
      | ok arms' => rw [map_ok, map_ok, map_ok, map_ok, ofCaseArms_map]

theorem bodies_negateFirst (branches : List (Branch β)) :
    (negateFirst branches).map (·.body) = branches.map (·.body) := by
  rcases branches with _ | ⟨⟨_ | condition, body, trim⟩, rest⟩ <;> rfl

theorem bodies_caseArms (h : caseArms language subject arms = .ok arms') :
    arms'.map (·.body) = arms.map (·.body) := by
  induction arms generalizing arms' with
  | nil =>
    rw [caseArms] at h
    obtain rfl := Except.ok.inj h
    rfl
  | cons arm arms ih =>
    obtain ⟨_ | value, body, trim⟩ := arm
    · obtain ⟨rest, hrest, rfl⟩ := bind_pure_eq_ok.mp h
      rw [List.map_cons, List.map_cons, ih hrest]
    · rw [caseArms] at h
      split at h
      · cases h
      · obtain ⟨rest, hrest, rfl⟩ := bind_pure_eq_ok.mp h
        rw [List.map_cons, List.map_cons, ih hrest]

/-- A chain of conditions has the bodies of its conditional, apart from what stands before the first
clause of a case distinction. -/
theorem bodies_lower {first : Trim}
    (h : lower language trim branches kind = .ok (.chain first chain)) :
    chain.map (·.body) = branches.map (·.body) ∨
      kind = .caseOf ∧ chain.map (·.body) = branches.tail.map (·.body) := by
  cases kind with
  | ifTrue =>
    cases h
    exact .inl rfl
  | ifFalse =>
    cases h
    exact .inl (bodies_negateFirst branches)
  | caseOf =>
    rw [lower] at h
    rcases branches with _ | ⟨⟨_ | subject, body, headTrim⟩, arms⟩
    · cases h
    · cases h
    · obtain ⟨arms', harms, h⟩ := map_eq_ok.mp h
      rcases arms' with _ | ⟨⟨_ | condition, body', armTrim⟩, rest⟩
      · cases h
      · cases h
      · cases h
        exact .inr ⟨rfl, bodies_caseArms harms⟩

variable {w : List Char}

theorem spares_negateFirst (h : ∀ b ∈ branches, ∀ e ∈ b.condition, e.Spares w) :
    ∀ arm ∈ negateFirst branches, ∀ e ∈ arm.condition, e.Spares w := by
  rcases branches with _ | ⟨⟨_ | condition, body, trim⟩, rest⟩
  · exact h
  · exact h
  · obtain ⟨hfirst, hrest⟩ := List.forall_mem_cons.mp h
    refine List.forall_mem_cons.mpr ⟨?_, hrest⟩
    rintro _ ⟨⟩
    exact (hfirst condition rfl).negate

theorem spares_caseArms (h : caseArms language subject arms = .ok arms') (hs : subject.Spares w)
    (ha : ∀ b ∈ arms, ∀ e ∈ b.condition, e.Spares w) :
    ∀ arm ∈ arms', ∀ e ∈ arm.condition, e.Spares w := by
  induction arms generalizing arms' with
  | nil =>
    rw [caseArms] at h
    obtain rfl := Except.ok.inj h
    exact ha
  | cons arm arms ih =>
    obtain ⟨hfirst, hrest⟩ := List.forall_mem_cons.mp ha
    obtain ⟨_ | value, body, trim⟩ := arm
    · obtain ⟨rest, hcases, rfl⟩ := bind_pure_eq_ok.mp h
      exact List.forall_mem_cons.mpr ⟨hfirst, ih hcases hrest⟩
    · rw [caseArms] at h
      split at h
      · cases h
      · obtain ⟨rest, hcases, rfl⟩ := bind_pure_eq_ok.mp h
        refine List.forall_mem_cons.mpr ⟨?_, ih hcases hrest⟩
        rintro _ ⟨⟩
        exact hs.apply .equal (hfirst value rfl)

/-- The conditions of a chain are made of those of its conditional, with operators that add no
words. -/
theorem spares_lower {first : Trim}
    (h : lower language trim branches kind = .ok (.chain first chain))
    (hb : ∀ b ∈ branches, ∀ e ∈ b.condition, e.Spares w) :
    ∀ arm ∈ chain, ∀ e ∈ arm.condition, e.Spares w := by
  cases kind with
  | ifTrue =>
    cases h
    exact hb
  | ifFalse =>
    cases h
    exact spares_negateFirst hb
  | caseOf =>
    rw [lower] at h
    rcases branches with _ | ⟨⟨_ | subject, body, headTrim⟩, arms⟩
    · cases h
    · cases h
    · obtain ⟨hsubject, harms⟩ := List.forall_mem_cons.mp hb
      obtain ⟨arms', hcases, h⟩ := map_eq_ok.mp h
      have hspares := spares_caseArms hcases (hsubject subject rfl) harms
      rcases arms' with _ | ⟨⟨_ | condition, body', armTrim⟩, rest⟩
      · cases h
      · cases h
      · cases h
        exact hspares

end Lowering

/-! ### Written conditionals -/

section Conditional

variable {kind : Variant} {branches chain : List (Branch (List Node))} {trim first endTrim : Trim}

/-- A conditional is written as its chain. -/
theorem writeNode_conditional
    (h : lower languageName trim branches kind = .ok (.chain first chain)) :
    dialect.writeNode (.conditional kind branches trim endTrim) =
      Markup.conditional grammar.text conditionalWords first endTrim
        (dialect.writeBranches chain) := by
  rw [Dialect.writeNode]
  change writeConditional kind (dialect.writeBranches branches) trim endTrim = _
  rw [writeConditional, Dialect.writeBranches_eq_map, lower_map, h, map_ok, bind_ok,
    Dialect.writeBranches_eq_map]
  rfl

variable {subject : Expr} {body nodes : List Node} {headTrim elseTrim : Trim}

/-- Only the body of its alternative is left of a case distinction without values. -/
theorem write_always :
    dialect.write (.conditional .caseOf [⟨some subject, [], headTrim⟩, ⟨none, body, elseTrim⟩] trim
      endTrim :: nodes) = dialect.write (body ++ nodes) := by
  rw [Dialect.write, Dialect.writeNode, Dialect.write_append, Dialect.writeBranches,
    Dialect.writeBranches, Dialect.writeBranches]
  rfl

/-- Nothing is left of a case distinction without arms. -/
theorem write_nothing :
    dialect.write (.conditional .caseOf [⟨some subject, [], headTrim⟩] trim endTrim :: nodes) =
      dialect.write nodes := by
  have hnode :
      dialect.writeNode (.conditional .caseOf [⟨some subject, [], headTrim⟩] trim endTrim) =
      .ok "" := by
    rw [Dialect.writeNode, Dialect.writeBranches, Dialect.writeBranches]
    rfl
  rw [Dialect.write, hnode, ok_bind]
  cases dialect.write nodes <;> simp [bind, Except.bind, pure, Except.pure]

/-- The chain holds what its conditional holds. -/
theorem armContents_of_lower
    (h : lower languageName trim branches kind = .ok (.chain first chain))
    (hk : kind = .caseOf → ∀ b ∈ branches.head?, b.body = []) :
    Node.armContents chain = Node.armContents branches := by
  rcases bodies_lower h with hb | ⟨rfl, hb⟩
  · exact Node.armContents_congr hb
  · rw [Node.armContents_congr hb]
    cases branches with
    | nil => rfl
    | cons b bs => simp [hk rfl b rfl]

/-- Every arm of the chain has the body of a branch of its conditional. -/
theorem exists_branch_of_lower
    (h : lower languageName trim branches kind = .ok (.chain first chain))
    {arm : Branch (List Node)} (harm : arm ∈ chain) : ∃ b ∈ branches, b.body = arm.body := by
  have hmem : arm.body ∈ chain.map (·.body) := List.mem_map_of_mem harm
  rcases bodies_lower h with hb | ⟨-, hb⟩
  · rw [hb] at hmem
    exact List.mem_map.mp hmem
  · rw [hb] at hmem
    obtain ⟨b, hb, hbody⟩ := List.mem_map.mp hmem
    exact ⟨b, List.mem_of_mem_tail hb, hbody⟩

end Conditional

/-! ### Templates in which nothing leaves its delimiters -/

/-- A text in which no delimiter begins. -/
def Passage (s : List Char) : Prop :=
  ∀ c ∈ ['{', '%', '#'], Text.Lacks '{' c s

instance (s : List Char) : Decidable (Passage s) :=
  inferInstanceAs (Decidable (∀ c ∈ _, _))

theorem passage_nil : Passage [] :=
  fun _ _ => .nil

/-- What is written for the expression is made of whole tokens, and neither a tag nor a comment
begins in it. -/
def WritesPhrase (e : Expr) : Prop :=
  ∀ text, grammar.text e = .ok text →
    isWhole text.toList ∧ ∀ c ∈ ['%', '#'], Text.Lacks '{' c text.toList

instance (e : Expr) : Decidable (WritesPhrase e) :=
  inferInstanceAs (Decidable (∀ text, grammar.text e = .ok text → _ ∧ _))

theorem WritesPhrase.phrase {e : Expr} (he : WritesPhrase e) {text : String}
    (h : grammar.text e = .ok text) : Phrase text.toList (lexemes text.toList) :=
  .of_isWhole (he text h).1 (he text h).2

/-- What is written for the expression does not stand for a comment. -/
def WritesNoComment (e : Expr) : Prop :=
  ∀ text, grammar.text e = .ok text →
    ∀ x ∈ lexemes text.toList, Text.startsWith symbolHead x.text = false

instance (e : Expr) : Decidable (WritesNoComment e) :=
  inferInstanceAs (Decidable (∀ text, grammar.text e = .ok text → ∀ x ∈ lexemes text.toList, _))

/-- Names with commas between them. -/
def NameList (x : String) : Prop :=
  ∃ first more, x = ", ".intercalate (first :: more) ∧
    ∀ name ∈ first :: more, Text.isIdentifier (String.toList name)

theorem NameList.singleton {x : String} (h : Text.isIdentifier x.toList) : NameList x :=
  ⟨x, [], by simp, List.forall_mem_singleton.mpr h⟩

mutual

/-- The nodes, after a text `s`, are written so that texts, expressions and bodies stay between
their delimiters. -/
inductive Contained : List Char → List Node → Prop
  | nil {s} (hs : Passage s) : Contained s []
  | text {s content nodes} (h : Contained (s ++ content.toList) nodes) :
      Contained s (.text content :: nodes)
  | node {s n nodes} (hs : Passage s) (hn : ContainedNode n) (h : Contained [] nodes) :
      Contained s (n :: nodes)
  | always {s subject headTrim body elseTrim trim endTrim nodes} (h : Contained s (body ++ nodes)) :
      Contained s (.conditional .caseOf [⟨some subject, [], headTrim⟩, ⟨none, body, elseTrim⟩] trim
        endTrim :: nodes)
  | nothing {s subject headTrim trim endTrim nodes} (h : Contained s nodes) :
      Contained s (.conditional .caseOf [⟨some subject, [], headTrim⟩] trim endTrim :: nodes)

/-- The same for a single node that begins with a delimiter. -/
inductive ContainedNode : Node → Prop
  | output {e} (he : WritesPhrase e) (hc : WritesNoComment e) (trim : Trim) :
      ContainedNode (.output e trim)
  | conditional {kind branches trim first e body headTrim arms}
      (hl : lower languageName trim branches kind =
        .ok (.chain first (⟨some e, body, headTrim⟩ :: arms)))
      (hk : kind = .caseOf → ∀ b ∈ branches.head?, b.body = [])
      (he : WritesPhrase e) (hb : Contained [] body)
      (has : ∀ arm ∈ arms, ∀ e ∈ arm.condition, WritesPhrase e)
      (hbs : ∀ arm ∈ arms, Contained [] arm.body) (endTrim : Trim) :
      ContainedNode (.conditional kind branches trim endTrim)
  | loop {x e body otherwise} (hx : NameList x) (he : WritesPhrase e) (hb : Contained [] body)
      (ho : ∀ nodes ∈ otherwise, Contained [] nodes) (trim elseTrim endTrim : Trim) :
      ContainedNode (.loop x e body otherwise trim elseTrim endTrim)
  | assign {x e} (hx : NameList x) (he : WritesPhrase e) (trim endTrim : Trim) :
      ContainedNode (.assignment x (some e) none trim endTrim)
  | capture {x body} (hx : NameList x) (hb : Contained [] body) (trim endTrim : Trim) :
      ContainedNode (.assignment x none (some body) trim endTrim)
  | comment {content} (hc : ¬ ['#', '}'] <:+: content.toList) (trim endTrim : Trim) :
      ContainedNode (.comment content trim endTrim)
  | raw {content} (hc : Kept "endraw".toList content.toList) (hq : Quiet content.toList)
      (hs : ¬ symbolHead <:+: content.toList) (trim endTrim : Trim) :
      ContainedNode (.raw content trim endTrim)
  | subtemplate {e} (he : WritesPhrase e) (ignoreMissing : Bool) (trim : Trim) :
      ContainedNode (.subtemplate e ignoreMissing trim)
  | tag {name args} (hw : Text.isIdentifier name.toList)
      (hn : name ∉ continuing ++ ["if", "for"]) (hv : name ∉ ["raw", "verbatim"])
      (hs : name = "set" → .sign "=" ∈ lexemes args.toList) (ha : isWhole args.toList)
      (hd : ∀ c ∈ ['%', '#'], Text.Lacks '{' c args.toList) (trim : Trim) :
      ContainedNode (.tag name args [] trim)

end

theorem Contained.cons {n : Node} {nodes : List Node} (hn : ContainedNode n)
    (h : Contained [] nodes) : Contained [] (n :: nodes) :=
  .node passage_nil hn h

theorem Contained.singleton {n : Node} (hn : ContainedNode n) : Contained [] [n] :=
  .cons hn (.nil passage_nil)

end Stencil.Nunjucks

import Stencil.Proofs.Liquid.Blocks

/-!
# Every Liquid tree has a derivation

The tree builder accepts nothing but what the block grammar derives. While a tree is being built,
the tokens that have been read fall into what was derived before each open block, the tokens of that
block up to the part that is being read, and the tokens of that part. A block that has been opened
becomes a derived element whatever tokens end it.

## Main results

* `Liquid.ofTokens_eq_ok_iff` : the tree builder accepts what the grammar derives.
-/

namespace Stencil.Liquid

/-- Derived lists of tokens may follow each other. -/
theorem Derives.append {ts us : List Token} {es es' : List Element} (h : Derives ts es)
    (h' : Derives us es') : Derives (ts ++ us) (es ++ es') := by
  cases h with
  | nil => exact h'
  | html text hs => exact .html text (hs.append h')
  | output hv span trim hs => exact .output hv span trim (hs.append h')
  | verbatim opening content closing hs => exact .verbatim opening content closing (hs.append h')
  | tag hb ht hs => exact .tag hb ht (hs.append h')
  | conditional ho hc hb ha hs =>
    rw [List.append_assoc]
    exact .conditional ho hc hb ha (hs.append h')
  | caseOf ho hv hb ha hs =>
    rw [List.append_assoc]
    exact .caseOf ho hv hb ha (hs.append h')
  | loop ho hb ha hs =>
    rw [List.append_assoc]
    exact .loop ho hb ha (hs.append h')
  | capture ho hb hc hs =>
    rw [List.append_assoc]
    exact .capture ho hb hc (hs.append h')

/-! ### The end of a block -/

/-- The tokens `ts` end `block`, in the part of it that has the elements `body`, and the block is
then the element `e`. -/
inductive Finishes : Block → List Element → List Token → Element → Prop
  | close {block body t e} (h : block.advance t body = .ok (.close e)) :
      Finishes block body [.tag t] e
  | enter {block body t next vs more ts e} (h : block.advance t body = .ok (.enter next))
      (hv : Derives vs more) (hs : Finishes next more ts e) :
      Finishes block body (.tag t :: vs ++ ts) e

/-- What a tag does to a block that can only end. -/
def closeStep (name : String) (element : Tag → Element) (t : Tag) :
    Except ReadError (Progress Block Element) :=
  if t.name == name then .ok (.close (element t)) else .ok .foreign

/-- What a tag does to a block that can end or have an alternative. -/
def endStep (name : String) (element : Option (Alternative Element) → Tag → Element)
    (alternative : Tag → Block) (t : Tag) : Except ReadError (Progress Block Element) :=
  if t.name == "else" then .ok (.enter (alternative t)) else closeStep name (element none) t

variable {ts us vs : List Token} {es body : List Element} {e : Element} {block next : Block}
  {t : Tag} {name : String} {element : Option (Alternative Element) → Tag → Element}
  {alternative : Tag → Block}

theorem closeStep_eq_close {element : Tag → Element}
    (h : closeStep name element t = .ok (.close e)) :
    t.name = name ∧ e = element t := by
  unfold closeStep at h
  split at h
  · next hn => exact ⟨by simpa using hn, (Progress.close.inj (Except.ok.inj h)).symm⟩
  · cases h

theorem closeStep_ne_enter {element : Tag → Element} :
    closeStep name element t ≠ .ok (.enter next) := by
  unfold closeStep
  split <;> nofun

theorem Finishes.of_closeStep {element : Tag → Element} (h : Finishes block body ts e)
    (ha : ∀ t, block.advance t body = closeStep name element t) :
    ∃ closing, closing.name = name ∧ ts = [.tag closing] ∧ e = element closing := by
  cases h with
  | close h =>
    obtain ⟨hn, rfl⟩ := closeStep_eq_close ((ha _).symm.trans h)
    exact ⟨_, hn, rfl, rfl⟩
  | enter h => exact absurd ((ha _).symm.trans h) closeStep_ne_enter

theorem derivesEnd_of_close (h : endStep name element alternative t = .ok (.close e)) :
    DerivesEnd name [.tag t] none t ∧ e = element none t := by
  unfold endStep at h
  split at h
  · cases h
  · obtain ⟨hn, rfl⟩ := closeStep_eq_close h
    exact ⟨.closing hn, rfl⟩

theorem derivesEnd_of_enter (h : endStep name element alternative t = .ok (.enter next))
    (ha : ∀ head t body, (alternative head).advance t body =
      closeStep name (element (some ⟨head, body⟩)) t)
    (hv : Derives vs body) (hs : Finishes next body ts e) :
    ∃ otherwise closing, DerivesEnd name (.tag t :: vs ++ ts) otherwise closing ∧
      e = element otherwise closing := by
  unfold endStep at h
  split at h
  · next hn =>
    cases h
    obtain ⟨closing, hc, rfl, rfl⟩ := hs.of_closeStep fun t' => ha t t' body
    exact ⟨_, closing, .otherwise (by simpa using hn) hv hc, rfl⟩
  · exact absurd h closeStep_ne_enter

/-- A loop ends with or without an alternative. -/
theorem Finishes.of_loop {opening : Tag} (h : Finishes (.loop opening) body ts e) :
    ∃ otherwise closing, DerivesEnd "endfor" ts otherwise closing ∧
      e = .loop opening body otherwise closing := by
  have hstep (t : Tag) : (Block.loop opening).advance t body =
      endStep "endfor" (.loop opening body) (.loopElse opening body) t := rfl
  cases h with
  | close h =>
    rw [hstep] at h
    exact ⟨none, _, derivesEnd_of_close h⟩
  | enter h hv hs =>
    rw [hstep] at h
    exact derivesEnd_of_enter h (fun _ _ _ => rfl) hv hs

/-- A conditional ends after some further clauses. -/
theorem Finishes.of_clause {opening head : Tag} {done : Option (Clauses (Clause Element))}
    {condition : Chain} (h : Finishes (.clause opening done head condition) body ts e) :
    ∃ clauses otherwise closing,
      DerivesClauses ("end" ++ opening.name) ts clauses otherwise closing ∧
      e = .conditional (Clauses.extend done ⟨head, condition, body⟩).first
        ((Clauses.extend done ⟨head, condition, body⟩).rest ++ clauses) otherwise closing := by
  -- the induction is on the tokens of the end, over all clauses that may be done before them
  have hstep (done head condition t body) :
      (Block.clause opening done head condition).advance t body =
        if t.name == "elsif" then
          (readCondition t).map fun next =>
            .enter (.clause opening (some (Clauses.extend done ⟨head, condition, body⟩)) t next)
        else
          endStep ("end" ++ opening.name)
            (.conditional (Clauses.extend done ⟨head, condition, body⟩).first
              (Clauses.extend done ⟨head, condition, body⟩).rest)
            (.clauseElse opening (Clauses.extend done ⟨head, condition, body⟩)) t := rfl
  generalize hb : Block.clause opening done head condition = block at h
  induction h generalizing done head condition with
  | close h =>
    subst hb
    rw [hstep] at h
    split at h
    · obtain ⟨condition, -, h⟩ := map_eq_ok.mp h
      cases h
    · obtain ⟨hd, rfl⟩ := derivesEnd_of_close h
      exact ⟨[], none, _, .last hd, by rw [List.append_nil]⟩
  | enter h hv hs ih =>
    subst hb
    rw [hstep] at h
    split at h
    · next hn =>
      obtain ⟨condition, hc, h⟩ := map_eq_ok.mp h
      cases h
      obtain ⟨clauses, otherwise, closing, hd, rfl⟩ := ih rfl
      refine ⟨_ :: clauses, otherwise, closing, .clause (by simpa using hn) hc hv hd, ?_⟩
      simp [Clauses.extend]
    · obtain ⟨otherwise, closing, hd, rfl⟩ := derivesEnd_of_enter h (fun _ _ _ => rfl) hv hs
      exact ⟨[], otherwise, closing, .last hd, by rw [List.append_nil]⟩

/-- The blocks of a case distinction that has the clauses `whens` once the part that is being read
ends. -/
inductive InCase (opening : Tag) (subject : Value) :
    List (When Element) → Block → List Element → Prop
  | head (body : List Element) : InCase opening subject [] (.caseHead opening subject) body
  | clause (done : List (When Element)) (head : Tag) (values : List Operand) (body : List Element) :
      InCase opening subject (done ++ [⟨head, values, body⟩])
        (.caseWhen opening subject done head values) body

theorem InCase.advance {opening : Tag} {subject : Value} {whens : List (When Element)}
    (h : InCase opening subject whens block body) (t : Tag) :
    block.advance t body = if t.name == "when" then enterWhen opening subject whens t else
      endStep "endcase" (.caseOf opening subject whens) (.caseElse opening subject whens) t := by
  cases h <;> rfl

/-- A case distinction ends after some further clauses. -/
theorem Finishes.of_inCase {opening : Tag} {subject : Value} {done : List (When Element)}
    (h : Finishes block body ts e) (hb : InCase opening subject done block body) :
    ∃ whens otherwise closing, DerivesWhens ts whens otherwise closing ∧
      e = .caseOf opening subject (done ++ whens) otherwise closing := by
  induction h generalizing done with
  | close h =>
    rw [hb.advance] at h
    split at h
    · obtain ⟨values, -, h⟩ := map_eq_ok.mp h
      cases h
    · obtain ⟨hd, rfl⟩ := derivesEnd_of_close h
      exact ⟨[], none, _, .last hd, by rw [List.append_nil]⟩
  | enter h hv hs ih =>
    rw [hb.advance] at h
    split at h
    · next hn =>
      obtain ⟨values, hp, h⟩ := map_eq_ok.mp h
      cases h
      obtain ⟨whens, otherwise, closing, hd, rfl⟩ := ih (.clause done _ values _)
      refine ⟨_ :: whens, otherwise, closing, .clause (by simpa using hn) hp hv hd, ?_⟩
      rw [List.append_assoc, List.singleton_append]
    · obtain ⟨otherwise, closing, hd, rfl⟩ := derivesEnd_of_enter h (fun _ _ _ => rfl) hv hs
      exact ⟨[], otherwise, closing, .last hd, by rw [List.append_nil]⟩

/-! ### Open blocks -/

/-- The tokens `us` open `block` and lead to the part of it that is being read: with the tokens of
that part and tokens that end the block, they are an element. -/
def Started (block : Block) (us : List Token) : Prop :=
  ∀ {vs body ts e}, Derives vs body → Finishes block body ts e → Derives (us ++ vs ++ ts) [e]

theorem Started.enter (h : Started block us) (hv : Derives vs body)
    (ha : block.advance t body = .ok (.enter next)) : Started next (us ++ vs ++ [.tag t]) := by
  intro vs' body' ts e hv' hs
  have := h hv (.enter ha hv' hs)
  simpa using this

theorem Started.close (h : Started block us) (hv : Derives vs body)
    (ha : block.advance t body = .ok (.close e)) : Derives (us ++ vs ++ [.tag t]) [e] :=
  h hv (.close ha)

/-- A block that a tag opens is derived once it ends. -/
theorem started_of_open? (h : Block.open? t = .ok (some block)) : Started block [.tag t] := by
  intro vs body ts e hv hs
  unfold Block.open? at h
  rw [← List.append_nil (_ ++ ts)]
  split at h
  · next hn =>
    obtain ⟨condition, hc, h⟩ := map_eq_ok.mp h
    cases h
    obtain ⟨clauses, otherwise, closing, hd, rfl⟩ := hs.of_clause
    exact .conditional (by simpa using hn) hc hv hd .nil
  split at h
  · next hn =>
    obtain ⟨subject, hp, h⟩ := map_eq_ok.mp h
    cases h
    obtain ⟨whens, otherwise, closing, hd, rfl⟩ := hs.of_inCase (.head _)
    exact .caseOf (by simpa using hn) hp hv hd .nil
  split at h
  · next hn =>
    cases h
    obtain ⟨otherwise, closing, hd, rfl⟩ := hs.of_loop
    exact .loop (by simpa using hn) hv hd .nil
  split at h
  · next hn =>
    cases h
    obtain ⟨closing, hc, rfl, rfl⟩ := hs.of_closeStep fun _ => rfl
    rw [List.append_assoc]
    exact .capture (by simpa using hn) hv hc .nil
  · cases h

theorem not_mem_blockNames_of_open? (h : Block.open? t = .ok none) : t.name ∉ blockNames := by
  intro hn
  simp only [blockNames, List.mem_cons, List.not_mem_nil, or_false] at hn
  unfold Block.open? at h
  rcases hn with hn | hn | hn | hn | hn
  all_goals
    simp only [hn] at h
    first
    | cases h
    | obtain ⟨_, -, h⟩ := map_eq_ok.mp h
      cases h

/-! ### Trees that are being built -/

/-- The tokens `us` have been read when `blocks` are open and the innermost one has `elements`, both
listed from the end. -/
def Reached : (blocks : List (Block × List Element)) → (elements : List Element) →
    (us : List Token) → Prop
  | [], elements, us => Derives us elements.reverse
  | (block, before) :: outer, elements, us =>
    ∃ us₀ us₁ vs, us = us₀ ++ (us₁ ++ vs) ∧ Reached outer before us₀ ∧ Started block us₁ ∧
      Derives vs elements.reverse

theorem Reached.push {blocks : List (Block × List Element)} (h : Reached blocks es us)
    (hv : Derives vs [e]) : Reached blocks (e :: es) (us ++ vs) := by
  cases blocks with
  | nil =>
    rw [Reached, List.reverse_cons]
    exact Derives.append h hv
  | cons block outer =>
    obtain ⟨us₀, us₁, vs₀, rfl, ho, hs, hb⟩ := h
    refine ⟨us₀, us₁, vs₀ ++ vs, by simp, ho, hs, ?_⟩
    rw [List.reverse_cons]
    exact hb.append hv

theorem Reached.enter {b : Builder} (h : Reached b.blocks b.elements us)
    (hb : Started block vs) : Reached (b.enter block).blocks (b.enter block).elements (us ++ vs) :=
  ⟨us, vs, [], by simp, h, hb, .nil⟩

/-- A tag that opens a block or stands on its own is read. -/
theorem Reached.openTag {b b' : Builder} (h : Reached b.blocks b.elements us)
    (ht : openTag b t = .ok b') : Reached b'.blocks b'.elements (us ++ [.tag t]) := by
  unfold Liquid.openTag at ht
  split at ht
  · cases ht
  · next hn =>
    obtain ⟨block?, ho, rfl⟩ := map_eq_ok.mp ht
    cases block? with
    | none => exact h.push (.tag (not_mem_blockNames_of_open? ho) (by simpa using hn) .nil)
    | some block => exact h.enter (started_of_open? ho)

/-- Every token is read. -/
theorem Reached.feed {b b' : Builder} {token : Token} (h : Reached b.blocks b.elements us)
    (ht : feed b token = .ok b') : Reached b'.blocks b'.elements (us ++ [token]) := by
  cases token with
  | html text =>
    cases ht
    exact h.push (.html text .nil)
  | output inner span trim =>
    obtain ⟨value, hv, rfl⟩ := map_eq_ok.mp ht
    exact h.push (.output hv span trim .nil)
  | verbatim opening content closing =>
    cases ht
    exact h.push (.verbatim opening content closing .nil)
  | tag t =>
    rcases Nesting.advance_eq_ok ht with ht | ⟨block, before, outer, hb, hstep⟩
    · exact h.openTag ht
    rw [hb] at h
    obtain ⟨us₀, us₁, vs, rfl, ho, hs, hv⟩ := h
    rcases hstep with ⟨next, hp, rfl⟩ | ⟨e, hp, rfl⟩
    · exact ⟨us₀, us₁ ++ vs ++ [.tag t], [], by simp, ho, hs.enter hv hp, .nil⟩
    · rw [List.append_assoc us₀]
      exact Reached.push ho (hs.close hv hp)

/-- The tokens of a tree are derived. -/
theorem derives_of_ofTokens (h : Element.ofTokens ts = .ok es) : Derives ts es := by
  have hnil : Reached [] [] [] := Derives.nil
  obtain ⟨b, ⟨us, rfl, hr⟩, hb, rfl⟩ := Nesting.exists_of_run
    (fun b rest => ∃ us, us ++ rest = ts ∧ Reached b.blocks b.elements us)
    (fun b t rest b' ⟨us, hus, hr⟩ ht => ⟨us ++ [t], by simpa using hus, hr.feed ht⟩)
    ⟨[], rfl, hnil⟩ h
  rw [hb] at hr
  rw [List.append_nil]
  exact hr

/-- The tree builder accepts what the grammar derives and nothing else. -/
theorem ofTokens_eq_ok_iff : Element.ofTokens ts = .ok es ↔ Derives ts es :=
  ⟨derives_of_ofTokens, Derives.ofTokens⟩

end Stencil.Liquid

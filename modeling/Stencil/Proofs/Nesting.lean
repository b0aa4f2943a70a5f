import Mathlib.Data.List.Forall2
import Stencil.Nesting

/-!
# Runs of a tree builder

A tree is built item by item, and what a list of items does can be told without the items around
it: it adds some elements to the innermost open block and leaves the blocks around as they are. The
statements here are about any way to feed items.
-/

namespace Stencil.Nesting

variable {β ε τ : Type} {n n' n'' : Nesting β ε} {es es' : List ε}

/-- What has been read, with some more elements in the innermost open block. -/
def extend (n : Nesting β ε) (es : List ε) : Nesting β ε :=
  { n with elements := es.reverse ++ n.elements }

@[simp] theorem extend_nil (n : Nesting β ε) : n.extend [] = n :=
  rfl

@[simp] theorem blocks_extend (n : Nesting β ε) (es : List ε) : (n.extend es).blocks = n.blocks :=
  rfl

@[simp] theorem blocks_push (n : Nesting β ε) (e : ε) : (n.push e).blocks = n.blocks :=
  rfl

@[simp] theorem blocks_enter (n : Nesting β ε) (block : β) :
    (n.enter block).blocks = (block, n.elements) :: n.blocks :=
  rfl

@[simp] theorem extend_push (n : Nesting β ε) (e : ε) (es : List ε) :
    (n.push e).extend es = n.extend (e :: es) := by
  simp [extend, push]

/-! ### The innermost open block -/

variable {step : β → List ε → Except ReadError (Progress β ε)}
  {otherwise : Except ReadError (Nesting β ε)} {block next : β} {e : ε}

theorem advance_enter (h : step block es = .ok (.enter next)) :
    ((n.enter block).extend es).advance step otherwise = .ok (n.enter next) := by
  simp [advance, extend, enter, h]

theorem advance_close (h : step block es = .ok (.close e)) :
    ((n.enter block).extend es).advance step otherwise = .ok (n.push e) := by
  simp [advance, extend, enter, push, h]

theorem advance_error {x : ReadError} (h : step block es = .error x) :
    ((n.enter block).extend es).advance step otherwise = .error x := by
  simp only [advance, extend, enter, List.append_nil, List.reverse_reverse, h]
  rfl

theorem advance_otherwise (h : step block es = .ok .foreign) :
    ((n.enter block).extend es).advance step otherwise = otherwise := by
  simp [advance, extend, enter, h]

theorem advance_foreign (h : ∀ p ∈ n.blocks, ∀ body, step p.1 body = .ok .foreign) :
    n.advance step otherwise = otherwise := by
  rw [advance]
  split
  · rfl
  · next block before outer hb => rw [h (block, before) (by simp [hb]), bind_ok]

/-- What an item has done: it was passed on, or the innermost open block went on or ended. -/
theorem advance_eq_ok (h : n.advance step otherwise = .ok n') :
    otherwise = .ok n' ∨ ∃ block before outer, n.blocks = (block, before) :: outer ∧
      ((∃ next, step block n.elements.reverse = .ok (.enter next) ∧
          n' = ⟨[], (next, before) :: outer⟩) ∨
        ∃ e, step block n.elements.reverse = .ok (.close e) ∧ n' = ⟨e :: before, outer⟩) := by
  unfold advance at h
  split at h
  · exact .inl h
  · next block before outer hb =>
    obtain ⟨progress, hp, h⟩ := bind_eq_ok.mp h
    cases progress with
    | enter next => exact .inr ⟨block, before, outer, hb, .inl ⟨next, hp, (Except.ok.inj h).symm⟩⟩
    | close e => exact .inr ⟨block, before, outer, hb, .inr ⟨e, hp, (Except.ok.inj h).symm⟩⟩
    | foreign => exact .inl h

/-! ### Lists of items -/

variable {feed : Nesting β ε → τ → Except ReadError (Nesting β ε)} {t : τ} {ts us : List τ}

/-- The items `ts` take what has been read from `n` to `n'`. -/
def Feeds (feed : Nesting β ε → τ → Except ReadError (Nesting β ε)) (ts : List τ)
    (n n' : Nesting β ε) : Prop :=
  ts.foldlM feed n = .ok n'

namespace Feeds

theorem nil : Feeds feed [] n n :=
  rfl

theorem cons (h : feed n t = .ok n') (hs : Feeds feed ts n' n'') : Feeds feed (t :: ts) n n'' := by
  rw [Feeds, List.foldlM_cons, h, ok_bind]
  exact hs

theorem append (h : Feeds feed ts n n') (hs : Feeds feed us n' n'') :
    Feeds feed (ts ++ us) n n'' := by
  rw [Feeds, List.foldlM_append, h, ok_bind]
  exact hs

theorem of_cons (h : Feeds feed (t :: ts) n n'') :
    ∃ n', feed n t = .ok n' ∧ Feeds feed ts n' n'' := by
  rw [Feeds, List.foldlM_cons] at h
  exact bind_eq_ok.mp h

theorem of_append (h : Feeds feed (ts ++ us) n n'') :
    ∃ n', Feeds feed ts n n' ∧ Feeds feed us n' n'' := by
  rw [Feeds, List.foldlM_append] at h
  exact bind_eq_ok.mp h

theorem run_eq {unclosed : β → ReadError} (h : Feeds feed ts n n') :
    run feed unclosed n ts = n'.finish unclosed := by
  induction ts generalizing n with
  | nil =>
    obtain rfl : n = n' := Except.ok.inj h
    rfl
  | cons t ts ih =>
    obtain ⟨m, hm, hs⟩ := h.of_cons
    rw [run, hm, bind_ok, ih hs]

/-- The tree of a list of items that leaves no block open. -/
theorem run {unclosed : β → ReadError} (h : Feeds feed ts {} (extend {} es)) :
    Nesting.run feed unclosed {} ts = .ok es := by
  rw [h.run_eq]
  simp [finish, extend]

end Feeds

/-- A tree is built from items that all go through. -/
theorem exists_feeds_of_run {unclosed : β → ReadError} (h : run feed unclosed n ts = .ok es) :
    ∃ n', Feeds feed ts n n' := by
  induction ts generalizing n with
  | nil => exact ⟨n, .nil⟩
  | cons t ts ih =>
    obtain ⟨m, hm, h⟩ := bind_eq_ok.mp h
    obtain ⟨n', hs⟩ := ih h
    exact ⟨n', .cons hm hs⟩

/-- What every item keeps of what has been read and the items that are left holds at the end, when
no block is open. -/
theorem exists_of_run (I : Nesting β ε → List τ → Prop) {unclosed : β → ReadError}
    (hstep : ∀ n t ts n', I n (t :: ts) → feed n t = .ok n' → I n' ts) (hn : I n ts)
    (h : run feed unclosed n ts = .ok es) :
    ∃ n', I n' [] ∧ n'.blocks = [] ∧ n'.elements.reverse = es := by
  induction ts generalizing n with
  | nil =>
    rw [run, finish] at h
    split at h
    · next hb => exact ⟨n, hn, hb, Except.ok.inj h⟩
    · cases h
  | cons t ts ih =>
    obtain ⟨m, hm, h⟩ := bind_eq_ok.mp h
    exact ih (hstep n t ts m hn hm) h

/-! ### Properties of all elements -/

/-- What holds of all elements outside the open blocks and around them. -/
structure AllElements (P : ε → Prop) (n : Nesting β ε) : Prop where
  elements : ∀ e ∈ n.elements, P e
  before : ∀ p ∈ n.blocks, ∀ e ∈ p.2, P e

namespace AllElements

variable {P : ε → Prop}

theorem nil : AllElements P ({} : Nesting β ε) :=
  ⟨by simp, by simp⟩

theorem push (h : AllElements P n) (he : P e) : AllElements P (n.push e) :=
  ⟨List.forall_mem_cons.mpr ⟨he, h.elements⟩, h.before⟩

theorem enter (h : AllElements P n) (block : β) : AllElements P (n.enter block) :=
  ⟨by simp [Nesting.enter], List.forall_mem_cons.mpr ⟨h.elements, h.before⟩⟩

/-- An item keeps the property if the elements of the blocks that it ends have it. -/
theorem advance (h : AllElements P n)
    (hclose : ∀ block body e, step block body = .ok (.close e) → P e)
    (hotherwise : ∀ n', otherwise = .ok n' → AllElements P n')
    (hn : n.advance step otherwise = .ok n') : AllElements P n' := by
  rcases advance_eq_ok hn with hn | ⟨block, before, outer, hb, ⟨next, -, rfl⟩ | ⟨e, he, rfl⟩⟩
  · exact hotherwise n' hn
  all_goals
    have hbefore := h.before
    rw [hb, List.forall_mem_cons] at hbefore
  · exact ⟨by simp, List.forall_mem_cons.mpr hbefore⟩
  · exact ⟨List.forall_mem_cons.mpr ⟨hclose block _ e he, hbefore.1⟩, hbefore.2⟩

end AllElements

/-! ### Writing out what has been read -/

section Word

variable {ω : Type} (element : ε → List ω) (opened : β → List ω)

/-- The open blocks, written out from the outermost one on, each after the elements before it. -/
def blocksWord : List (β × List ε) → List ω
  | [] => []
  | (block, before) :: outer =>
    blocksWord outer ++ before.reverse.flatMap element ++ opened block

/-- What has been read, written out in order, given how an element is written out, and an open block
up to the part that is being read. -/
def word (n : Nesting β ε) : List ω :=
  blocksWord element opened n.blocks ++ n.elements.reverse.flatMap element

variable {element opened}

theorem word_push (n : Nesting β ε) (e : ε) :
    (n.push e).word element opened = n.word element opened ++ element e := by
  simp [word, push]

theorem word_enter (n : Nesting β ε) (block : β) :
    (n.enter block).word element opened = n.word element opened ++ opened block := by
  simp [word, enter, blocksWord]

/-- After `ws` there is one more entry, with the property `P`, in the block that goes on or in the
element that ends it. -/
def Writes (element : ε → List ω) (opened : β → List ω) (P : ω → Prop) (ws : List ω) :
    Progress β ε → Prop
  | .enter next => ∃ w, P w ∧ opened next = ws ++ [w]
  | .close e => ∃ w, P w ∧ element e = ws ++ [w]
  | .foreign => True

/-- An item adds an entry, whether it goes on with a block, ends one or is passed on. -/
theorem exists_word_advance {P : ω → Prop}
    (hstep : ∀ block body progress, step block body = .ok progress →
      Writes element opened P (opened block ++ body.flatMap element) progress)
    (hotherwise : ∀ n', otherwise = .ok n' →
      ∃ w, P w ∧ n'.word element opened = n.word element opened ++ [w])
    (h : n.advance step otherwise = .ok n') :
    ∃ w, P w ∧ n'.word element opened = n.word element opened ++ [w] := by
  rcases advance_eq_ok h with h | ⟨block, before, outer, hb, ⟨next, hs, rfl⟩ | ⟨e, hs, rfl⟩⟩
  · exact hotherwise n' h
  · obtain ⟨w, hw, hnext⟩ := hstep _ _ _ hs
    exact ⟨w, hw, by simp [word, hb, blocksWord, hnext]⟩
  · obtain ⟨w, hw, he⟩ := hstep _ _ _ hs
    exact ⟨w, hw, by simp [word, hb, blocksWord, he]⟩

/-- A tree is written out as its items are, if every item adds the entry that it stands for. -/
theorem forall₂_of_run {R : τ → ω → Prop} {unclosed : β → ReadError}
    (hfeed : ∀ n t n', feed n t = .ok n' →
      ∃ w, R t w ∧ n'.word element opened = n.word element opened ++ [w])
    (h : run feed unclosed {} ts = .ok es) : List.Forall₂ R ts (es.flatMap element) := by
  obtain ⟨n, ⟨done, rfl, hdone⟩, hblocks, rfl⟩ := exists_of_run
    (fun n us => ∃ done, ts = done ++ us ∧ List.Forall₂ R done (n.word element opened))
    (fun n t us n' hn ht => by
      obtain ⟨done, rfl, hdone⟩ := hn
      obtain ⟨w, hw, hword⟩ := hfeed n t n' ht
      refine ⟨done ++ [t], by simp, hword ▸ ?_⟩
      exact List.rel_append hdone (.cons hw .nil))
    ⟨[], rfl, by simp [word, blocksWord]⟩ h
  simpa [word, hblocks, blocksWord] using hdone

end Word

end Stencil.Nesting

import Mathlib.Data.List.Infix
import Stencil.Proofs.Text.Literal

/-!
# Texts without a word

A word stands in a text if it is a name of its own there: it is not quoted, no letter comes right
before it, and no name goes on after it. Where texts that close their quotes are put together with a
character between them that the word does not have, it stands in one of them or not at all.
-/

namespace Stencil.Text

variable {w s t u : List Char} {c : Char}

/-! ### Quotes -/

/-- The quote that is open after a character, and whether a backslash keeps what comes next. -/
def quoteStep : Option (Char × Bool) → Char → Option (Char × Bool)
  | none, c => if isQuote c then some (c, false) else none
  | some (q, true), _ => some (q, false)
  | some (q, false), c =>
    if c == '\\' then some (q, true) else if c == q then none else some (q, false)

/-- No quote is open at the end of the text. -/
def Closed (s : List Char) : Prop :=
  s.foldl quoteStep none = none

instance (s : List Char) : Decidable (Closed s) :=
  inferInstanceAs (Decidable (_ = _))

theorem Closed.append_iff (hs : Closed s) : Closed (s ++ t) ↔ Closed t := by
  rw [Closed, List.foldl_append, hs, Closed]

theorem Closed.append (hs : Closed s) (ht : Closed t) : Closed (s ++ t) :=
  hs.append_iff.mpr ht

theorem closed_of_unquoted (h : ∀ c ∈ s, isQuote c = false) : Closed s := by
  induction s with
  | nil => rfl
  | cons c cs ih =>
    rw [List.forall_mem_cons] at h
    have hc : Closed [c] := by simp [Closed, quoteStep, h.1]
    exact hc.append (ih h.2)

/-- A quoted string closes its quotes. -/
theorem closed_quoted {q : Char} {body : List Char} (hq : isQuote q) (h : QuotedBody q body) :
    Closed (q :: body) := by
  have hslash := ne_backslash_of_isQuote hq
  suffices hbody : body.foldl quoteStep (some (q, false)) = none by
    rwa [Closed, List.foldl_cons, quoteStep, if_pos hq]
  induction h with
  | closing => simp [quoteStep, hslash]
  | escaped c _ ih => exact ih
  | doubled _ ih => simpa [quoteStep, hslash, hq] using ih
  | other hc hne _ ih => simpa [quoteStep, hc, hne] using ih

/-! ### Words -/

/-- A name can begin after the text: no quote is open, and the text does not end in a letter. -/
structure Ready (s : List Char) : Prop where
  closed : Closed s
  stop : ∀ c ∈ s.getLast?, isNameStart c = false

instance (s : List Char) : Decidable (Ready s) :=
  decidable_of_iff (Closed s ∧ ∀ c ∈ s.getLast?, isNameStart c = false)
    ⟨fun h => ⟨h.1, h.2⟩, fun h => ⟨h.closed, h.stop⟩⟩

theorem ready_nil : Ready [] :=
  ⟨rfl, by simp⟩

theorem Ready.of_forall (h : ∀ c ∈ s, isQuote c = false ∧ isNameStart c = false) : Ready s :=
  ⟨closed_of_unquoted fun c hc => (h c hc).1, fun c hc => (h c (List.mem_of_getLast? hc)).2⟩

theorem Ready.blanks (h : ∀ c ∈ s, isBlank c) : Ready s :=
  .of_forall fun c hc =>
    ⟨isQuote_eq_false_of_isBlank (h c hc), isNameStart_eq_false_of_isBlank (h c hc)⟩

/-- A number, with its sign if it has one. -/
theorem Ready.number (h : ∀ c ∈ s, isDigit c ∨ c ∈ ['-', '.']) : Ready s := by
  refine .of_forall fun c hc => ?_
  rcases h c hc with hd | hd
  · refine ⟨isQuote_eq_false_of_isNameChar (isNameChar_of_isDigit hd), ?_⟩
    by_contra hn
    rw [isDigit_eq_false_of_isNameStart (Bool.not_eq_false _ ▸ hn)] at hd
    cases hd
  · rcases List.mem_pair.mp hd with rfl | rfl <;> decide

/-- A quoted string. -/
theorem Ready.quoted {quote : Char} {cs body rest : List Char} (hq : isQuote quote)
    (h : quotedRest quote cs = some (body, rest)) : Ready (quote :: body) := by
  refine ⟨closed_quoted hq (quotedBody_of_quotedRest h).1, fun d hd => ?_⟩
  rw [List.getLast?_cons, getLast?_of_quotedRest h] at hd
  obtain rfl : quote = d := Option.some.inj hd
  by_contra hn
  rw [isQuote_eq_false_of_isNameChar (isNameChar_of_isNameStart (Bool.not_eq_false _ ▸ hn))] at hq
  cases hq

theorem Ready.string (h : isString s) : Ready s := by
  cases s with
  | nil => cases h
  | cons q cs =>
    obtain ⟨hq, hcs⟩ := isString_cons.mp h
    exact .quoted hq hcs

/-- No word of letters goes on where the texts meet. -/
def Apart (s t : List Char) : Prop :=
  (∀ c ∈ s.getLast?, isNameStart c = false) ∨ ∀ c ∈ t.head?, isNameChar c = false

theorem Ready.apart (h : Ready s) (t : List Char) : Apart s t :=
  .inl h.stop

/-- The word stands in the text as a name of its own. -/
def HasWord (w s : List Char) : Prop :=
  ∃ a b, s = a ++ (w ++ b) ∧ Ready a ∧ ∀ c ∈ b.head?, isNameChar c = false

/-- The word does not stand in the text as a name of its own. -/
def LacksWord (w s : List Char) : Prop :=
  ¬ HasWord w s

/-- The word can be looked for at every place of the text. -/
theorem hasWord_iff : HasWord w s ↔ ∃ a ∈ s.inits, Ready a ∧ w <+: s.drop a.length ∧
    ∀ c ∈ ((s.drop a.length).drop w.length).head?, isNameChar c = false := by
  constructor
  · rintro ⟨a, b, rfl, ha, hb⟩
    refine ⟨a, (List.mem_inits _ _).mpr (List.prefix_append a _), ha, ?_⟩
    rw [List.drop_left, List.drop_left]
    exact ⟨List.prefix_append w b, hb⟩
  · rintro ⟨a, hmem, ha, ⟨b, hword⟩, hb⟩
    obtain ⟨t, rfl⟩ := (List.mem_inits _ _).mp hmem
    rw [List.drop_left] at hword hb
    rw [← hword, List.drop_left] at hb
    exact ⟨a, b, by rw [hword], ha, hb⟩

instance (w s : List Char) : Decidable (HasWord w s) :=
  decidable_of_iff _ hasWord_iff.symm

instance (w s : List Char) : Decidable (LacksWord w s) :=
  inferInstanceAs (Decidable (¬ _))

/-- A word of letters. -/
structure IsWord (w : List Char) : Prop where
  ne_nil : w ≠ []
  letters : ∀ c ∈ w, isLetter c

theorem IsWord.notMem (hw : IsWord w) (hc : isLetter c = false) : c ∉ w := by
  intro h
  rw [hw.letters c h] at hc
  cases hc

theorem IsWord.exists_cons (hw : IsWord w) : ∃ d ds, w = d :: ds ∧ isNameChar d := by
  obtain ⟨d, ds, rfl⟩ := List.exists_cons_of_ne_nil hw.ne_nil
  have hd := hw.letters d List.mem_cons_self
  exact ⟨d, ds, rfl, isNameChar_of_isNameStart (by simp [isNameStart, hd])⟩

namespace HasWord

theorem isInfix (h : HasWord w s) : w <:+: s := by
  obtain ⟨a, b, rfl, -⟩ := h
  exact ⟨a, b, by simp⟩

/-- A word that goes on as long as a name can. -/
theorem cons_takeWhile {p : Char → Bool} (hp : ∀ d, isNameChar d → p d) (c : Char)
    (cs : List Char) : HasWord (c :: cs.takeWhile p) (c :: cs) := by
  refine ⟨[], cs.dropWhile p, by simp [List.takeWhile_append_dropWhile], ready_nil, fun d hd => ?_⟩
  have hstop : p d = false := by
    have h := List.head?_dropWhile_not p cs
    rwa [hd] at h
  by_contra hname
  rw [hp d (Bool.not_eq_false _ ▸ hname)] at hstop
  cases hstop

/-- A word after a text that closes its quotes and does not end in the middle of a name. -/
theorem append_left (hw : IsWord w) (h : HasWord w s) (hu : Closed u) (hb : Apart u s) :
    HasWord w (u ++ s) := by
  obtain ⟨a, b, rfl, ha, hend⟩ := h
  refine ⟨u ++ a, b, by simp, ⟨hu.append ha.closed, fun c hc => ?_⟩, hend⟩
  cases a with
  | cons d a => exact ha.stop c (by simpa using hc)
  | nil =>
    rcases hb with hb | hb
    · exact hb c (by simpa using hc)
    · obtain ⟨d, ds, rfl, hd⟩ := hw.exists_cons
      rw [hb d rfl] at hd
      cases hd

theorem append_right (h : HasWord w s) (ht : ∀ c ∈ t.head?, isNameChar c = false) :
    HasWord w (s ++ t) := by
  obtain ⟨a, b, rfl, ha, hb⟩ := h
  refine ⟨a, b ++ t, by simp, ha, ?_⟩
  cases b with
  | nil => exact ht
  | cons => exact hb

end HasWord

namespace LacksWord

theorem of_append (hw : IsWord w) (h : LacksWord w (u ++ s)) (hu : Closed u) (hb : Apart u s) :
    LacksWord w s :=
  fun hword => h (hword.append_left hw hu hb)

theorem of_ready (hw : IsWord w) (h : LacksWord w (u ++ s)) (hu : Ready u) : LacksWord w s :=
  h.of_append hw hu.closed (hu.apart s)

theorem of_append_cons (h : LacksWord w (s ++ c :: t)) (hc : isNameChar c = false) :
    LacksWord w s := by
  refine fun hword => h (hword.append_right fun d hd => ?_)
  obtain rfl := Option.some.inj hd
  exact hc

/-- A character that is neither a letter nor a quote keeps two texts apart. -/
theorem join (hw : IsWord w) (hc : isLetter c = false ∧ isQuote c = false) (hq : Closed s)
    (hs : LacksWord w s) (ht : LacksWord w t) : LacksWord w (s ++ c :: t) := by
  have hmem := hw.notMem hc.1
  rintro ⟨a, b, hword, ha, hb⟩
  rcases List.append_eq_append_iff.mp hword with ⟨a', rfl, h⟩ | ⟨s', rfl, h⟩
  · -- The word begins at the character or after it.
    cases a' with
    | nil =>
      obtain ⟨d, ds, rfl, -⟩ := hw.exists_cons
      exact hmem (by simp [(List.cons.inj h).1])
    | cons d a' =>
      obtain ⟨rfl, rfl⟩ := List.cons.inj h
      have hsign : Closed [c] := closed_of_unquoted (by simpa using hc.2)
      have hclosed : Closed a' := hsign.append_iff.mp (hq.append_iff.mp ha.closed)
      refine ht ⟨a', b, rfl, ⟨hclosed, fun e he => ha.stop e ?_⟩, hb⟩
      rw [Option.mem_def] at he ⊢
      simp [List.getLast?_append, List.getLast?_cons, he]
  · rcases List.append_eq_append_iff.mp h with ⟨b', rfl, rfl⟩ | ⟨w', rfl, h'⟩
    · refine hs ⟨a, b', rfl, ha, ?_⟩
      cases b' with
      | nil => simp
      | cons => exact hb
    · -- The word does not end before the first text does.
      cases w' with
      | nil => exact hs ⟨a, [], by simp, ha, by simp⟩
      | cons d w' => exact hmem (by simp [(List.cons.inj h').1])

theorem cons (hw : IsWord w) (hc : isLetter c = false ∧ isQuote c = false) (h : LacksWord w s) :
    LacksWord w (c :: s) := by
  refine join hw hc ready_nil.closed (fun hword => hw.ne_nil ?_) h
  simpa using hword.isInfix

/-- What comes after the text need not close the quotes of the text. -/
theorem concat (hw : IsWord w) (hc : isLetter c = false) (h : LacksWord w s) :
    LacksWord w (s ++ [c]) := by
  rintro ⟨a, b, hword, ha, hb⟩
  rcases List.eq_nil_or_concat b with rfl | ⟨b', d, rfl⟩
  · obtain ⟨w', d, rfl⟩ := (List.eq_nil_or_concat w).resolve_left hw.ne_nil
    have hend : s ++ [c] = (a ++ w') ++ [d] := by simpa using hword
    obtain ⟨-, he⟩ := List.append_inj' hend rfl
    exact hw.notMem hc (by simp [List.cons.inj he])
  · have hend : s ++ [c] = (a ++ (w ++ b')) ++ [d] := by simpa using hword
    obtain ⟨rfl, -⟩ := List.append_inj' hend rfl
    refine h ⟨a, b', rfl, ha, ?_⟩
    cases b' with
    | nil => simp
    | cons => exact hb

theorem trimStart (hw : IsWord w) (h : LacksWord w s) : LacksWord w (trimStart s) := by
  rw [← List.takeWhile_append_dropWhile (p := isBlank) (l := s)] at h
  exact h.of_ready hw (.blanks fun _ => List.mem_takeWhile_imp)

theorem trimEnd (h : LacksWord w s) : LacksWord w (trimEnd s) := by
  have heq : Text.trimEnd s ++ (s.reverse.takeWhile isBlank).reverse = s := by
    rw [Text.trimEnd, ← List.reverse_append, List.takeWhile_append_dropWhile, List.reverse_reverse]
  refine fun hword => h (heq ▸ hword.append_right fun c hc => ?_)
  have hblank : isBlank c :=
    List.mem_takeWhile_imp (List.mem_reverse.mp (List.mem_of_mem_head? hc))
  by_contra hname
  rw [isBlank_eq_false_of_isNameChar (Bool.not_eq_false _ ▸ hname)] at hblank
  cases hblank

theorem trim (hw : IsWord w) (h : LacksWord w s) : LacksWord w (trim s) :=
  (h.trimStart hw).trimEnd

end LacksWord

/-! ### Texts that are put together -/

/-- The text closes its quotes, and the word does not stand in it as a name of its own. -/
structure ClearOf (w s : List Char) : Prop where
  closed : Closed s
  lacks : LacksWord w s

instance (w s : List Char) : Decidable (ClearOf w s) :=
  decidable_of_iff (Closed s ∧ LacksWord w s)
    ⟨fun h => ⟨h.1, h.2⟩, fun h => ⟨h.closed, h.lacks⟩⟩

namespace ClearOf

theorem of_absent (h : Closed s ∧ ¬ w <:+: s) : ClearOf w s :=
  ⟨h.1, fun hword => h.2 hword.isInfix⟩

variable (hw : IsWord w)

include hw

theorem of_forall (h : ∀ c ∈ s, isLetter c = false ∧ isQuote c = false) : ClearOf w s := by
  refine .of_absent ⟨closed_of_unquoted fun c hc => (h c hc).2, fun hi => ?_⟩
  obtain ⟨d, ds, rfl, -⟩ := hw.exists_cons
  exact hw.notMem (h d (hi.subset List.mem_cons_self)).1 List.mem_cons_self

theorem nil : ClearOf w [] :=
  .of_forall hw (by simp)

theorem join (hc : isLetter c = false ∧ isQuote c = false) (hs : ClearOf w s) (ht : ClearOf w t) :
    ClearOf w (s ++ c :: t) := by
  have hquote : Closed [c] := closed_of_unquoted (by simpa using hc.2)
  exact ⟨hs.closed.append (hquote.append ht.closed), .join hw hc hs.closed hs.lacks ht.lacks⟩

theorem cons (hc : isLetter c = false ∧ isQuote c = false) (h : ClearOf w s) :
    ClearOf w (c :: s) :=
  .join hw hc (.nil hw) h

theorem concat (hc : isLetter c = false ∧ isQuote c = false) (h : ClearOf w s) :
    ClearOf w (s ++ [c]) :=
  .join hw hc h (.nil hw)

/-- A text between spaces. -/
theorem pad (h : ClearOf w s) : ClearOf w (' ' :: s ++ [' ']) :=
  .concat hw (by decide) (.cons hw (by decide) h)

/-- Texts with a sign between them. -/
theorem join_sign {sign : List Char} (hs : ClearOf w s) (hsign : ClearOf w sign)
    (ht : ClearOf w t) : ClearOf w (s ++ (' ' :: sign ++ [' ']) ++ t) := by
  have hspace : isLetter ' ' = false ∧ isQuote ' ' = false := by decide
  simpa using join hw hspace hs (join hw hspace hsign ht)

end ClearOf

end Stencil.Text

import Stencil.Proofs.Text.Character
import Stencil.Source

/-!
# Scanning a text up to its seam

A reader that runs over a text stops where the text ends and something else begins. The statements
here say so for the scans that readers are made of: a run of characters of one kind, the blanks at
the ends of a text, and the search for the first place of a kind. In each, `s` is what is scanned
and `rest` is what comes after the seam.
-/

namespace Stencil

namespace Text

variable {b c : Char} {s cs rest pattern : List Char} {p : Char → Bool}

/-! ### Runs of characters -/

theorem takeWhile_append_stop (hs : ∀ c ∈ s, p c) (hr : ∀ c ∈ rest.head?, p c = false) :
    (s ++ rest).takeWhile p = s := by
  rw [List.takeWhile_append_of_pos hs]
  cases rest with
  | nil => simp
  | cons c cs => simp [hr c rfl]

theorem dropWhile_append_stop (hs : ∀ c ∈ s, p c) (hr : ∀ c ∈ rest.head?, p c = false) :
    (s ++ rest).dropWhile p = rest := by
  rw [List.dropWhile_append_of_pos hs]
  cases rest with
  | nil => simp
  | cons c cs => simp [hr c rfl]

/-! ### Trimming -/

/-- A run ends before a character that is not of its kind. -/
theorem takeWhile_append_cons (hb : p b = false) (s z : List Char) :
    (s ++ b :: z).takeWhile p = s.takeWhile p := by
  induction s with
  | nil => simp [hb]
  | cons c cs ih =>
    rw [List.cons_append, List.takeWhile_cons, List.takeWhile_cons, ih]

theorem dropWhile_append_cons (hb : p b = false) (s z : List Char) :
    (s ++ b :: z).dropWhile p = s.dropWhile p ++ b :: z := by
  induction s with
  | nil => simp [hb]
  | cons c cs ih =>
    rw [List.cons_append, List.dropWhile_cons, List.dropWhile_cons, ih]
    split <;> rfl

theorem takeWhile_append_head (hr : ∀ c ∈ rest.head?, p c = false) (s : List Char) :
    (s ++ rest).takeWhile p = s.takeWhile p := by
  cases rest with
  | nil => rw [List.append_nil]
  | cons b z => exact takeWhile_append_cons (hr b rfl) s z

theorem dropWhile_append_head (hr : ∀ c ∈ rest.head?, p c = false) (s : List Char) :
    (s ++ rest).dropWhile p = s.dropWhile p ++ rest := by
  cases rest with
  | nil => rw [List.append_nil, List.append_nil]
  | cons b z => exact dropWhile_append_cons (hr b rfl) s z

theorem trimStart_eq_self (h : ∀ c ∈ cs.head?, isBlank c = false) : trimStart cs = cs :=
  dropWhile_append_stop (s := []) (by simp) h

theorem trimStart_cons_blank (hc : isBlank c) (cs : List Char) :
    trimStart (c :: cs) = trimStart cs := by
  simp [trimStart, hc]

theorem trimEnd_eq_self (h : ∀ c ∈ cs.getLast?, isBlank c = false) : trimEnd cs = cs := by
  have hr : cs.reverse.dropWhile isBlank = cs.reverse :=
    trimStart_eq_self fun c hc => h c (by simpa using hc)
  rw [trimEnd, hr, List.reverse_reverse]

theorem trimEnd_concat_blank (hc : isBlank c) (cs : List Char) :
    trimEnd (cs ++ [c]) = trimEnd cs := by
  simp [trimEnd, hc]

theorem head?_trimStart (h : c ∈ (trimStart cs).head?) : isBlank c = false := by
  have := List.head?_dropWhile_not isBlank cs
  rw [trimStart] at h
  rw [h] at this
  simpa using this

theorem getLast?_trimEnd (h : c ∈ (trimEnd cs).getLast?) : isBlank c = false := by
  rw [trimEnd, List.getLast?_reverse] at h
  exact head?_trimStart h

/-- A text is trimmed exactly if no blank stands at either end. -/
theorem trim_eq_self_iff :
    trim cs = cs ↔ (∀ c ∈ cs.head?, isBlank c = false)
      ∧ ∀ c ∈ cs.getLast?, isBlank c = false := by
  constructor
  · intro h
    have hlast : ∀ c ∈ cs.getLast?, isBlank c = false := fun c hc =>
      getLast?_trimEnd (by rwa [← h, trim] at hc)
    refine ⟨?_, hlast⟩
    have hlen : (trimStart cs).length = cs.length := by
      have h₁ := length_trimStart_le cs
      have h₂ : (trimEnd (trimStart cs)).length ≤ (trimStart cs).length := by
        simpa [trimEnd, trimStart] using length_trimStart_le (trimStart cs).reverse
      rw [← trim, h] at h₂
      omega
    have hself : trimStart cs = cs := by
      have := takeWhile_append_trimStart cs
      have hnil : cs.takeWhile isBlank = [] := by
        have hl := congrArg List.length this
        rw [List.length_append, hlen] at hl
        exact List.eq_nil_of_length_eq_zero (by omega)
      rwa [hnil, List.nil_append] at this
    intro c hc
    exact head?_trimStart (by rwa [hself])
  · rintro ⟨h₁, h₂⟩
    rw [trim, trimStart_eq_self h₁, trimEnd_eq_self h₂]

theorem prefix_of_trimEnd (cs : List Char) : trimEnd cs <+: cs := by
  rw [trimEnd, ← List.reverse_suffix, List.reverse_reverse]
  exact List.dropWhile_suffix _

theorem isInfix_trim (cs : List Char) : trim cs <:+: cs :=
  (prefix_of_trimEnd (trimStart cs)).isInfix.trans (List.dropWhile_suffix _).isInfix

@[simp] theorem trim_trim (cs : List Char) : trim (trim cs) = trim cs := by
  refine trim_eq_self_iff.mpr ⟨fun c hc => ?_, fun c hc => getLast?_trimEnd hc⟩
  obtain ⟨t, ht⟩ := prefix_of_trimEnd (trimStart cs)
  rw [← trim] at ht
  have hhead : c ∈ (trimStart cs).head? := by
    rw [← ht, List.head?_append, hc]
    rfl
  exact head?_trimStart hhead

theorem trim_cons_space (cs : List Char) : trim (' ' :: cs) = trim cs := by
  rw [trim, trimStart_cons_blank (by decide), trim]

theorem trim_concat_space (cs : List Char) : trim (cs ++ [' ']) = trim cs := by
  rw [trim, trimStart, List.dropWhile_append]
  split
  · next h =>
    rw [trim, trimStart, List.isEmpty_iff.mp h]
    decide
  · exact trimEnd_concat_blank (by decide) _

/-- Trimming takes one space off either end. -/
theorem trim_pad (cs : List Char) : trim (' ' :: cs ++ [' ']) = trim cs := by
  rw [trim_concat_space, trim_cons_space]

/-- A text without blanks has at most one word. -/
theorem words_of_solid (h : ∀ c ∈ cs, isBlank c = false) : (words cs).drop 1 = [] := by
  suffices ∀ word, (wordsFrom word cs).drop 1 = [] from this []
  induction cs with
  | nil =>
    intro word
    rw [wordsFrom]
    split <;> rfl
  | cons c cs ih =>
    intro word
    rw [wordsFrom, if_neg (by simp [h c List.mem_cons_self])]
    exact ih (fun d hd => h d (List.mem_cons_of_mem c hd)) _

/-! ### Texts that are put together -/

/-- Two characters stand next to each other in a text that is put together. -/
theorem pair_infix_append_iff {a : Char} {t : List Char} :
    [a, b] <:+: s ++ t ↔ [a, b]
      <:+: s ∨ [a, b] <:+: t ∨ s.getLast? = some a ∧ t.head? = some b := by
  induction s with
  | nil => simp
  | cons c s ih =>
    rw [List.cons_append, List.infix_cons_iff, List.infix_cons_iff, ih]
    cases s with
    | nil =>
      rcases t with _ | ⟨d, t⟩
      · simp
      · simp only [List.nil_append, List.cons_prefix_cons, List.nil_prefix, and_true]
        rw [or_comm, eq_comm (a := a), eq_comm (a := b)]
        simp
    | cons d s => simp [List.cons_prefix_cons, or_assoc]

/-- A text in which two characters do not stand next to each other, not even the first one at the
end of it. -/
def Lacks (a b : Char) (s : List Char) : Prop :=
  ¬ [a, b] <:+: s ∧ s.getLast? ≠ some a

instance (a b : Char) (s : List Char) : Decidable (Lacks a b s) :=
  inferInstanceAs (Decidable (_ ∧ _))

namespace Lacks

variable {a b c : Char} {s t : List Char}

theorem nil : Lacks a b [] :=
  ⟨by simp, by simp⟩

theorem append (hs : Lacks a b s) (ht : Lacks a b t) : Lacks a b (s ++ t) := by
  refine ⟨fun h => ?_, fun h => ?_⟩
  · rcases pair_infix_append_iff.mp h with h | h | ⟨h, -⟩
    · exact hs.1 h
    · exact ht.1 h
    · exact hs.2 h
  · rw [List.getLast?_append, Option.or_eq_some_iff] at h
    rcases h with h | ⟨-, h⟩
    · exact ht.2 h
    · exact hs.2 h

theorem of_notMem (h : a ∉ s) : Lacks a b s := by
  refine ⟨fun hi => h (hi.subset (by simp)), fun hl => h ?_⟩
  exact List.mem_of_getLast? hl

theorem cons (hc : c ≠ a) (hs : Lacks a b s) : Lacks a b (c :: s) :=
  append (s := [c]) (of_notMem (by simpa using Ne.symm hc)) hs

theorem tail (h : Lacks a b (c :: s)) : Lacks a b s := by
  refine ⟨fun hi => h.1 (hi.trans (List.suffix_cons c s).isInfix), fun hl => h.2 ?_⟩
  rw [List.getLast?_cons, hl, Option.getD_some]

theorem of_append (h : Lacks a b (s ++ t)) : Lacks a b t := by
  induction s with
  | nil => exact h
  | cons c s ih => exact ih h.tail

/-- After the first of the two characters comes something other than the second one. -/
theorem exists_cons (h : Lacks a b (a :: s)) : ∃ d t, s = d :: t ∧ d ≠ b := by
  cases s with
  | nil => exact absurd rfl h.2
  | cons d t =>
    refine ⟨d, t, rfl, ?_⟩
    rintro rfl
    exact h.1 ⟨[], t, rfl⟩

end Lacks

/-- Texts with separators between them: the first one, and each other one after a separator. -/
theorem intercalate_cons (sep s : List Char) (ss : List (List Char)) :
    sep.intercalate (s :: ss) = s ++ ss.flatMap (sep ++ ·) := by
  induction ss generalizing s with
  | nil => simp
  | cons t ss ih => rw [List.intercalate_cons_cons, ih, List.flatMap_cons, List.append_assoc]; simp

/-! ### Runs at the end of a text -/

/-- A text that ends in an even number of copies of a character. -/
def EndsPaired (c : Char) (s : List Char) : Prop :=
  (s.reverse.takeWhile (· == c)).length % 2 = 0

instance (c : Char) (s : List Char) : Decidable (EndsPaired c s) :=
  inferInstanceAs (Decidable (_ = _))

namespace EndsPaired

variable {c d : Char} {s : List Char}

/-- The run at the end does not reach beyond another character. -/
theorem append_cons_iff (h : d ≠ c) (t : List Char) :
    EndsPaired c (t ++ d :: s) ↔ EndsPaired c s := by
  have hsplit : (t ++ d :: s).reverse = s.reverse ++ d :: t.reverse := by simp
  rw [EndsPaired, EndsPaired, hsplit, List.takeWhile_append]
  split
  · next hall =>
    rw [hall]
    simp [h]
  · rfl

theorem pair_iff : EndsPaired c (c :: c :: s) ↔ EndsPaired c s := by
  have hsplit : (c :: c :: s).reverse = s.reverse ++ [c, c] := by simp
  rw [EndsPaired, EndsPaired, hsplit, List.takeWhile_append]
  split
  · next hall =>
    rw [hall]
    simp
  · rfl

theorem not_singleton : ¬ EndsPaired c [c] := by
  simp [EndsPaired]

theorem of_getLast?_ne (h : s.getLast? ≠ some c) : EndsPaired c s := by
  rw [← List.head?_reverse] at h
  rw [EndsPaired]
  cases hs : s.reverse with
  | nil => rfl
  | cons d t =>
    rw [hs] at h
    have hd : d ≠ c := by simpa using h
    simp [hd]

end EndsPaired

/-! ### Searching -/

/-- A search passes over a text in which no place is of the kind searched for, and ends at the
seam. -/
theorem splitBefore_append_stop {stop : List Char → Bool}
    (hs : ∀ a b, s = a ++ b → b ≠ [] → stop (b ++ rest) = false) (hr : rest = [] ∨ stop rest) :
    splitBefore stop (s ++ rest) = (s, rest) := by
  induction s with
  | nil =>
    cases rest with
    | nil => rfl
    | cons c cs =>
      have hstop : stop (c :: cs) := hr.resolve_left (by simp)
      simp [splitBefore, hstop]
  | cons c cs ih =>
    have hc : stop (c :: (cs ++ rest)) = false := hs [] (c :: cs) rfl (by simp)
    have hcs := ih fun a b hab hb => hs (c :: a) b (by rw [hab, List.cons_append]) hb
    simp [splitBefore, hc, hcs]

/-- What stands before the first place of a kind holds no place of that kind. -/
theorem stop_splitBefore {stop : List Char → Bool} {t : List Char}
    (h : (splitBefore stop cs).1 = s ++ t) (ht : t ≠ []) :
    stop (t ++ (splitBefore stop cs).2) = false := by
  induction cs generalizing s with
  | nil => exact absurd (List.append_eq_nil_iff.mp h.symm).2 ht
  | cons c cs ih =>
    by_cases hc : stop (c :: cs)
    · rw [splitBefore, if_pos hc] at h
      exact absurd (List.append_eq_nil_iff.mp h.symm).2 ht
    · rw [splitBefore, if_neg hc] at h ⊢
      cases s with
      | nil =>
        obtain rfl : c :: (splitBefore stop cs).1 = t := h
        simpa [splitBefore_append] using hc
      | cons d s => exact ih (List.cons.inj h).2

/-- A text without a pair of characters in it is cut off at the pair that follows it. -/
theorem cut?_pair {a : Char} (hab : a ≠ b) (h : ¬ [a, b] <:+: s) (rest : List Char) :
    cut? [a, b] (s ++ a :: b :: rest) = some (s, rest) := by
  induction s with
  | nil => simp [cut?, strip?]
  | cons c s ih =>
    have hs : ¬ [a, b] <:+: s := fun hi => h (hi.trans (List.suffix_cons c s).isInfix)
    have hc : strip? [a, b] (c :: (s ++ a :: b :: rest)) = none := by
      by_cases hac : a = c
      · subst hac
        cases s with
        | nil => simp [strip?, Ne.symm hab]
        | cons d s =>
          have hd : b ≠ d := by
            rintro rfl
            exact h ⟨[], s, rfl⟩
          simp [strip?, hd]
      · simp [strip?, hac]
    rw [List.cons_append, cut?, hc, ih hs]
    rfl

/-- A text is cut at the first occurrence of a pattern that cannot begin before it. -/
theorem cut?_append {p : Char} (hs : p ∉ s) (ps rest : List Char) :
    cut? (p :: ps) (s ++ (p :: ps) ++ rest) = some (s, rest) := by
  induction s with
  | nil =>
    have h : strip? (p :: ps) (p :: (ps ++ rest)) = some rest := strip?_append (p :: ps) rest
    rw [List.nil_append, List.cons_append, cut?, h]
  | cons c s ih =>
    obtain ⟨hc, hs⟩ := not_or.mp (mt List.mem_cons.mpr hs)
    rw [List.cons_append, List.cons_append, cut?, strip?, if_neg hc, ih hs]
    rfl

/-- A text is cut no later than at an occurrence of the pattern. -/
theorem prefix_of_cut? {t before : List Char}
    (h : cut? pattern (s ++ (pattern ++ t)) = some (before, rest)) : before <+: s := by
  induction s generalizing before rest with
  | nil =>
    have hnil : ∀ u, strip? pattern u = some t → cut? pattern u = some (before, rest) →
        before = [] := by
      intro u hu hcut
      cases u with
      | nil =>
        rw [cut?] at hcut
        split at hcut <;> cases hcut
        rfl
      | cons c cs =>
        rw [cut?, hu] at hcut
        cases hcut
        rfl
    exact hnil _ (strip?_append pattern t) h ▸ List.nil_prefix
  | cons c s ih =>
    rw [List.cons_append, cut?] at h
    split at h
    · cases h
      exact List.nil_prefix
    · obtain ⟨⟨b, r⟩, hcut, he⟩ := Option.map_eq_some_iff.mp h
      cases he
      exact List.cons_prefix_cons.mpr ⟨rfl, ih hcut⟩

theorem startsWith_iff : startsWith pattern s ↔ pattern <+: s := by
  rw [startsWith, Option.isSome_iff_exists]
  exact exists_congr fun rest => strip?_eq_some_iff.trans eq_comm

/-- Where no occurrence of a pattern begins in the text `s`, it is left as it stands. -/
theorem replaceAll_append (replacement rest : List Char)
    (h : ∀ a b, s = a ++ b → b ≠ [] → ¬ pattern <+: b ++ rest) :
    replaceAll pattern replacement (s ++ rest) = s ++ replaceAll pattern replacement rest := by
  rw [replaceAll, replaceAll]
  induction s with
  | nil => rfl
  | cons c s ih =>
    have hstart : ¬ startsWith pattern (c :: (s ++ rest)) := fun hs =>
      h [] (c :: s) rfl (by simp) (startsWith_iff.mp hs)
    have htail := ih fun a b hab hb => h (c :: a) b (by rw [hab, List.cons_append]) hb
    rw [List.cons_append, replaceFrom, if_neg hstart, htail, List.cons_append]

/-- A text without an occurrence of a pattern is left as it stands. -/
theorem replaceAll_eq_self (h : ¬ pattern <:+: s) (replacement : List Char) :
    replaceAll pattern replacement s = s := by
  have hs := replaceAll_append (s := s) replacement [] fun a b hab _ hb => h <| by
    rw [List.append_nil] at hb
    exact hb.isInfix.trans (hab ▸ (List.suffix_append a b).isInfix)
  rwa [List.append_nil, replaceAll, replaceAll, replaceFrom, List.append_nil] at hs

theorem replaceFrom_skip (pattern replacement s rest : List Char) :
    replaceFrom pattern replacement s.length (s ++ rest) =
      replaceFrom pattern replacement 0 rest := by
  induction s with
  | nil => rfl
  | cons c s ih => rw [List.length_cons, List.cons_append, replaceFrom, ih]

/-- An occurrence of a pattern at the start of a text is replaced. -/
theorem replaceAll_pattern (h : pattern ≠ []) (replacement rest : List Char) :
    replaceAll pattern replacement (pattern ++ rest) =
      replacement ++ replaceAll pattern replacement rest := by
  obtain ⟨c, s, rfl⟩ := List.exists_cons_of_ne_nil h
  have hstart : startsWith (c :: s) (c :: (s ++ rest)) := startsWith_iff.mpr ⟨rest, rfl⟩
  rw [replaceAll, replaceAll, List.cons_append, replaceFrom, if_pos hstart, List.length_cons,
    Nat.add_sub_cancel, replaceFrom_skip]

/-- A character that is no blank, and what comes after it, stay where they are. -/
theorem trimStart_append_cons (hb : isBlank b = false) (s z : List Char) :
    trimStart (s ++ b :: z) = trimStart s ++ b :: z :=
  dropWhile_append_cons hb s z

/-- A character that a pattern does not hold, and what comes after it, stay behind the pattern. -/
theorem strip?_append_cons (hp : b ∉ pattern) (s z : List Char) :
    strip? pattern (s ++ b :: z) = (strip? pattern s).map (· ++ b :: z) := by
  induction pattern generalizing s with
  | nil => rfl
  | cons p ps ih =>
    obtain ⟨hne, hp⟩ := not_or.mp (mt List.mem_cons.mpr hp)
    cases s with
    | nil => simp [strip?, Ne.symm hne]
    | cons c cs =>
      rw [List.cons_append, strip?, strip?]
      split
      · exact ih hp cs
      · rfl

theorem strip?_eq_none_of_ne {p : Char} (h : p ≠ c) (ps cs : List Char) :
    strip? (p :: ps) (c :: cs) = none := by
  simp [strip?, h]

end Text

/-! ### Pieces -/

namespace Piece

@[simp] theorem drop_length_append (start : Nat) (s rest : List Char) :
    drop ⟨start, s ++ rest⟩ s.length = ⟨start + Text.byteLength s, rest⟩ := by
  simp [drop]

@[simp] theorem take_length_append (start : Nat) (s rest : List Char) :
    take ⟨start, s ++ rest⟩ s.length = ⟨start, s⟩ := by
  simp [take]

theorem trimStart_eq_self {start : Nat} (h : ∀ c ∈ cs.head?, Text.isBlank c = false) :
    trimStart ⟨start, cs⟩ = ⟨start, cs⟩ := by
  have h₁ : cs.takeWhile Text.isBlank = [] := Text.takeWhile_append_stop (s := []) (by simp) h
  have h₂ : cs.dropWhile Text.isBlank = cs := Text.trimStart_eq_self h
  simp [trimStart, dropWhile, h₁, h₂, Text.byteLength]

theorem trimStart_cons_blank {start : Nat} (hc : Text.isBlank c) (cs : List Char) :
    trimStart ⟨start, c :: cs⟩ = trimStart ⟨start + c.utf8Size, cs⟩ := by
  simp [trimStart, dropWhile, hc, Text.byteLength, Nat.add_assoc]

theorem trimStart_blanks (hs : ∀ c ∈ s, Text.isBlank c) (start : Nat) (rest : List Char) :
    trimStart ⟨start, s ++ rest⟩ = trimStart ⟨start + Text.byteLength s, rest⟩ := by
  induction s generalizing start with
  | nil => rfl
  | cons c cs ih =>
    rw [List.forall_mem_cons] at hs
    rw [List.cons_append, trimStart_cons_blank hs.1, ih hs.2, Text.byteLength, Nat.add_assoc]

@[simp] theorem trimStart_space (start : Nat) (cs : List Char) :
    trimStart ⟨start, ' ' :: cs⟩ = trimStart ⟨start + 1, cs⟩ :=
  trimStart_cons_blank (by decide) cs

theorem text_trimStart (p : Piece) : p.trimStart.text = Text.trimStart p.text :=
  rfl

/-- The blanks before a piece are removed once and for all. -/
theorem trimStart_trimStart (p : Piece) : p.trimStart.trimStart = p.trimStart :=
  trimStart_eq_self fun _ hc => Text.head?_trimStart hc

end Piece

end Stencil

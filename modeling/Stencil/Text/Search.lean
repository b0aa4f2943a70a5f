/-!
# Searching a text

Texts are lists of characters. A pattern is looked for from left to right, and an occurrence is
reported by what stands before it and what comes after it.
-/

namespace Stencil.Text

/-- The text after a leading `pattern`, if the text begins with it. -/
def strip? : (pattern text : List Char) → Option (List Char)
  | [], cs => some cs
  | p :: ps, c :: cs => if p = c then strip? ps cs else none
  | _ :: _, [] => none

/-- The text begins with `pattern`. -/
def startsWith (pattern text : List Char) : Bool :=
  (strip? pattern text).isSome

/-- The text before and after the first occurrence of `pattern`. -/
def cut? (pattern : List Char) : List Char → Option (List Char × List Char)
  | [] => if pattern.isEmpty then some ([], []) else none
  | c :: cs =>
    match strip? pattern (c :: cs) with
    | some rest => some ([], rest)
    | none => (cut? pattern cs).map fun (before, rest) => (c :: before, rest)

/-- The text before the first place where what is left satisfies `stop`, and what is left there. -/
def splitBefore (stop : List Char → Bool) : List Char → List Char × List Char
  | [] => ([], [])
  | c :: cs =>
    if stop (c :: cs) then ([], c :: cs)
    else
      let (before, rest) := splitBefore stop cs
      (c :: before, rest)

/-- Replacement that first passes over `skip` characters of an occurrence already replaced. -/
def replaceFrom (pattern replacement : List Char) : Nat → List Char → List Char
  | _, [] => []
  | skip + 1, _ :: cs => replaceFrom pattern replacement skip cs
  | 0, c :: cs =>
    if startsWith pattern (c :: cs) then
      replacement ++ replaceFrom pattern replacement (pattern.length - 1) cs
    else c :: replaceFrom pattern replacement 0 cs

/-- The text with each occurrence of `pattern`, found from left to right, replaced. -/
def replaceAll (pattern replacement text : List Char) : List Char :=
  replaceFrom pattern replacement 0 text

/-! ### The parts and the pattern make up the text -/

theorem strip?_append (pattern rest : List Char) :
    strip? pattern (pattern ++ rest) = some rest := by
  induction pattern with
  | nil => rfl
  | cons p ps ih => simp [strip?, ih]

theorem eq_append_of_strip? : {pattern text rest : List Char} →
    strip? pattern text = some rest → text = pattern ++ rest
  | [], _, _, h => by simpa [strip?] using h
  | p :: ps, c :: cs, rest, h => by
      by_cases hp : p = c
      · simp only [strip?, hp, if_true] at h
        simp [hp, eq_append_of_strip? h]
      · simp [strip?, hp] at h
  | _ :: _, [], _, h => by simp [strip?] at h

theorem strip?_eq_some_iff {pattern text rest : List Char} :
    strip? pattern text = some rest ↔ text = pattern ++ rest :=
  ⟨eq_append_of_strip?, fun h => h ▸ strip?_append pattern rest⟩

theorem splitBefore_append (stop : List Char → Bool) :
    (cs : List Char) → (splitBefore stop cs).1 ++ (splitBefore stop cs).2 = cs
  | [] => rfl
  | c :: cs => by
      by_cases h : stop (c :: cs)
      · simp [splitBefore, h]
      · simp [splitBefore, h, splitBefore_append stop cs]

theorem cut?_eq_some {pattern : List Char} : {text before rest : List Char} →
    cut? pattern text = some (before, rest) → text = before ++ pattern ++ rest
  | [], before, rest, h => by
      cases pattern with
      | nil => simp [cut?] at h; simp [h]
      | cons p ps => simp [cut?] at h
  | c :: cs, before, rest, h => by
      unfold cut? at h
      split at h
      · rename_i r hs
        simp only [Option.some.injEq, Prod.mk.injEq] at h
        obtain ⟨rfl, rfl⟩ := h
        simpa using eq_append_of_strip? hs
      · obtain ⟨⟨b, r⟩, hb, he⟩ := Option.map_eq_some_iff.mp h
        simp only [Prod.mk.injEq] at he
        obtain ⟨rfl, rfl⟩ := he
        simp [cut?_eq_some hb]

end Stencil.Text

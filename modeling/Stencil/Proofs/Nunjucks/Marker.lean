import Mathlib.Data.List.Basic
import Stencil.Markup
import Stencil.Nunjucks.Marker
import Stencil.Proofs.Text.Scan

/-!
# Markers that are found again

Nunjucks trees keep no markers and no raw blocks: both are searched for in the source around an
offset. The searches find what was written. The nearest delimiters around the first word of a tag
are those of the tag itself, because no delimiter stands in between; the markers of a raw block
stand right before and after its body. A text is taken for the body of a raw block exactly if an
opening tag of one stands at most a few bytes before it, and between such a tag and any text there
is at least the closing tag of the block, which is long enough.
-/

namespace Stencil.Nunjucks

/-! ### Places -/

theorem Place.seek_append (a b before : List Char) :
    seek (Text.byteLength a) before (a ++ b) = ⟨a.reverse ++ before, b⟩ := by
  induction a generalizing before with
  | nil =>
    cases b with
    | nil => rfl
    | cons c cs => rfl
  | cons c cs ih =>
    have hsize := c.utf8Size_pos
    obtain ⟨n, hn⟩ : ∃ n, Text.byteLength (c :: cs) = n + 1 :=
      ⟨Text.byteLength (c :: cs) - 1, by simp only [Text.byteLength]; omega⟩
    have hrest : n + 1 - c.utf8Size = Text.byteLength cs := by
      simp only [Text.byteLength] at hn
      omega
    rw [hn, List.cons_append, seek, hrest, ih]
    simp

/-- The place after the first of two texts. -/
theorem Place.at_append (a b : List Char) :
    Place.at (a ++ b) (Text.byteLength a) = ⟨a.reverse, b⟩ := by
  rw [Place.at, seek_append, List.append_nil]

/-! ### Nearest delimiters -/

/-- The first delimiter of a text is marked: a character of the kind `p` and a brace, with a dash
before them. Both searches are of this form, the one for opening delimiters in the reversed text. -/
def isMarkedBefore (brace : Char) (p : Char → Bool) (previous : Option Char) : List Char → Bool
  | [] => false
  | c :: cs =>
    if p c && cs.head? == some brace then previous == some '-'
    else isMarkedBefore brace p (some c) cs

section Nearest

variable {p : Char → Bool} {s : List Char} {c : Char}

theorem isMarkedOpening_eq (previous : Option Char) (cs : List Char) :
    isMarkedOpening p previous cs = isMarkedBefore '{' p previous cs := by
  induction cs generalizing previous with
  | nil => rfl
  | cons c cs ih => rw [isMarkedOpening, isMarkedBefore, ih]

theorem isMarkedClosing_eq (previous : Option Char) (cs : List Char) :
    isMarkedClosing p previous cs = isMarkedBefore '}' p previous cs := by
  induction cs generalizing previous with
  | nil => rfl
  | cons c cs ih => rw [isMarkedClosing, isMarkedBefore, ih]

/-- A search passes over characters that begin no delimiter. -/
theorem isMarkedBefore_append (brace : Char) (hs : ∀ x ∈ s, p x = false) (previous : Option Char)
    (rest : List Char) :
    isMarkedBefore brace p previous (s ++ rest) =
      isMarkedBefore brace p (s.getLast?.or previous) rest := by
  induction s generalizing previous with
  | nil => rfl
  | cons c cs ih =>
    rw [List.cons_append, isMarkedBefore, hs c List.mem_cons_self, Bool.false_and,
      if_neg (by decide), ih fun x hx => hs x (List.mem_cons_of_mem c hx), List.getLast?_cons]
    cases cs.getLast? <;> rfl

/-- A search finds the marker of the first delimiter, which stands after a blank. -/
theorem isMarkedBefore_marker (brace : Char) (hc : p c) (hs : ∀ x ∈ s, p x = false)
    (hspace : p ' ' = false) (hdash : p '-' = false) (isSet : Bool) (previous : Option Char)
    (rest : List Char) :
    isMarkedBefore brace p previous
      (s ++ ' ' :: ((Markup.marker isSet).toList ++ c :: brace :: rest)) = isSet := by
  have hall : ∀ x ∈ s ++ ' ' :: (Markup.marker isSet).toList, p x = false := by
    intro x hx
    rcases List.mem_append.mp hx with hx | hx
    · exact hs x hx
    · cases isSet with
      | false =>
        obtain rfl : x = ' ' := by simpa [Markup.marker] using hx
        exact hspace
      | true =>
        rcases (by simpa [Markup.marker] using hx : x = ' ' ∨ x = '-') with rfl | rfl
        · exact hspace
        · exact hdash
  have hskip := isMarkedBefore_append brace hall previous (c :: brace :: rest)
  rw [List.append_assoc, List.cons_append] at hskip
  rw [hskip, isMarkedBefore, hc]
  cases isSet <;> simp [Markup.marker]

end Nearest

/-- What stands before the first word of a delimiter pair. -/
def opener (o : Char) (isSet : Bool) : List Char :=
  '{' :: o :: ((Markup.marker isSet).toList ++ [' '])

/-- What stands after the last word of a delimiter pair. -/
def closer (c : Char) (isSet : Bool) : List Char :=
  ' ' :: ((Markup.marker isSet).toList ++ [c, '}'])

theorem toList_tag (body : String) (trim : Trim) :
    (Markup.tag body trim).toList =
      opener '%' trim.left ++ (body.toList ++ closer '%' trim.right) := by
  simp [Markup.tag, Markup.delimit, opener, closer]

theorem toList_output (body : String) (trim : Trim) :
    (Markup.output body trim).toList =
      opener '{' trim.left ++ (body.toList ++ closer '}' trim.right) := by
  simp [Markup.output, Markup.delimit, opener, closer]

theorem reverse_marker (isSet : Bool) :
    (Markup.marker isSet).toList.reverse = (Markup.marker isSet).toList := by
  cases isSet <;> rfl

/-- From the first word of a tag or an output, the nearest delimiters are its own. -/
theorem markers_opener {o c : Char} (ho : o = '{' ∨ o = '%') (hc : c = '}' ∨ c = '%')
    {body : List Char} (hbody : ∀ x ∈ body, x ≠ '}' ∧ x ≠ '%') (trim : Trim)
    (pre post : List Char) :
    Place.markers ⟨(pre ++ opener o trim.left).reverse, body ++ (closer c trim.right ++ post)⟩ =
      trim := by
  have hleft : (pre ++ opener o trim.left).reverse =
      [] ++ ' ' :: ((Markup.marker trim.left).toList ++ o :: '{' :: pre.reverse) := by
    simp [opener, reverse_marker]
  have hright : closer c trim.right ++ post =
      ' ' :: ((Markup.marker trim.right).toList ++ c :: '}' :: post) := by
    simp [closer]
  rw [Place.markers, hleft, hright, isMarkedOpening_eq, isMarkedClosing_eq, isMarkedBefore_marker,
    isMarkedBefore_marker]
  · rcases hc with rfl | rfl <;> rfl
  · intro x hx
    have := hbody x hx
    simp [this]
  · rfl
  · rfl
  · rcases ho with rfl | rfl <;> rfl
  · simp
  · rfl
  · rfl

/-- The markers of a tag that ends at a place. -/
theorem markersBefore_tag {body : String} (hbody : '%' ∉ body.toList) (trim : Trim)
    (pre post : List Char) :
    Place.markersBefore ⟨(pre ++ (Markup.tag body trim).toList).reverse, post⟩ = trim := by
  have hplace : (pre ++ (Markup.tag body trim).toList).reverse = '}' :: '%' ::
      ((Markup.marker trim.right).toList ++ ' ' :: body.toList.reverse ++
        ' ' :: ((Markup.marker trim.left).toList ++ '%' :: '{' :: pre.reverse)) := by
    simp [toList_tag, opener, closer, reverse_marker]
  rw [hplace, Place.markersBefore]
  simp only
  rw [isMarkedOpening_eq, isMarkedBefore_marker]
  · obtain ⟨left, right⟩ := trim
    cases right <;> simp [Markup.marker]
  · rfl
  · intro x hx
    rw [beq_eq_false_iff_ne]
    rintro rfl
    cases hr : trim.right <;> simp [hr, Markup.marker, hbody] at hx
  · rfl
  · rfl

/-- The markers of a tag that begins at a place. -/
theorem markersAfter_tag {body : String} (hbody : '%' ∉ body.toList) (trim : Trim)
    (before post : List Char) :
    Place.markersAfter ⟨before, (Markup.tag body trim).toList ++ post⟩ = trim := by
  have hplace : (Markup.tag body trim).toList ++ post = '{' :: '%' ::
      ((Markup.marker trim.left).toList ++ ' ' :: body.toList ++
        ' ' :: ((Markup.marker trim.right).toList ++ '%' :: '}' :: post)) := by
    simp [toList_tag, opener, closer]
  rw [hplace, Place.markersAfter]
  simp only
  rw [isMarkedClosing_eq, isMarkedBefore_marker]
  · obtain ⟨left, right⟩ := trim
    cases left <;> simp [Markup.marker]
  · rfl
  · intro x hx
    rw [beq_eq_false_iff_ne]
    rintro rfl
    cases hr : trim.left <;> simp [hr, Markup.marker, hbody] at hx
  · rfl
  · rfl

/-! ### Opening tags of raw blocks -/

/-- The text without a leading marker. -/
def unmarked (cs : List Char) : List Char :=
  if cs.head? == some '-' then cs.tail else cs

/-- What stands after the name of a raw block, given what stands after an opening delimiter. -/
def afterRawName? (cs : List Char) : Option (List Char) :=
  let body := Text.trimStart (unmarked cs)
  ((Text.strip? "raw".toList body).or (Text.strip? "verbatim".toList body)).map fun rest =>
    unmarked (Text.trimStart rest)

theorem opensRaw_cons (cs : List Char) :
    opensRaw ('{' :: '%' :: cs) = (afterRawName? cs).any (Text.startsWith "%\x7d".toList) := by
  rw [opensRaw, afterRawName?]
  simp only [unmarked]
  generalize Option.or _ _ = name
  cases name <;> rfl

theorem prefix_of_opensRaw {s : List Char} (h : opensRaw s) : ∃ cs, s = '{' :: '%' :: cs := by
  unfold opensRaw at h
  split at h
  · exact ⟨_, rfl⟩
  · cases h

section Brace

variable {b : Char} (hb : b = '{' ∨ b = '}')

include hb

theorem unmarked_append (s z : List Char) : unmarked (s ++ b :: z) = unmarked s ++ b :: z := by
  cases s with
  | nil => rcases hb with rfl | rfl <;> rfl
  | cons c cs =>
    by_cases hc : c = '-'
    · simp [unmarked, hc]
    · simp [unmarked, hc]

/-- A brace and what comes after it stay behind the name of a raw block. -/
theorem afterRawName?_append (s z : List Char) :
    afterRawName? (s ++ b :: z) = (afterRawName? s).map (· ++ b :: z) := by
  have h₁ : b ∉ "raw".toList := by rcases hb with rfl | rfl <;> decide
  have h₂ : b ∉ "verbatim".toList := by rcases hb with rfl | rfl <;> decide
  rw [afterRawName?, afterRawName?]
  have hblank : Text.isBlank b = false := by rcases hb with rfl | rfl <;> decide
  simp only [unmarked_append hb, Text.trimStart_append_cons hblank, Text.strip?_append_cons h₁,
    Text.strip?_append_cons h₂,
    ← Option.map_or, Option.map_map]
  congr 1
  funext rest
  simp only [Function.comp, Text.trimStart_append_cons hblank, unmarked_append hb]

end Brace

theorem startsWith_close_append_open (w z : List Char) :
    Text.startsWith ['%', '}'] (w ++ '{' :: z) = Text.startsWith ['%', '}'] w := by
  rw [Text.startsWith, Text.strip?_append_cons (by decide), Option.isSome_map, Text.startsWith]

theorem startsWith_close_append_close (w z : List Char) :
    Text.startsWith ['%', '}'] (w ++ '}' :: z) = Text.startsWith ['%', '}'] (w ++ ['}']) := by
  rcases w with _ | ⟨c, _ | ⟨d, ds⟩⟩
  · rfl
  · simp only [Text.startsWith, List.cons_append, Text.strip?, List.nil_append]
    split <;> rfl
  · simp only [Text.startsWith, List.cons_append, Text.strip?]
    split
    · split <;> rfl
    · rfl

/-- An opening tag of a raw block that begins before an opening brace ends before it. -/
theorem opensRaw_append_open {s : List Char} (hs : s ≠ []) (z : List Char) :
    opensRaw (s ++ '{' :: z) = opensRaw s := by
  obtain ⟨c, cs, rfl⟩ := List.exists_cons_of_ne_nil hs
  rcases cs with _ | ⟨d, ds⟩
  · unfold opensRaw
    split <;> simp_all
  · by_cases h : c = '{' ∧ d = '%'
    · obtain ⟨rfl, rfl⟩ := h
      rw [List.cons_append, List.cons_append, opensRaw_cons, opensRaw_cons,
        afterRawName?_append (.inl rfl)]
      cases afterRawName? ds with
      | none => rfl
      | some w => exact startsWith_close_append_open w z
    · unfold opensRaw
      split <;> simp_all

/-- An opening tag of a raw block that begins before a closing brace ends with it or before it. -/
theorem opensRaw_append_close (s z : List Char) :
    opensRaw (s ++ '}' :: z) = opensRaw (s ++ ['}']) := by
  rcases s with _ | ⟨c, _ | ⟨d, ds⟩⟩
  · rfl
  · unfold opensRaw
    split <;> simp_all
  · by_cases h : c = '{' ∧ d = '%'
    · obtain ⟨rfl, rfl⟩ := h
      simp only [List.cons_append]
      rw [opensRaw_cons, opensRaw_cons, afterRawName?_append (.inr rfl),
        afterRawName?_append (.inr rfl)]
      cases afterRawName? ds with
      | none => rfl
      | some w => exact startsWith_close_append_close w z
    · unfold opensRaw
      split <;> simp_all

theorem length_afterRawName? {cs rest : List Char} (h : afterRawName? cs = some rest) :
    rest.length + 3 ≤ cs.length := by
  have hunmarked : ∀ s : List Char, (unmarked s).length ≤ s.length := by
    intro s
    unfold unmarked
    split <;> simp
  have htrim : ∀ s : List Char, (Text.trimStart s).length ≤ s.length :=
    fun s => (List.dropWhile_suffix _).length_le
  obtain ⟨r, hr, rfl⟩ := Option.map_eq_some_iff.mp h
  have hbody : r.length + 3 ≤ (Text.trimStart (unmarked cs)).length := by
    rcases Option.or_eq_some_iff.mp hr with hr | ⟨-, hr⟩
    all_goals
      rw [Text.eq_append_of_strip? hr, List.length_append]
    · have : "raw".toList.length = 3 := by decide
      omega
    · have : "verbatim".toList.length = 8 := by decide
      omega
  have h₁ := hunmarked (Text.trimStart r)
  have h₂ := htrim r
  have h₃ := htrim (unmarked cs)
  have h₄ := hunmarked cs
  omega

theorem length_le_byteLength (s : List Char) : s.length ≤ Text.byteLength s := by
  induction s with
  | nil => exact Nat.zero_le _
  | cons c cs ih =>
    have hsize := c.utf8Size_pos
    rw [List.length_cons, Text.byteLength]
    omega

/-- The shortest opening tag of a raw block has neither blanks nor markers. -/
theorem seven_le_byteLength_of_opensRaw {s : List Char} (h : opensRaw s) :
    7 ≤ Text.byteLength s := by
  obtain ⟨cs, rfl⟩ := prefix_of_opensRaw h
  rw [opensRaw_cons] at h
  cases hn : afterRawName? cs with
  | none =>
    rw [hn] at h
    cases h
  | some rest =>
    rw [hn, Option.any_some, Text.startsWith, Option.isSome_iff_exists] at h
    obtain ⟨r, hr⟩ := h
    have hclose : "%\x7d".toList.length = 2 := by decide
    have hrest := congrArg List.length (Text.eq_append_of_strip? hr)
    have hname := length_afterRawName? hn
    have hbytes := length_le_byteLength ('{' :: '%' :: cs)
    rw [List.length_append, hclose] at hrest
    rw [List.length_cons, List.length_cons] at hbytes
    omega

/-- An opening tag of a raw block stands somewhere in a text if it stands at the start of a rest of
it. -/
theorem holdsRaw_iff {s : List Char} : holdsRaw s ↔ ∃ a b, s = a ++ b ∧ opensRaw b := by
  induction s with
  | nil =>
    refine ⟨fun h => absurd h (by decide), ?_⟩
    rintro ⟨a, b, h, ho⟩
    obtain ⟨rfl, rfl⟩ := List.append_eq_nil_iff.mp h.symm
    exact absurd ho (by decide)
  | cons c cs ih =>
    rw [holdsRaw, Bool.or_eq_true, ih]
    constructor
    · rintro (h | ⟨a, b, rfl, h⟩)
      · exact ⟨[], c :: cs, rfl, h⟩
      · exact ⟨c :: a, b, rfl, h⟩
    · rintro ⟨a, b, h, ho⟩
      rcases a with _ | ⟨d, a⟩
      · exact .inl (h ▸ ho)
      · obtain ⟨-, rfl⟩ := List.cons.inj h
        exact .inr ⟨a, b, rfl, ho⟩

theorem not_holdsRaw {s : List Char} (h : ¬ ['{', '%'] <:+: s) : ¬ holdsRaw s := by
  rw [holdsRaw_iff]
  rintro ⟨a, b, rfl, ho⟩
  obtain ⟨cs, rfl⟩ := prefix_of_opensRaw ho
  exact h ⟨a, cs, by simp⟩

/-- What stands after another name does not go on as the opening tag of a raw block. -/
theorem startsWith_close_of_strip? {name word args rest : List Char}
    (hn : ∀ c ∈ name, Text.isNameChar c) (hw : Text.isIdentifier word) (hne : word ≠ name)
    (ha : ∀ c ∈ args.head?, Text.isNameChar c = false)
    (h : Text.strip? name (word ++ args) = some rest) :
    Text.startsWith "%\x7d".toList (unmarked (Text.trimStart rest)) = false := by
  rcases List.append_eq_append_iff.mp (Text.eq_append_of_strip? h) with
    ⟨more, rfl, hargs⟩ | ⟨more, rfl, rfl⟩
  · cases more with
    | nil => exact absurd (List.append_nil word).symm hne
    | cons c more =>
      have hc := hn c (by simp)
      rw [ha c (by simp [hargs])] at hc
      cases hc
  · cases more with
    | nil => exact absurd (List.append_nil name) hne
    | cons c more =>
      have hc := Text.isNameChar_of_mem_identifier hw (by simp : c ∈ name ++ c :: more)
      have hblank := Text.isBlank_eq_false_of_isNameChar hc
      have hother : c ≠ '-' ∧ c ≠ '%' := by
        constructor <;> rintro rfl <;> exact absurd hc (by decide)
      rw [List.cons_append, Text.trimStart_eq_self (by simpa using hblank), unmarked]
      simp [Text.startsWith, Text.strip?, hother.1, Ne.symm hother.2]

/-- A tag that begins with another word opens no raw block, and neither does what stands in it. -/
theorem not_holdsRaw_tag {body : String} {word args : List Char} (hb : body.toList = word ++ args)
    (hw : Text.isIdentifier word) (hv : word ≠ "raw".toList ∧ word ≠ "verbatim".toList)
    (ha : ∀ c ∈ args.head?, Text.isNameChar c = false) (ho : Text.Lacks '{' '%' body.toList)
    (trim : Trim) : ¬ holdsRaw (Markup.tag body trim).toList := by
  have htext : (Markup.tag body trim).toList = '{' :: '%' :: ((Markup.marker trim.left).toList ++
      ' ' :: (word ++ (args ++ ' ' :: ((Markup.marker trim.right).toList ++ ['%', '}'])))) := by
    simp [toList_tag, opener, closer, hb]
  have hother : ∀ z, opensRaw ('{' :: '%' :: ((Markup.marker trim.left).toList ++
      ' ' :: (word ++ (args ++ ' ' :: z)))) = false := by
    intro z
    have hu : ∀ s, unmarked ((Markup.marker trim.left).toList ++ ' ' :: s) = ' ' :: s := by
      cases trim.left <;> exact fun _ => rfl
    have ht : Text.trimStart (' ' :: (word ++ (args ++ ' ' :: z))) =
        word ++ (args ++ ' ' :: z) := by
      rw [Text.trimStart_cons_blank (by decide), Text.trimStart_eq_self]
      obtain ⟨c, cs, rfl⟩ := List.exists_cons_of_ne_nil (Text.ne_nil_of_isIdentifier hw)
      rintro _ ⟨⟩
      exact Text.isBlank_eq_false_of_isNameChar
        (Text.isNameChar_of_mem_identifier hw List.mem_cons_self)
    have hargs : ∀ c ∈ (args ++ ' ' :: z).head?, Text.isNameChar c = false := by
      cases args with
      | nil =>
        rintro _ ⟨⟩
        decide
      | cons c cs => exact ha
    rw [opensRaw_cons, afterRawName?, hu, ht, Option.any_map]
    cases hn : (Text.strip? "raw".toList (word ++ (args ++ ' ' :: z))).or
        (Text.strip? "verbatim".toList (word ++ (args ++ ' ' :: z))) with
    | none => rfl
    | some rest =>
      rcases Option.or_eq_some_iff.mp hn with hn | ⟨-, hn⟩
      · exact startsWith_close_of_strip? (by decide) hw hv.1 hargs hn
      · exact startsWith_close_of_strip? (by decide) hw hv.2 hargs hn
  rw [holdsRaw_iff]
  rintro ⟨a, b, hab, hopen⟩
  rw [htext] at hab
  rcases a with _ | ⟨d, a⟩
  · rw [List.nil_append] at hab
    rw [← hab, hother] at hopen
    cases hopen
  · -- no tag begins after the first character
    have hmark : ∀ isSet, Text.Lacks '{' '%' ('%' :: (Markup.marker isSet).toList ++ [' ']) ∧
        Text.Lacks '{' '%' (' ' :: ((Markup.marker isSet).toList ++ ['%', '}'])) := by
      rintro (_ | _) <;> exact ⟨.of_notMem (by decide), .of_notMem (by decide)⟩
    obtain ⟨z, rfl⟩ := prefix_of_opensRaw hopen
    have hrest := ((hmark trim.left).1.append ho).append (hmark trim.right).2
    refine hrest.1 ⟨a, z, ?_⟩
    rw [List.append_assoc, List.cons_append, List.singleton_append]
    refine (List.cons.inj hab).2.symm.trans ?_
    simp [hb]

/-! ### Texts without a raw block near their end -/

/-- No opening tag of a raw block stands so shortly before the end of a text that what follows could
be taken for the body. -/
def Clear (pre : List Char) : Prop :=
  ∀ a b, pre = a ++ b → opensRaw b → rawWindow < Text.byteLength b

/-- A text that is clear and stays so, whatever comes after it in which no tag begins. -/
def Clean (pre : List Char) : Prop :=
  ∀ u, ¬ ['{', '%'] <:+: u → Clear (pre ++ u)

namespace Clear

variable {pre u : List Char}

/-- More text keeps a text clear, if no opening tag of a raw block begins in it and none that begins
before it goes on in it. -/
theorem append_of (h : Clear pre) (hu : ¬ holdsRaw u)
    (hs : ∀ a b, pre = a ++ b → b ≠ [] → opensRaw (b ++ u) → opensRaw b) : Clear (pre ++ u) := by
  intro a b hab ho
  rcases List.append_eq_append_iff.mp hab with ⟨c, rfl, rfl⟩ | ⟨c, rfl, rfl⟩
  · exact absurd (holdsRaw_iff.mpr ⟨c, b, rfl, ho⟩) hu
  · by_cases hc : c = []
    · subst hc
      exact absurd (holdsRaw_iff.mpr ⟨[], u, rfl, ho⟩) hu
    · have := h a c rfl (hs a c rfl hc ho)
      rw [Text.byteLength_append]
      omega

/-- A delimiter pair that opens no raw block keeps a text clear. -/
theorem append (h : Clear pre) (hu : ¬ holdsRaw ('{' :: u)) : Clear (pre ++ '{' :: u) :=
  h.append_of hu fun _ b _ hb ho => by rwa [opensRaw_append_open hb] at ho

/-- A clear text that ends where a tag ends stays clear. -/
theorem clean (h : Clear pre) (hs : pre.getLast? = some '}') : Clean pre := by
  intro u hu
  refine h.append_of (not_holdsRaw hu) fun a b hab hb ho => ?_
  have hlast : b.getLast? = some '}' := by
    rwa [hab, List.getLast?_append_of_ne_nil _ hb] at hs
  obtain ⟨d, rfl⟩ := List.getLast?_eq_some_iff.mp hlast
  rw [List.append_assoc, List.singleton_append, opensRaw_append_close] at ho
  exact ho

/-- A raw block keeps a text clear: its opening tag, and any other in its body, is too far from its
end. -/
theorem raw (content : String) (trim endTrim : Trim) :
    Clear (pre ++ (Markup.block "raw" content "endraw" trim endTrim).toList) := by
  have hsize : '{'.utf8Size = 1 ∧ '%'.utf8Size = 1 ∧ '}'.utf8Size = 1 ∧
      ' '.utf8Size = 1 := by decide
  have hwords : Text.byteLength "raw".toList = 3 ∧ Text.byteLength "endraw".toList = 6 := by decide
  have hopening : 7 ≤ Text.byteLength (Markup.tag "raw" trim).toList := by
    simp only [toList_tag, opener, closer, Text.byteLength_append, Text.byteLength, hwords, hsize]
    omega
  have hending : 12 ≤ Text.byteLength (Markup.tag "endraw" endTrim).toList := by
    simp only [toList_tag, opener, closer, Text.byteLength_append, Text.byteLength, hwords, hsize]
    omega
  obtain ⟨v, hv⟩ : ∃ v, (Markup.tag "endraw" endTrim).toList = '{' :: v :=
    ⟨_, toList_tag "endraw" endTrim⟩
  have hclosing : ¬ holdsRaw ('{' :: v) := by
    rw [← hv]
    exact not_holdsRaw_tag (List.append_nil _).symm (by decide) (by decide) (by decide)
      (.of_notMem (by decide)) endTrim
  have hblock : pre ++ (Markup.block "raw" content "endraw" trim endTrim).toList =
      (pre ++ (Markup.tag "raw" trim).toList ++ content.toList) ++ '{' :: v := by
    simp [Markup.block, hv]
  rw [hblock]
  intro a b hab ho
  rcases List.append_eq_append_iff.mp hab with ⟨c, rfl, hc⟩ | ⟨c, -, rfl⟩
  · exact absurd (holdsRaw_iff.mpr ⟨c, b, hc, ho⟩) hclosing
  · by_cases hc : c = []
    · subst hc
      exact absurd (holdsRaw_iff.mpr ⟨[], _, rfl, ho⟩) hclosing
    · rw [opensRaw_append_open hc] at ho
      have hlength := seven_le_byteLength_of_opensRaw ho
      rw [Text.byteLength_append, ← hv, rawWindow]
      omega

end Clear

namespace Clean

variable {pre u : List Char}

theorem clear (h : Clean pre) : Clear pre := by
  simpa using h [] (by simp)

theorem nil : Clean [] := by
  intro u hu a b hab ho
  exact absurd (holdsRaw_iff.mpr ⟨a, b, hab, ho⟩) (not_holdsRaw hu)

theorem text (h : Clean pre) (hu : Text.Lacks '{' '%' u) : Clean (pre ++ u) := by
  intro v hv
  rw [List.append_assoc]
  refine h _ fun hi => ?_
  rcases Text.pair_infix_append_iff.mp hi with hi | hi | ⟨hi, -⟩
  · exact hu.1 hi
  · exact hv hi
  · exact hu.2 hi

/-- A delimiter pair that opens no raw block. -/
theorem delimited (h : Clean pre) {o c : Char} {body : List Char} {left right : Bool}
    (hu : ¬ holdsRaw (opener o left ++ (body ++ closer c right))) :
    Clean (pre ++ (opener o left ++ (body ++ closer c right))) := by
  refine (h.clear.append hu).clean ?_
  simp [closer, List.getLast?_append, List.getLast?_cons]

theorem tag (h : Clean pre) {body : String} {word args : List Char}
    (hb : body.toList = word ++ args) (hw : Text.isIdentifier word)
    (hv : word ≠ "raw".toList ∧ word ≠ "verbatim".toList)
    (ha : ∀ c ∈ args.head?, Text.isNameChar c = false) (ho : Text.Lacks '{' '%' body.toList)
    (trim : Trim) : Clean (pre ++ (Markup.tag body trim).toList) := by
  have hu := not_holdsRaw_tag hb hw hv ha ho trim
  rw [toList_tag] at hu ⊢
  exact h.delimited hu

theorem output (h : Clean pre) {body : String} (ho : Text.Lacks '{' '%' body.toList) (trim : Trim) :
    Clean (pre ++ (Markup.output body trim).toList) := by
  have hopener : ∀ left, Text.Lacks '{' '%' (opener '{' left) := by
    rintro (_ | _) <;> exact ⟨by decide, by decide⟩
  have hcloser : ∀ right, '{' ∉ closer '}' right := by decide
  rw [toList_output]
  refine h.delimited (not_holdsRaw (Text.Lacks.append (hopener _) ?_).1)
  exact .append ho (.of_notMem (hcloser _))

theorem raw (content : String) (trim endTrim : Trim) :
    Clean (pre ++ (Markup.block "raw" content "endraw" trim endTrim).toList) := by
  refine (Clear.raw content trim endTrim).clean ?_
  simp [Markup.block, toList_tag, closer, List.getLast?_append, List.getLast?_cons]

end Clean

/-! ### Raw blocks and text -/

theorem takeBytes_isPrefix (bytes : Nat) (cs : List Char) : takeBytes bytes cs <+: cs := by
  fun_induction takeBytes bytes cs with
  | case1 => exact List.nil_prefix
  | case2 => exact List.nil_prefix
  | case3 bytes c cs ih => exact List.cons_prefix_cons.mpr ⟨rfl, ih⟩

/-- A character is taken only as long as the bytes before it are too few. -/
theorem byteLength_lt_of_takeBytes {bytes : Nat} {cs s t : List Char} {c : Char}
    (h : takeBytes bytes cs = s ++ c :: t) : Text.byteLength s < bytes := by
  fun_induction takeBytes bytes cs generalizing s with
  | case1 => simp at h
  | case2 => simp at h
  | case3 bytes d cs ih =>
    cases s with
    | nil => simp [Text.byteLength]
    | cons e s =>
      obtain ⟨rfl, hs⟩ := List.cons.inj h
      have := ih hs
      rw [Text.byteLength]
      omega

theorem takeBytes_append {bytes : Nat} {s : List Char} (h : Text.byteLength s ≤ bytes)
    (rest : List Char) :
    takeBytes bytes (s ++ rest) = s ++ takeBytes (bytes - Text.byteLength s) rest := by
  induction s generalizing bytes with
  | nil => rfl
  | cons c cs ih =>
    have hsize := c.utf8Size_pos
    rw [Text.byteLength] at h
    obtain ⟨n, rfl⟩ : ∃ n, bytes = n + 1 := ⟨bytes - 1, by omega⟩
    rw [List.cons_append, takeBytes, ih (by omega), Text.byteLength, Nat.sub_sub, List.cons_append]

theorem byteLength_reverse (s : List Char) : Text.byteLength s.reverse = Text.byteLength s := by
  induction s with
  | nil => rfl
  | cons c cs ih => simp [Text.byteLength, ih, Nat.add_comm]

/-- What follows a clear text is not taken for the body of a raw block. -/
theorem isAfterRaw_of_clear {pre : List Char} (h : Clear pre) (after : List Char) :
    Place.isAfterRaw ⟨pre.reverse, after⟩ = false := by
  rw [Place.isAfterRaw, Bool.eq_false_iff, ne_eq, holdsRaw_iff]
  rintro ⟨a, b, hab, ho⟩
  obtain ⟨z, hz⟩ := takeBytes_isPrefix rawWindow pre.reverse
  have hpre : pre = z.reverse ++ a ++ b := by
    rw [List.append_assoc, ← hab, ← List.reverse_append, hz, List.reverse_reverse]
  have hfar := h _ b hpre ho
  -- the tag begins with a brace, which is a single byte
  obtain ⟨cs, rfl⟩ := prefix_of_opensRaw ho
  have htake : takeBytes rawWindow pre.reverse = ('%' :: cs).reverse ++ '{' :: a.reverse := by
    rw [← List.reverse_reverse (takeBytes rawWindow pre.reverse), hab]
    simp
  have hnear := byteLength_lt_of_takeBytes htake
  have hsize : '{'.utf8Size = 1 := by decide
  rw [Text.byteLength, hsize] at hfar
  rw [byteLength_reverse] at hnear
  omega

/-- What follows the opening tag of a raw block is taken for the body of one. -/
theorem isAfterRaw_of_opensRaw {opening : List Char} (ho : opensRaw opening)
    (hl : Text.byteLength opening ≤ rawWindow) (pre after : List Char) :
    Place.isAfterRaw ⟨(pre ++ opening).reverse, after⟩ := by
  rw [← byteLength_reverse] at hl
  rw [Place.isAfterRaw, List.reverse_append, takeBytes_append hl, List.reverse_append,
    List.reverse_reverse, holdsRaw_iff]
  exact ⟨_, opening, rfl, ho⟩

end Stencil.Nunjucks

import Stencil.Liquid.Token
import Stencil.Markup
import Stencil.Proofs.Text.Scan

/-!
# Tokens of written markup

What a writer puts between delimiters is found there again by the reader, with its markers, whatever
comes after it. The text inside must not hold the closing delimiter outside quotes, and its quotes
must be closed; the body of a verbatim block must not hold the beginning of a tag.
-/

namespace Stencil.Liquid

/-! ### Enclosed texts -/

/-- A text that does not hold the closing delimiter outside quotes and whose quotes are closed, if
the quote `quote` is open at its start. -/
def isEnclosed (close : Char) : (quote : Option Char) → List Char → Bool
  | none, [] => true
  | some _, [] => false
  | some q, '\\' :: _ :: cs => isEnclosed close (some q) cs
  | some q, c :: cs => isEnclosed close (if c == q then none else some q) cs
  | none, c :: cs =>
    !(c == close && cs.head? == some '}') &&
      isEnclosed close (if Text.isQuote c then some c else none) cs

/-- The closing delimiter is searched for after an enclosed text. -/
theorem untilClose_append {close : Char} {quote : Option Char} {s rest : List Char}
    (h : isEnclosed close quote s) (hq : ∀ q ∈ quote, Text.isQuote q) (hr : rest.head? ≠ some '}') :
    untilClose close quote (s ++ rest) =
      (untilClose close none rest).map fun x => (s ++ x.1, x.2) := by
  fun_induction isEnclosed close quote s with
  | case1 => simp
  | case2 => simp at h
  | case3 q c cs ih =>
    rw [List.cons_append, List.cons_append, untilClose, ih h hq]
    cases untilClose close none rest <;> rfl
  | case4 q c cs hne ih =>
    have hc : c = '\\' → cs ≠ [] := by
      rintro rfl rfl
      have hq' : ('\\' == q) = false := by
        rw [beq_eq_false_iff_ne]
        rintro rfl
        exact absurd (hq _ rfl) (by decide)
      simp [isEnclosed, hq'] at h
    rw [List.cons_append, untilClose, ih h (by grind)]
    · cases untilClose close none rest <;> rfl
    · intro _ _ hd _
      cases cs with
      | nil => exact hc hd rfl
      | cons e es => exact hne e es hd rfl
  | case5 c cs ih =>
    rw [Bool.and_eq_true, Bool.not_eq_true'] at h
    have hclose : (c == close && (cs ++ rest).head? == some '}') = false := by
      cases cs with
      | nil => simp [hr]
      | cons d ds => exact h.1
    rw [List.cons_append, untilClose, hclose, ih h.2 (by grind)]
    cases untilClose close none rest <;> rfl

/-- A text without quotes and without the character that begins the closing delimiter is enclosed,
also before an enclosed text. -/
theorem isEnclosed_append {close : Char} {s t : List Char}
    (hs : ∀ c ∈ s, Text.isQuote c = false ∧ c ≠ close) (ht : isEnclosed close none t) :
    isEnclosed close none (s ++ t) := by
  induction s with
  | nil => exact ht
  | cons c s ih =>
    rw [List.forall_mem_cons] at hs
    rw [List.cons_append, isEnclosed, hs.1.1]
    simpa [hs.1.2] using ih hs.2

/-! ### Delimiter pairs -/

/-- What stands after the opening delimiter of a written delimiter pair. -/
def insideText (mark : Mark) (body : List Char) (trim : Trim) : List Char :=
  (Markup.marker trim.left).toList ++ ' ' :: (body ++ ' ' :: ((Markup.marker trim.right).toList ++
    [mark.close, '}']))

theorem untilClose_marker (mark : Mark) (isSet : Bool) (rest : List Char) :
    untilClose mark.close none
      (' ' :: ((Markup.marker isSet).toList ++ mark.close :: '}' :: rest)) =
      some (' ' :: (Markup.marker isSet).toList, rest) := by
  cases mark <;> cases isSet <;> rfl

theorem dropMarker_marker (start : Nat) (isSet : Bool) (rest : List Char) :
    Piece.dropMarker ⟨start, (Markup.marker isSet).toList ++ ' ' :: rest⟩ =
      ⟨start + Text.byteLength (Markup.marker isSet).toList, ' ' :: rest⟩ := by
  cases isSet <;> rfl

/-- The contents of a written delimiter pair. -/
theorem delimited?_insideText {m : Mark} {body : List Char}
    (h : isEnclosed m.close none body) (trim : Trim) (start : Nat) (rest : List Char) :
    ∃ d, delimited? m ⟨start, insideText m body trim ++ rest⟩ = some d ∧
      d.inner.text = ' ' :: body ++ [' '] ∧ d.trim = trim ∧
      d.rest = ⟨start + Text.byteLength (insideText m body trim), rest⟩ := by
  obtain ⟨left, right⟩ := trim
  have hbody : isEnclosed m.close none (' ' :: body) :=
    isEnclosed_append (s := [' ']) (by cases m <;> decide) h
  have htext : insideText m body ⟨left, right⟩ ++ rest = (Markup.marker left).toList ++
      ' ' :: (body ++ ' ' :: ((Markup.marker right).toList ++ m.close :: '}' :: rest)) := by
    simp [insideText]
  have hspace : (' ' :: ((Markup.marker right).toList ++ m.close :: '}' :: rest)).head? ≠
      some '}' := by simp
  have huntil := untilClose_append hbody (by simp) hspace
  rw [untilClose_marker, List.cons_append, Option.map_some] at huntil
  have hhead : ∀ cs, (((Markup.marker left).toList ++ ' ' :: cs).head? == some '-') = left := by
    intro cs
    cases left <;> rfl
  have hright : ((' ' :: body ++ ' ' :: (Markup.marker right).toList).getLast? == some '-') =
      right := by
    rw [List.getLast?_append]
    cases right <;> rfl
  have hinner : (if right then (' ' :: body ++ ' ' :: (Markup.marker right).toList).dropLast
      else ' ' :: body ++ ' ' :: (Markup.marker right).toList) = ' ' :: body ++ [' '] := by
    cases right
    · rfl
    · rw [if_pos rfl, List.dropLast_append_of_ne_nil (by simp)]
      rfl
  have hstop : start + Text.byteLength (Markup.marker left).toList +
      Text.byteLength (' ' :: body ++ ' ' :: (Markup.marker right).toList) + 2 =
      start + Text.byteLength (insideText m body ⟨left, right⟩) := by
    have hsize : m.close.utf8Size = 1 := by cases m <;> rfl
    simp only [insideText, Text.byteLength_append, Text.byteLength, hsize,
      show '}'.utf8Size = 1 from rfl]
    omega
  rw [delimited?, htext, dropMarker_marker]
  simp only [huntil, Option.map_some, hhead, hright, hinner, hstop]
  exact ⟨_, rfl, rfl, rfl, rfl⟩

/-! ### Tags -/

/-- A text that can be the name of a tag. -/
def isTagName (word : List Char) : Bool :=
  !word.isEmpty && word.all isTagNameChar

/-- A text that can be the arguments of a tag. -/
def isTagArgs (args : List Char) : Bool :=
  isEnclosed '%' none args && Text.trim args == args

/-- The arguments of a tag as they stand after its name. -/
def argsTail (args : List Char) : List Char :=
  if args.isEmpty then [] else ' ' :: args

/-- A tag with a given name, arguments and markers. -/
structure IsTag (tag : Tag) (name : String) (args : List Char) (trim : Trim) : Prop where
  name : tag.name = name
  args : tag.args.text = args
  trim : tag.trim = trim

variable {word args : List Char}

theorem isTagName_iff : isTagName word ↔ word ≠ [] ∧ ∀ c ∈ word, isTagNameChar c := by
  simp [isTagName]

theorem isTagArgs_iff : isTagArgs args ↔ isEnclosed '%' none args ∧ Text.trim args = args := by
  simp [isTagArgs]

theorem isTagArgs_nil : isTagArgs [] := by
  decide

@[simp] theorem argsTail_nil : argsTail [] = [] :=
  rfl

@[simp] theorem argsTail_cons (c : Char) (cs : List Char) : argsTail (c :: cs) = ' ' :: c :: cs :=
  rfl

theorem toList_header (word args : String) (h : args.toList ≠ []) :
    (word ++ " " ++ args).toList = word.toList ++ argsTail args.toList := by
  simp [argsTail, h]

/-- The characters of tag names are neither blanks nor quotes nor parts of delimiters. -/
theorem signs_of_isTagNameChar {c : Char} (h : isTagNameChar c) :
    Text.isBlank c = false ∧ Text.isQuote c = false ∧ c ≠ '%' ∧ c ≠ '#' := by
  rcases Bool.or_eq_true _ _ |>.mp h with h | h
  · exact ⟨Text.isBlank_eq_false_of_isNameChar h, Text.isQuote_eq_false_of_isNameChar h,
      Text.ne_of_isNameChar h (by decide), Text.ne_of_isNameChar h (by decide)⟩
  · rw [beq_iff_eq] at h
    subst h
    decide

theorem isEnclosed_tagBody (hw : isTagName word) (ha : isTagArgs args) :
    isEnclosed '%' none (word ++ argsTail args) := by
  refine isEnclosed_append (fun c hc => ?_) ?_
  · have h := signs_of_isTagNameChar ((isTagName_iff.mp hw).2 c hc)
    exact ⟨h.2.1, h.2.2.1⟩
  · cases args with
    | nil => rfl
    | cons c cs => exact isEnclosed_append (s := [' ']) (by decide) (isTagArgs_iff.mp ha).1

theorem trim_tagBody (hw : isTagName word) (ha : isTagArgs args) :
    Text.trim (word ++ argsTail args) = word ++ argsTail args := by
  obtain ⟨hne, hchars⟩ := isTagName_iff.mp hw
  have hblank : ∀ c ∈ word, Text.isBlank c = false := fun c hc =>
    (signs_of_isTagNameChar (hchars c hc)).1
  have hlast := (Text.trim_eq_self_iff.mp (isTagArgs_iff.mp ha).2).2
  obtain ⟨d, ds, rfl⟩ := List.exists_cons_of_ne_nil hne
  refine Text.trim_eq_self_iff.mpr ⟨fun c hc => ?_, fun c hc => ?_⟩
  · obtain rfl : d = c := by simpa using hc
    exact hblank d List.mem_cons_self
  · cases args with
    | nil =>
      rw [argsTail_nil, List.append_nil] at hc
      exact hblank c (List.mem_of_getLast? hc)
    | cons e es =>
      rw [argsTail_cons, List.getLast?_append, List.getLast?_cons_cons] at hc
      exact hlast c (by simpa using hc)

theorem tagName_tagBody (hw : isTagName word) (args : List Char) :
    tagName (word ++ argsTail args) = word := by
  obtain ⟨hne, hchars⟩ := isTagName_iff.mp hw
  obtain ⟨d, ds, rfl⟩ := List.exists_cons_of_ne_nil hne
  have hd := (signs_of_isTagNameChar (hchars d List.mem_cons_self)).2.2.2
  have hstop : ∀ c ∈ (argsTail args).head?, isTagNameChar c = false := by
    cases args with
    | nil => simp
    | cons e es =>
      intro c hc
      obtain rfl : ' ' = c := by simpa using hc
      decide
  have htake := Text.takeWhile_append_stop hchars hstop
  simpa [tagName, hd] using htake

theorem trimStart_argsTail (ha : isTagArgs args) : Text.trimStart (argsTail args) = args := by
  have hhead := (Text.trim_eq_self_iff.mp (isTagArgs_iff.mp ha).2).1
  cases args with
  | nil => rfl
  | cons c cs =>
    rw [argsTail_cons, Text.trimStart_cons_blank (by decide), Text.trimStart_eq_self hhead]

theorem ofDelimited_tagBody (hw : isTagName word) (ha : isTagArgs args) {d : Delimited}
    (hd : d.inner.text = ' ' :: (word ++ argsTail args) ++ [' ']) (place : Nat) :
    ∃ tag, Tag.ofDelimited place d = .ok tag ∧ IsTag tag (String.ofList word) args d.trim := by
  have htrim := (Text.trim_pad _).trans (trim_tagBody hw ha)
  have hne : word.isEmpty = false := by simpa using (isTagName_iff.mp hw).1
  simp only [Tag.ofDelimited, Piece.trim, hd, htrim, tagName_tagBody hw args, hne,
    Bool.false_eq_true, if_false]
  refine ⟨_, rfl, rfl, ?_, rfl⟩
  rw [Piece.text_trimStart, Piece.drop_length_append]
  exact trimStart_argsTail ha

/-- What stands between the delimiters of a written tag is read as that tag. -/
theorem readTag_insideText (hw : isTagName word) (ha : isTagArgs args) (trim : Trim)
    (place start : Nat) (rest : List Char) :
    ∃ tag, readTag place ⟨start, insideText .tag (word ++ argsTail args) trim ++ rest⟩ =
        .ok (tag, ⟨start + Text.byteLength (insideText .tag (word ++ argsTail args) trim), rest⟩) ∧
      IsTag tag (String.ofList word) args trim := by
  obtain ⟨d, hd, hinner, rfl, hrest⟩ :=
    delimited?_insideText (m := .tag) (isEnclosed_tagBody hw ha) trim start rest
  obtain ⟨tag, htag, his⟩ := ofDelimited_tagBody hw ha hinner place
  refine ⟨tag, ?_, his⟩
  rw [readTag, hd]
  simp only [htag, map_ok, hrest]

/-! ### Tokens -/

theorem toList_tag (body : String) (trim : Trim) :
    (Markup.tag body trim).toList = '{' :: '%' :: insideText .tag body.toList trim := by
  simp [Markup.tag, Markup.delimit, insideText, Mark.close]

theorem toList_output (body : String) (trim : Trim) :
    (Markup.output body trim).toList = '{' :: '{' :: insideText .output body.toList trim := by
  simp [Markup.output, Markup.delimit, insideText, Mark.close]

/-- A written tag is read as a tag. -/
theorem readToken_tag {body : String} (hbody : body.toList = word ++ argsTail args)
    (hw : isTagName word) (ha : isTagArgs args) (hv : isVerbatim (String.ofList word) = false)
    (trim : Trim) (start : Nat) (rest : List Char) :
    ∃ tag, readToken ⟨start, (Markup.tag body trim).toList ++ rest⟩ =
        .ok (.tag tag, ⟨start + Text.byteLength (Markup.tag body trim).toList, rest⟩) ∧
      IsTag tag (String.ofList word) args trim := by
  obtain ⟨tag, htag, his⟩ := readTag_insideText hw ha trim start (start + 2) rest
  refine ⟨tag, ?_, his⟩
  rw [toList_tag, hbody, readToken]
  simp only [List.cons_append, open?, readTagToken, htag, his.name, hv, Bool.false_eq_true,
    if_false, Text.byteLength, show '{'.utf8Size = 1 from rfl, show '%'.utf8Size = 1 from rfl,
    ← Nat.add_assoc]

/-- A written output is read as an output with its text between spaces. -/
theorem readToken_output {body : String} (h : isEnclosed '}' none body.toList) (trim : Trim)
    (start : Nat) (rest : List Char) :
    ∃ inner span, readToken ⟨start, (Markup.output body trim).toList ++ rest⟩ =
        .ok (.output inner span trim,
          ⟨start + Text.byteLength (Markup.output body trim).toList, rest⟩) ∧
      inner.text = ' ' :: body.toList ++ [' '] := by
  obtain ⟨d, hd, hinner, rfl, hrest⟩ :=
    delimited?_insideText (m := .output) h trim (start + 2) rest
  refine ⟨d.inner, ⟨start, d.rest.start⟩, ?_, hinner⟩
  rw [toList_output, readToken]
  simp only [List.cons_append, open?, readOutput, hd, hrest, Text.byteLength,
    show '{'.utf8Size = 1 from rfl, ← Nat.add_assoc]

theorem tokenizePiece_nil (start : Nat) : tokenizePiece ⟨start, []⟩ = .ok [] := by
  rw [tokenizePiece]
  rfl

theorem tokenizePiece_cons {p rest : Piece} {t : Token} (hp : p.text ≠ [])
    (ht : readToken p = .ok (t, rest)) :
    tokenizePiece p = (tokenizePiece rest).map (t :: ·) := by
  rw [tokenizePiece, dif_neg hp]
  split
  · simp_all
  · next t' rest' ht' =>
    rw [ht] at ht'
    obtain ⟨rfl, rfl⟩ := Prod.mk.inj (Except.ok.inj ht')
    cases tokenizePiece rest <;> rfl

theorem isOpen_eq_false {c : Char} {cs : List Char}
    (h : c = '{' → cs.head? ≠ some '{' ∧ cs.head? ≠ some '%') : isOpen (c :: cs) = false := by
  unfold isOpen open?
  split <;> simp_all

/-- A text without opening delimiters is read up to the next one. -/
theorem readToken_html {content rest : List Char} (hne : content ≠ [])
    (ho : ¬ ['{', '{'] <:+: content) (ht : ¬ ['{', '%'] <:+: content)
    (hl : content.getLast? ≠ some '{') (hr : rest = [] ∨ isOpen rest) (start : Nat) :
    readToken ⟨start, content ++ rest⟩ =
      .ok (.html ⟨start, content⟩, ⟨start + Text.byteLength content, rest⟩) := by
  have hstop : ∀ a b, content = a ++ b → b ≠ [] → isOpen (b ++ rest) = false := by
    rintro a b rfl hb
    obtain ⟨c, cs, rfl⟩ := List.exists_cons_of_ne_nil hb
    refine isOpen_eq_false ?_
    rintro rfl
    cases cs with
    | nil => simp at hl
    | cons d ds =>
      refine ⟨fun hd => ho ?_, fun hd => ht ?_⟩
      all_goals
        obtain rfl := Option.some.inj hd
        exact ⟨a, ds, by simp⟩
  have hopen : open? (content ++ rest) = none := by
    simpa [isOpen] using hstop [] content rfl hne
  rw [readToken, hopen]
  simp only [readHtml, Piece.splitBefore, Text.splitBefore_append_stop hstop hr]


/-! ### Verbatim blocks -/

theorem Found.prepend_append (s t : List Char) (r : Except ReadError (Option Found)) :
    Found.prepend (s ++ t) r = Found.prepend s (Found.prepend t r) := by
  cases r with
  | error => rfl
  | ok found => cases found <;> simp [Found.prepend]

theorem Found.prepend_nil (r : Except ReadError (Option Found)) : Found.prepend [] r = r := by
  cases r with
  | error => rfl
  | ok found => cases found <;> simp [Found.prepend]

/-- A text that can stand in a block with the closing tag `name`: no such tag begins in it, and it
does not end in the middle of a delimiter. -/
def isBody (name : List Char) : List Char → Bool
  | '{' :: '{' :: cs => isBody name cs
  | '{' :: '%' :: cs => !opensTag name cs && isBody name cs
  | ['{'] => false
  | _ :: cs => isBody name cs
  | [] => true

/-- What comes after a text has no part in whether a tag begins in it, if it begins with a brace. -/
theorem opensTag_append {name : List Char} (hn : '{' ∉ name) (cs rest : List Char) :
    opensTag name (cs ++ '{' :: rest) = opensTag name cs := by
  have hbody : (if (cs ++ '{' :: rest).head? == some '-' then (cs ++ '{' :: rest).tail
      else cs ++ '{' :: rest) = (if cs.head? == some '-' then cs.tail else cs) ++ '{' :: rest := by
    cases cs with
    | nil => rfl
    | cons c cs => by_cases hc : c = '-' <;> simp [hc]
  rw [opensTag, opensTag, hbody]
  simp only [Text.trimStart_append_cons (by decide : Text.isBlank '{' = false),
    Text.strip?_append_cons hn]
  cases Text.strip? name (Text.trimStart (if cs.head? == some '-' then cs.tail else cs)) with
  | none => rfl
  | some after =>
    cases after with
    | nil =>
      change (Text.isBlank '{' || '{' == '-' || '{' == '%') = false
      decide
    | cons c after => rfl

/-- The search for a closing tag passes over the body of a block. -/
theorem findTag_append {name : List Char} (hn : '{' ∉ name) {start : Nat} {content : List Char}
    (hc : isBody name content) (rest : List Char) :
    findTag name start (content ++ '{' :: rest) =
      Found.prepend content (findTag name (start + Text.byteLength content) ('{' :: rest)) := by
  fun_induction isBody name content generalizing start with
  | case1 cs ih =>
    rw [List.cons_append, List.cons_append, findTag, ih hc, ← Found.prepend_append]
    simp [Text.byteLength, show '{'.utf8Size = 1 from rfl, ← Nat.add_assoc]
  | case2 cs ih =>
    rw [Bool.and_eq_true, Bool.not_eq_true'] at hc
    rw [List.cons_append, List.cons_append, findTag, opensTag_append hn, hc.1, if_neg (by decide),
      ih hc.2, ← Found.prepend_append]
    simp [Text.byteLength, show '{'.utf8Size = 1 from rfl, show '%'.utf8Size = 1 from rfl,
      ← Nat.add_assoc]
  | case3 => cases hc
  | case4 c cs h₁ h₂ h₃ ih =>
    rw [List.cons_append, findTag, ih hc, ← Found.prepend_append]
    · simp [Text.byteLength, ← Nat.add_assoc]
    · rintro ds rfl hd
      cases cs with
      | nil => exact h₃ rfl rfl
      | cons e es => exact h₁ es rfl (by simpa using (List.cons.inj hd).1)
    · rintro ds rfl hd
      cases cs with
      | nil => exact h₃ rfl rfl
      | cons e es => exact h₂ es rfl (by simpa using (List.cons.inj hd).1)
  | case5 => rw [Found.prepend_nil]; rfl

/-- A written tag without arguments is recognised by its name. -/
theorem opensTag_insideText (hw : isTagName word) (trim : Trim) (rest : List Char) :
    opensTag word (insideText .tag word trim ++ rest) := by
  obtain ⟨hne, hchars⟩ := isTagName_iff.mp hw
  obtain ⟨left, right⟩ := trim
  have hbody : ∀ cs, (if ((Markup.marker left).toList ++ ' ' :: cs).head? == some '-' then
      ((Markup.marker left).toList ++ ' ' :: cs).tail
      else (Markup.marker left).toList ++ ' ' :: cs) = ' ' :: cs := by
    intro cs
    cases left <;> rfl
  have htrim : ∀ cs, Text.trimStart (' ' :: (word ++ cs)) = word ++ cs := by
    intro cs
    obtain ⟨d, ds, rfl⟩ := List.exists_cons_of_ne_nil hne
    rw [Text.trimStart_cons_blank (by decide)]
    exact Text.trimStart_eq_self
      (by simpa using (signs_of_isTagNameChar (hchars d List.mem_cons_self)).1)
  have hinside : insideText .tag word ⟨left, right⟩ ++ rest = (Markup.marker left).toList ++
      ' ' :: (word ++ ' ' :: ((Markup.marker right).toList ++ '%' :: '}' :: rest)) := by
    simp [insideText, Mark.close]
  rw [opensTag, hinside, hbody]
  simp only [htrim, Text.strip?_append]
  rfl

theorem findTag_tag (hw : isTagName word) (trim : Trim) (start : Nat) (rest : List Char) :
    ∃ tag, findTag word start ('{' :: '%' :: (insideText .tag word trim ++ rest)) =
        .ok (some ⟨[], tag, ⟨start + 2 + Text.byteLength (insideText .tag word trim), rest⟩⟩) ∧
      IsTag tag (String.ofList word) [] trim := by
  obtain ⟨tag, htag, his⟩ := readTag_insideText hw isTagArgs_nil trim start (start + 2) rest
  rw [argsTail_nil, List.append_nil] at htag
  refine ⟨tag, ?_, his⟩
  rw [findTag, if_pos (opensTag_insideText hw trim rest), htag]
  rfl

/-- A written block that is kept as it stands is read as one token. -/
theorem readToken_verbatim {name content : String} (hv : isVerbatim name)
    (hc : isBody ("end" ++ name).toList content.toList) (trim endTrim : Trim) (start : Nat)
    (rest : List Char) :
    ∃ opening body closing,
      readToken ⟨start, (Markup.block name content ("end" ++ name) trim endTrim).toList ++ rest⟩ =
        .ok (.verbatim opening body closing, ⟨start + Text.byteLength
          (Markup.block name content ("end" ++ name) trim endTrim).toList, rest⟩) ∧
      IsTag opening name [] trim ∧ body.toString = content ∧
      IsTag closing ("end" ++ name) [] endTrim := by
  have hname : isTagName name.toList ∧ isTagName ("end" ++ name).toList ∧
      '{' ∉ ("end" ++ name).toList := by
    rcases Bool.or_eq_true _ _ |>.mp hv with h | h <;>
      · rw [beq_iff_eq] at h
        subst h
        decide
  obtain ⟨opening, hopen, his⟩ := readTag_insideText hname.1 isTagArgs_nil trim start (start + 2)
    (content.toList ++ '{' :: '%' :: (insideText .tag ("end" ++ name).toList endTrim ++ rest))
  rw [argsTail_nil, List.append_nil] at hopen
  rw [String.ofList_toList] at his
  obtain ⟨closing, hclose, his'⟩ := findTag_tag hname.2.1 endTrim
    (start + 2 + Text.byteLength (insideText .tag name.toList trim) +
      Text.byteLength content.toList) rest
  rw [String.ofList_toList] at his'
  refine ⟨opening, ⟨start + 2 + Text.byteLength (insideText .tag name.toList trim), content.toList⟩,
    closing, ?_, his, by simp [Piece.toString], his'⟩
  have htext : (Markup.block name content ("end" ++ name) trim endTrim).toList ++ rest =
      '{' :: '%' :: (insideText .tag name.toList trim ++ (content.toList ++
        '{' :: '%' :: (insideText .tag ("end" ++ name).toList endTrim ++ rest))) := by
    simp [Markup.block, toList_tag]
  have hstop :
      start + Text.byteLength (Markup.block name content ("end" ++ name) trim endTrim).toList =
      start + 2 + Text.byteLength (insideText .tag name.toList trim) +
        Text.byteLength content.toList + 2 +
        Text.byteLength (insideText .tag ("end" ++ name).toList endTrim) := by
    simp only [Markup.block, String.toList_append, toList_tag, Text.byteLength_append,
      Text.byteLength, show '{'.utf8Size = 1 from rfl, show '%'.utf8Size = 1 from rfl]
    omega
  rw [htext, hstop, readToken]
  simp only [open?, readTagToken, hopen, his.name, hv, if_true, readVerbatim,
    findTag_append hname.2.2 hc, hclose, Found.prepend, map_ok, Option.map_some, List.append_nil]

end Stencil.Liquid

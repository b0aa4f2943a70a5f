import Stencil.Nunjucks.Reader
import Stencil.Nunjucks.Writer
import Stencil.Proofs.Nunjucks.Lifting
import Stencil.Proofs.Nunjucks.Statement

/-!
# Written markup inside a source

A source is read from left to right. At each place there is what has been lifted out of the text
before it and the text that is left, and the two together make up the whole source without comments,
in which the markers and the raw blocks are searched for. A piece of written markup moves the place
to its end, and the chunks that it leaves are known whatever stands around it: `Reads` says so.

What has to hold of the text before a place is that it is clean, that is, that no text after it
would be taken for the body of a raw block. All written markup keeps it clean.
-/

namespace Stencil.Nunjucks

/-! ### Places in a source -/

namespace Lifted

/-- The whole source without comments, given what has been lifted out of its first part, and the
rest. -/
def extend (pre : Lifted) (rest : List Char) : Lifted :=
  pre ++ liftFrom pre.comments.length rest

/-- The chunks of the rest of a source. -/
def chunksAfter (pre : Lifted) (rest : List Char) : List Chunk :=
  chunks ⟨Text.byteLength pre.source, (liftFrom pre.comments.length rest).source⟩

end Lifted

variable {s s' : List Char} {F : Nat → Lifted}

theorem Lifts.extend_append (h : Lifts s F) (pre : Lifted) (rest : List Char) :
    pre.extend (s ++ rest) = (pre ++ F pre.comments.length).extend rest := by
  rw [Lifted.extend, h, ← Lifted.append_assoc, Lifted.extend, Lifted.comments_append,
    List.length_append]

theorem chunks_of_readChunk {p q : Piece} {chs : List Chunk} (hne : p.text ≠ [])
    (h : readChunk p = (chs, q)) : chunks p = chs ++ chunks q := by
  rw [chunks, dif_neg hne, h]

/-- The first character of a text stays the first one. -/
theorem head?_liftFrom (i : Nat) (c : Char) (cs : List Char) :
    (liftFrom i (c :: cs)).source.head? = some c := by
  cases h : commentAt? (c :: cs) with
  | none =>
    rw [liftFrom_cons h]
    rfl
  | some r =>
    obtain rfl : c = '{' := (List.cons.inj (eq_of_commentAt? h)).1
    rw [liftFrom_comment h]
    rfl

/-- A text that begins with a delimiter does so after its comments are lifted out. -/
theorem Opens.liftFrom {rest : List Char} (h : Opens rest) (i : Nat) :
    Opens (liftFrom i rest).source := by
  rcases h with rfl | h
  · exact .inl (by simp)
  · obtain ⟨c, hc, cs, rfl⟩ := exists_of_isOpen h
    refine .inr ?_
    cases hcomment : commentAt? ('{' :: c :: cs) with
    | some r =>
      rw [liftFrom_comment hcomment]
      rfl
    | none =>
      obtain ⟨source, hsource⟩ := List.head?_eq_some_iff.mp (head?_liftFrom i c cs)
      rw [liftFrom_cons hcomment, Lifted.consChar, hsource]
      simp only [List.mem_cons, List.not_mem_nil, or_false] at hc
      rcases hc with rfl | rfl | rfl <;> rfl

/-! ### What is read -/

/-- Any rest. -/
def Anything (_ : List Char) : Prop :=
  True

/-- The text `s` is read at any place after a clean text and before a rest of the kind `C`: its
chunks do not depend on the rest and are related to the whole source by `P`, and the text up to its
end is clean. -/
def Reads (C : List Char → Prop) (s : List Char) (P : Lifted → List Chunk → Prop) : Prop :=
  ∀ (pre : Lifted) rest, Clean pre.source → C rest →
    ∃ (pre' : Lifted) (chs : List Chunk), Clean pre'.source ∧
      pre.extend (s ++ rest) = pre'.extend rest ∧
      pre.chunksAfter (s ++ rest) = chs ++ pre'.chunksAfter rest ∧ P (pre'.extend rest) chs

variable {C C' : List Char → Prop} {P Q Q' : Lifted → List Chunk → Prop}

namespace Reads

theorem mono (h : Reads C s Q) (hQ : ∀ l chs, Q l chs → P l chs) : Reads C s P := by
  intro pre rest hpre hr
  obtain ⟨pre', chs, hclean, hextend, hchunks, hq⟩ := h pre rest hpre hr
  exact ⟨pre', chs, hclean, hextend, hchunks, hQ _ _ hq⟩

theorem nil (h : ∀ l, P l []) : Reads C [] P :=
  fun pre _ hpre _ => ⟨pre, [], hpre, rfl, rfl, h _⟩

/-- Texts that are put together. -/
theorem append (h : Reads C s Q) (hC : ∀ rest, C' rest → C (s' ++ rest)) (h' : Reads C' s' Q') :
    Reads C' (s ++ s') fun l chs => ∃ a b, chs = a ++ b ∧ Q l a ∧ Q' l b := by
  intro pre rest hpre hr
  rw [List.append_assoc]
  obtain ⟨pre₁, a, hclean₁, hextend₁, hchunks₁, hq⟩ := h pre (s' ++ rest) hpre (hC rest hr)
  obtain ⟨pre₂, b, hclean₂, hextend₂, hchunks₂, hq'⟩ := h' pre₁ rest hclean₁ hr
  rw [hextend₂] at hextend₁ hq
  exact ⟨pre₂, a ++ b, hclean₂, hextend₁, by rw [hchunks₁, hchunks₂, List.append_assoc],
    a, b, rfl, hq, hq'⟩

/-- A text out of which `F` is lifted, and that is one chunk. -/
theorem of_readChunk (hl : Lifts s F) (hne : ∀ i, (F i).source ≠ [])
    (hC : ∀ i rest, C rest → C (liftFrom i rest).source)
    (h : ∀ pre l : Lifted, ∀ post, l.source = pre.source ++ (F pre.comments.length).source ++ post →
      pre.comments ++ (F pre.comments.length).comments <+: l.comments → Clean pre.source → C post →
      Clean (pre.source ++ (F pre.comments.length).source) ∧ ∃ chs,
        readChunk ⟨Text.byteLength pre.source, (F pre.comments.length).source ++ post⟩ =
          (chs, ⟨Text.byteLength pre.source + Text.byteLength (F pre.comments.length).source,
            post⟩) ∧ P l chs) :
    Reads C s P := by
  intro pre rest hpre hr
  rw [hl.extend_append]
  obtain ⟨hclean, chs, hread, hP⟩ :=
    h pre ((pre ++ F pre.comments.length).extend rest) _ rfl (List.prefix_append _ _) hpre
      (hC _ _ hr)
  refine ⟨_, chs, hclean, rfl, ?_, hP⟩
  have hne' : (F pre.comments.length).source ++
      (liftFrom (pre ++ F pre.comments.length).comments.length rest).source ≠ [] := by
    simp [hne]
  rw [Lifted.chunksAfter, hl, Lifted.chunksAfter, Lifted.source_append, Lifted.source_append,
    Text.byteLength_append]
  rw [Lifted.comments_append, List.length_append] at hread hne'
  rw [chunks_of_readChunk hne' hread]
  simp

/-- A text without comments that is one chunk. -/
theorem of_quiet (hq : Quiet s) (hne : s ≠ [])
    (hC : ∀ i rest, C rest → C (liftFrom i rest).source)
    (h : ∀ (l : Lifted) pre post, l.source = pre ++ s ++ post → Clean pre → C post →
      Clean (pre ++ s) ∧ ∃ chs, readChunk ⟨Text.byteLength pre, s ++ post⟩ =
        (chs, ⟨Text.byteLength pre + Text.byteLength s, post⟩) ∧ P l chs) :
    Reads C s P :=
  of_readChunk (.quiet hq) (fun _ => hne) hC fun pre l post hl _ hclean hpost =>
    h l pre.source post hl hclean hpost

end Reads

/-! ### Tags and outputs -/

section Delimited

variable {word body : String} {args : List Char} {ls : List Lexeme}

/-- The markers of a delimiter pair are found again from its first word. -/
theorem markers_of_source {l : Lifted} {o c : Char} (ho : o = '{' ∨ o = '%')
    (hc : c = '}' ∨ c = '%') {text pre post : List Char}
    (htext : ∀ x ∈ text, x ∉ ['{', '}', '%']) (trim : Trim)
    (hl : l.source = pre ++ (opener o trim.left ++ (text ++ closer c trim.right)) ++ post) :
    l.markers (Text.byteLength pre + Text.byteLength (opener o trim.left)) = trim := by
  have hsource : l.source =
      pre ++ opener o trim.left ++ (text ++ (closer c trim.right ++ post)) := by
    simp [hl]
  rw [Lifted.markers, hsource, ← Text.byteLength_append, Place.at_append]
  refine markers_opener ho hc (fun x hx => ?_) trim pre post
  have := htext x hx
  simp only [List.mem_cons, List.not_mem_nil, or_false, not_or] at this
  exact this.2

/-- A delimiter pair holds no comment if its text does not. -/
theorem quiet_delimited {o : Char} (ho : o = '{' ∨ o = '%') (c : Char) (hc : c ≠ '{')
    {text : List Char} (htext : Quiet text) (left right : Bool) :
    Quiet (opener o left ++ (text ++ closer c right)) := by
  have hopener : Quiet (opener o left) := by
    rcases ho with rfl | rfl <;> cases left <;> exact ⟨by decide, by decide⟩
  have hcloser : '{' ∉ closer c right := by
    cases right <;> simp [closer, Markup.marker, Ne.symm hc]
  exact hopener.append (htext.append (.of_notMem hcloser))

theorem plain_body (hbody : body.toList = word.toList ++ args)
    (hw : Text.isIdentifier word.toList) (ha : Words args ls) :
    ∀ x ∈ body.toList, x ∉ ['{', '}', '%'] := by
  intro x hx
  rw [hbody, List.mem_append] at hx
  rcases hx with hx | hx
  · exact Words.plain_name hw x hx
  · exact ha.plain x hx

/-- A written tag that opens no raw block. Its markers are found again if there is no other
delimiter in it. -/
theorem Reads.tagPhrase (hbody : body.toList = word.toList ++ args)
    (hw : Text.isIdentifier word.toList) (hp : Parts args) (ha : Phrase args ls)
    (hv : word.toList ≠ "raw".toList ∧ word.toList ≠ "verbatim".toList) (trim : Trim) :
    Reads Anything (Markup.tag body trim).toList fun l chs => ∃ t pos, chs = [.tag t] ∧
      IsTag t pos word ls ∧ ((∀ x ∈ body.toList, x ∉ ['{', '}', '%']) → l.markers pos = trim) := by
  have hquiet : ∀ c ∈ ['%', '#'], Text.Lacks '{' c body.toList := by
    intro c hc
    rw [hbody]
    refine .append (.of_notMem fun hb => ?_) (ha.quiet c hc)
    exact Words.plain_name hw _ hb (by simp)
  refine .of_quiet ?_ (by simp [toList_tag, opener]) (fun _ _ _ => trivial) ?_
  · rw [toList_tag]
    exact quiet_delimited (.inr rfl) '%' (by decide) (hquiet '#' (by simp)) _ _
  intro l pre post hl hclean _
  refine ⟨?_, ?_⟩
  · have hseam : Seam args := by simpa using hp [] (by simp [Seam])
    exact hclean.tag hbody hw hv hseam.isNameChar (hquiet '%' (by simp)) trim
  · obtain ⟨ts, closing, hts, hread⟩ :=
      readChunk_tag hbody hw hp ha hv trim (Text.byteLength pre) post
    refine ⟨_, hread, _, _, rfl, ⟨ts, closing, rfl, hts⟩, fun hplain => ?_⟩
    rw [toList_tag] at hl
    exact markers_of_source (.inr rfl) (.inr rfl) hplain trim hl

/-- A written tag that is made of words. -/
theorem Reads.tag (hbody : body.toList = word.toList ++ args) (hw : Text.isIdentifier word.toList)
    (ha : Words args ls) (hv : word.toList ≠ "raw".toList ∧ word.toList ≠ "verbatim".toList)
    (trim : Trim) :
    Reads Anything (Markup.tag body trim).toList fun l chs => ∃ t pos,
      chs = [.tag t] ∧ IsTag t pos word ls ∧ l.markers pos = trim := by
  refine (Reads.tagPhrase hbody hw ha.parts ha.phrase hv trim).mono ?_
  rintro l _ ⟨t, pos, rfl, ht, hmarkers⟩
  exact ⟨t, pos, rfl, ht, hmarkers (plain_body hbody hw ha)⟩

/-- A written output. -/
theorem Reads.outputPhrase (hb : Phrase body.toList ls) (trim : Trim) :
    Reads Anything (Markup.output body trim).toList fun _ chs => ∃ ts closing,
      chs = [.output ⟨ts, ⟨.outputEnd, closing⟩⟩] ∧ ts.map Token.lexeme = ls := by
  refine .of_quiet ?_ (by simp [toList_output, opener]) (fun _ _ _ => trivial) ?_
  · rw [toList_output]
    exact quiet_delimited (.inl rfl) '}' (by decide) (hb.quiet '#' (by simp)) _ _
  intro l pre post hl hclean _
  obtain ⟨ts, closing, hts, hread⟩ := readChunk_phrase hb trim (Text.byteLength pre) post
  exact ⟨hclean.output (hb.quiet '%' (by simp)) trim, _, hread, ts, closing, rfl, hts⟩

/-- A written output of a name. -/
theorem Reads.output {name : String} (hn : Text.isIdentifier name.toList) (trim : Trim) :
    Reads Anything (Markup.output name trim).toList fun l chs => ∃ pos closing,
      chs = [.output ⟨[⟨.name, ⟨pos, name.toList⟩⟩], ⟨.outputEnd, closing⟩⟩] ∧
        l.markers pos = trim := by
  have hbody : name.toList = name.toList ++ [] := by simp
  have hplain := plain_body hbody hn .nil
  refine .of_quiet ?_ (by simp [toList_output, opener]) (fun _ _ _ => trivial) ?_
  · rw [toList_output]
    exact quiet_delimited (.inl rfl) '}' (by decide) (.name hn) _ _
  intro l pre post hl hclean _
  refine ⟨hclean.output (.of_notMem fun h => hplain _ h (by simp)) trim, ?_⟩
  · obtain ⟨ts, closing, hts, hread⟩ := readChunk_output hbody hn .nil Words.nil.phrase trim
      (Text.byteLength pre) post
    obtain rfl := List.map_eq_nil_iff.mp hts
    refine ⟨_, hread, _, closing, rfl, ?_⟩
    rw [toList_output] at hl
    exact markers_of_source (.inl rfl) (.inl rfl) hplain trim hl

end Delimited

/-! ### Text and raw blocks -/

/-- A written text, before a delimiter. -/
theorem Reads.text {content : String} (hne : content ≠ "")
    (hc : ∀ c ∈ ['{', '%', '#'], Text.Lacks '{' c content.toList) :
    Reads Opens content.toList fun l chs => ∃ p : Piece,
      chs = [.data p] ∧ l.dataNode p = .text content := by
  have hne' : content.toList ≠ [] := by simpa using hne
  refine .of_quiet (hc '#' (by simp)) hne' (fun i _ h => h.liftFrom i) ?_
  intro l pre post hl hclean hpost
  refine ⟨hclean.text (hc '%' (by simp)), _, readChunk_text hne' hc hpost _, _, rfl, ?_⟩
  have hafter := isAfterRaw_of_clear hclean.clear (content.toList ++ post)
  rw [Lifted.dataNode, hl, List.append_assoc, Place.at_append]
  simp [hafter, Piece.toString]

/-- A written raw block. -/
theorem Reads.raw {content : String} (hc : Kept "endraw".toList content.toList)
    (hq : Quiet content.toList) (hs : ¬ symbolHead <:+: content.toList)
    (trim endTrim : Trim) :
    Reads Anything (Markup.block "raw" content "endraw" trim endTrim).toList fun l chs =>
      ∃ p : Piece, chs = [.data p] ∧ l.dataNode p = .raw content trim endTrim := by
  have hraw : ∀ trim : Trim, opensRaw (Markup.tag "raw" trim).toList ∧
      Text.byteLength (Markup.tag "raw" trim).toList ≤ rawWindow := by
    rintro ⟨_ | _, _ | _⟩ <;> simp only [toList_tag] <;> decide
  have hquiet : ∀ word ∈ ["raw", "endraw"], ∀ trim, Quiet (Markup.tag word trim).toList := by
    intro word hword trim
    have hident : ∀ word ∈ ["raw", "endraw"], Text.isIdentifier word.toList := by decide
    rw [toList_tag]
    exact quiet_delimited (.inr rfl) '%' (by decide) (.name (hident word hword)) _ _
  have htext : (Markup.block "raw" content "endraw" trim endTrim).toList =
      (Markup.tag "raw" trim).toList ++ content.toList ++ (Markup.tag "endraw" endTrim).toList := by
    simp [Markup.block]
  refine .of_quiet ?_ (by simp [htext, toList_tag, opener]) (fun _ _ _ => trivial) ?_
  · rw [htext]
    exact .append (.append (hquiet _ (by simp) _) hq) (hquiet _ (by simp) _)
  intro l pre post hl _ _
  refine ⟨Clean.raw content trim endTrim, _, readChunk_raw hc trim endTrim _ post, _, rfl, ?_⟩
  have hstart : l.source = pre ++ (Markup.tag "raw" trim).toList ++
      (content.toList ++ ((Markup.tag "endraw" endTrim).toList ++ post)) := by
    simp [hl, htext]
  have hstop : l.source = pre ++ (Markup.tag "raw" trim).toList ++ content.toList ++
      ((Markup.tag "endraw" endTrim).toList ++ post) := by
    simp [hl, htext]
  have hbefore := Place.at_append (pre ++ (Markup.tag "raw" trim).toList)
    (content.toList ++ ((Markup.tag "endraw" endTrim).toList ++ post))
  have hafter := Place.at_append (pre ++ (Markup.tag "raw" trim).toList ++ content.toList)
    ((Markup.tag "endraw" endTrim).toList ++ post)
  rw [← hstart, Text.byteLength_append] at hbefore
  rw [← hstop, Text.byteLength_append, Text.byteLength_append] at hafter
  have hraw := isAfterRaw_of_opensRaw (hraw trim).1 (hraw trim).2 pre
    (content.toList ++ ((Markup.tag "endraw" endTrim).toList ++ post))
  rw [Lifted.dataNode]
  simp only [Piece.stop, hbefore, hafter, hraw, if_true, l.restore_eq_self hs]
  rw [markersBefore_tag (by decide), markersAfter_tag (by decide), String.ofList_toList]

/-! ### Comments -/

/-- The content of a comment with the blanks around it. -/
def commentPad (content : List Char) : List Char :=
  if content = [] then [' '] else ' ' :: content ++ [' ']

/-- What is written between the delimiters of a comment. -/
def commentInner (content : List Char) (left right : Bool) : List Char :=
  (Markup.marker left).toList ++ (commentPad content ++ (Markup.marker right).toList)

theorem toList_commentText (content : String) (left right : Bool) :
    (commentText content ⟨left, false⟩ ⟨false, right⟩).toList =
      "\x7b#".toList ++ commentInner content.toList left right ++ "#\x7d".toList := by
  by_cases h : content = ""
  · simp [commentText, commentInner, commentPad, h]
  · have hempty : content.isEmpty = false := by simpa using h
    simp [commentText, commentInner, commentPad, h, hempty]

/-- The markers and the content of a comment are told apart again. -/
theorem toNode_ofInner (content : List Char) (left right : Bool) :
    (Comment.ofInner (commentInner content left right)).toNode =
      .comment (String.ofList (Text.trim content)) ⟨left, false⟩ ⟨false, right⟩ := by
  have hpad : Text.trim (commentPad content) = Text.trim content := by
    rw [commentPad]
    split
    · next h => rw [h]; decide
    · exact Text.trim_pad content
  have hhead : (commentPad content).head? = some ' ' := by
    rw [commentPad]
    split <;> rfl
  have hlast : (commentPad content).getLast? = some ' ' := by
    rw [commentPad]
    split <;> simp [List.getLast?_cons]
  rw [commentInner, Comment.ofInner, Comment.toNode]
  cases left <;> cases right <;>
    simp [Markup.marker, hpad, hhead, hlast, List.head?_append, List.getLast?_append]

/-- A comment ends where it was written to end. -/
theorem not_infix_commentInner {content : List Char} (h : ¬ ['#', '}'] <:+: content)
    (left right : Bool) : ¬ ['#', '}'] <:+: commentInner content left right := by
  have hmarker : ∀ isSet, Text.Lacks '#' '}' (Markup.marker isSet).toList := by
    rintro (_ | _) <;> exact .of_notMem (by decide)
  have hpad : Text.Lacks '#' '}' (commentPad content) := by
    rw [commentPad]
    split
    · exact .of_notMem (by decide)
    · refine ⟨fun hi => ?_, by simp [List.getLast?_cons]⟩
      rcases Text.pair_infix_append_iff.mp hi with hi | hi | ⟨-, hi⟩
      · rcases Text.pair_infix_append_iff (s := [' ']).mp hi with hi | hi | ⟨hi, -⟩
        · exact absurd hi (by decide)
        · exact h hi
        · exact absurd hi (by decide)
      · exact absurd hi (by decide)
      · exact absurd hi (by decide)
  exact ((hmarker left).append (hpad.append (hmarker right))).1

/-- A written comment leaves the output of its symbol, and stands among the comments. -/
theorem Reads.comment {inner : List Char} (hc : ¬ ['#', '}'] <:+: inner) :
    Reads Anything ("\x7b#".toList ++ inner ++ "#\x7d".toList) fun l chs => ∃ i pos closing,
      chs = [.output ⟨[⟨.name, ⟨pos, commentSymbol i⟩⟩], ⟨.outputEnd, closing⟩⟩] ∧
        l.comments[i]? = some (.ofInner inner) := by
  have hplaceholder : ∀ i, placeholder i =
      (Markup.output (String.ofList (commentSymbol i)) .unset).toList := by
    intro i
    simp [placeholder, toList_output, opener, closer, Markup.marker, Trim.unset]
  refine .of_readChunk (.comment hc) (fun i => by simp [placeholder]) (fun _ _ _ => trivial) ?_
  intro pre l post hl hprefix hclean _
  simp only [hplaceholder] at hl ⊢
  refine ⟨hclean.output ?_ .unset, ?_⟩
  · rw [String.toList_ofList]
    exact .of_notMem fun h => Words.plain_name (isIdentifier_commentSymbol _) _ h (by simp)
  · have hbody : (String.ofList (commentSymbol pre.comments.length)).toList =
        commentSymbol pre.comments.length ++ [] := by simp
    obtain ⟨ts, closing, hts, hread⟩ := readChunk_output hbody (isIdentifier_commentSymbol _) .nil
      Words.nil.phrase .unset (Text.byteLength pre.source) post
    obtain rfl := List.map_eq_nil_iff.mp hts
    refine ⟨_, hread, pre.comments.length, _, closing, rfl, ?_⟩
    obtain ⟨more, hmore⟩ := hprefix
    rw [← hmore]
    simp

end Stencil.Nunjucks

import Mathlib.Data.List.Basic
import Stencil.Proofs.Liquid.Derivation
import Stencil.Proofs.Liquid.Token
import Stencil.Proofs.Source

/-!
# A Liquid tree covers its source

The places that a tree keeps lie one after the other in its source, in tree order: each text, each
output, each tag and the body of each verbatim block. The only places in between are those that a
case distinction leaves out, from its opening tag to its first clause.

The tokens of a source lie end to end, and a derivation rearranges nothing: it only joins the tokens
that a case distinction leaves out into one place.

## Main definitions

* `Liquid.Stretch` : a place of a source, and what stands there.
* `Liquid.Stretch.Lies` : what stands at a place of a source.
* `Liquid.Element.stretches` : the places of a tree, in tree order.
* `Liquid.Tiles` : places that lie end to end.
* `Liquid.Tiling` : what it means that the places of a tree cover its source.

## Main results

* `Liquid.tiles_tokenize` : the tokens of a source lie end to end.
* `Liquid.Derives.refines` : so do the elements that they stand for.
* `Liquid.tiling_of_parse` : the places of a tree cover its source.
-/

namespace Stencil

/-! ### Places of a source -/

/-- An offset lies in a range. -/
def Span.Holds (span : Span) (i : Nat) : Prop :=
  span.start ≤ i ∧ i < span.stop

namespace Piece

/-- A text split where its first part ends. -/
theorem splitAt?_append (s t : List Char) :
    splitAt? (Text.byteLength s) (s ++ t) = some (s, t) := by
  induction s with
  | nil => cases t <;> rfl
  | cons c s ih =>
    have hc := c.utf8Size_pos
    obtain ⟨n, hn⟩ : ∃ n, Text.byteLength (c :: s) = n + 1 :=
      ⟨Text.byteLength (c :: s) - 1, by rw [Text.byteLength]; omega⟩
    have hs : n + 1 - c.utf8Size = Text.byteLength s := by rw [← hn, Text.byteLength]; omega
    have hlt : ¬ n + 1 < c.utf8Size := by rw [← hn, Text.byteLength]; omega
    rw [hn, List.cons_append, splitAt?, if_neg hlt, hs, ih, Option.map_some]

theorem eq_append_of_splitAt? {n : Nat} {cs s t : List Char} (h : splitAt? n cs = some (s, t)) :
    cs = s ++ t ∧ Text.byteLength s = n := by
  fun_induction splitAt? n cs generalizing s t with
  | case1 cs =>
    obtain ⟨rfl, rfl⟩ := Prod.mk.inj (Option.some.inj h)
    exact ⟨rfl, rfl⟩
  | case2 => cases h
  | case3 => cases h
  | case4 n c cs hlt ih =>
    obtain ⟨⟨u, v⟩, hu, he⟩ := Option.map_eq_some_iff.mp h
    obtain ⟨rfl, rfl⟩ := Prod.mk.inj he
    obtain ⟨rfl, hb⟩ := ih hu
    exact ⟨rfl, by rw [Text.byteLength, hb]; omega⟩

/-- A piece that is cut out of a source lies inside it. -/
theorem bounds_of_slice? {source : List Char} {start stop : Nat} {p : Piece}
    (h : slice? source start stop = some p) :
    p.stop = stop ∧ p.stop ≤ Text.byteLength source := by
  unfold slice? at h
  split at h
  · obtain ⟨⟨before, rest⟩, hb, h⟩ := Option.bind_eq_some_iff.mp h
    obtain ⟨⟨text, after⟩, ht, rfl⟩ := Option.map_eq_some_iff.mp h
    obtain ⟨rfl, hstart⟩ := eq_append_of_splitAt? hb
    obtain ⟨rfl, hstop⟩ := eq_append_of_splitAt? ht
    simp only [Piece.stop, Text.byteLength_append]
    omega
  · cases h

namespace Leads

variable {p q : Piece} {s : List Char}

/-- What has been read between two places is what stands there. -/
theorem slice? {source : String} {before : List Char} (h : Leads (.ofString source) before p)
    (h' : Leads p s q) :
    Piece.slice? source.toList p.start q.start = some ⟨p.start, s⟩ := by
  have hp : p.start = Text.byteLength before := by simpa [Piece.ofString] using h.start
  have hsource : source.toList = before ++ (s ++ q.text) := by rw [← h'.text]; exact h.text
  have hq : q.start - p.start = Text.byteLength s := by rw [h'.start]; omega
  rw [Piece.slice?, if_pos (by rw [h'.start]; omega), hsource, hq, hp, splitAt?_append]
  simp only [Option.bind_some, splitAt?_append, Option.map_some]

end Leads

end Piece

namespace Liquid

/-- The character after the brace of an opening delimiter. -/
def Mark.opening : Mark → Char
  | output => '{'
  | tag => '%'

/-- A text between the delimiters of a pair. -/
def Mark.enclose (mark : Mark) (inner : List Char) : List Char :=
  '{' :: mark.opening :: (inner ++ [mark.close, '}'])

/-- A place of a source, and what stands there. -/
inductive Stretch where
  /-- Text outside all delimiters. -/
  | html (text : Piece)
  /-- An output or a tag. -/
  | markup (mark : Mark) (span : Span)
  /-- The body of a verbatim block. -/
  | content (text : Piece)
  /-- What a case distinction leaves out. -/
  | skipped (span : Span)
deriving DecidableEq

namespace Stretch

/-- The offsets of a place. -/
def span : Stretch → Span
  | html text | content text => text.span
  | markup _ span | skipped span => span

/-- A place that the tree keeps. -/
def isKept : Stretch → Bool
  | skipped _ => false
  | _ => true

/-- What stands at a place of a source: text holds no opening delimiter, and markup has its
delimiters at both ends. -/
def Lies (source : List Char) : Stretch → Prop
  | html text => text.text ≠ [] ∧ ¬ ['{', '{'] <:+: text.text ∧ ¬ ['{', '%'] <:+: text.text ∧
      Piece.slice? source text.start text.stop = some text
  | markup mark span => ∃ inner, Piece.slice? source span.start span.stop =
      some ⟨span.start, mark.enclose inner⟩
  | content text => Piece.slice? source text.start text.stop = some text
  | skipped span => span.start ≤ span.stop ∧ span.stop ≤ Text.byteLength source

theorem Lies.bounds {source : List Char} {s : Stretch} (h : s.Lies source) :
    s.span.start ≤ s.span.stop ∧ s.span.stop ≤ Text.byteLength source := by
  cases s with
  | html text => exact ⟨Nat.le_add_right _ _, (Piece.bounds_of_slice? h.2.2.2).2⟩
  | markup mark span =>
    obtain ⟨inner, h⟩ := h
    obtain ⟨hstop, hle⟩ := Piece.bounds_of_slice? h
    rw [hstop] at hle
    exact ⟨Nat.le_trans (Nat.le_add_right _ _) (Nat.le_of_eq hstop), hle⟩
  | content text => exact ⟨Nat.le_add_right _ _, (Piece.bounds_of_slice? h).2⟩
  | skipped span => exact h

end Stretch

/-! ### Places of tokens and elements -/

/-- The place of a tag. -/
def Tag.stretch (t : Tag) : Stretch :=
  .markup .tag t.span

/-- The places of a token. -/
def Token.stretches : Token → List Stretch
  | .html text => [.html text]
  | .output _ span _ => [.markup .output span]
  | .tag t => [t.stretch]
  | .verbatim opening content closing => [opening.stretch, .content content, closing.stretch]

/-- The first tag of a case distinction after its opening tag. -/
def firstTag (whens : List (When Element)) (otherwise : Option (Alternative Element))
    (closing : Tag) : Tag :=
  match whens, otherwise with
  | first :: _, _ => first.tag
  | [], some alternative => alternative.tag
  | [], none => closing

mutual

/-- The places of an element, in tree order: the opening tag of a block, its body, its further tags
with their bodies, and its closing tag. -/
def Element.stretches : Element → List Stretch
  | .html text => [.html text]
  | .output _ span _ => [.markup .output span]
  | .tag t => [t.stretch]
  | .verbatim opening content closing => [opening.stretch, .content content, closing.stretch]
  | .conditional ⟨head, _, body⟩ rest otherwise closing =>
    head.stretch :: Element.allStretches body ++ (Element.clauseStretches rest ++
      (Element.alternativeStretches otherwise ++ [closing.stretch]))
  | .caseOf opening _ whens otherwise closing =>
    opening.stretch ::
      .skipped ⟨opening.span.stop, (firstTag whens otherwise closing).span.start⟩ ::
      (Element.whenStretches whens ++
        (Element.alternativeStretches otherwise ++ [closing.stretch]))
  | .loop opening body otherwise closing =>
    opening.stretch :: Element.allStretches body ++
      (Element.alternativeStretches otherwise ++ [closing.stretch])
  | .capture opening body closing =>
    opening.stretch :: Element.allStretches body ++ [closing.stretch]

/-- The places of a list of elements. -/
def Element.allStretches : List Element → List Stretch
  | [] => []
  | e :: es => Element.stretches e ++ Element.allStretches es

/-- The places of the clauses of a conditional. -/
def Element.clauseStretches : List (Clause Element) → List Stretch
  | [] => []
  | ⟨head, _, body⟩ :: clauses =>
    head.stretch :: Element.allStretches body ++ Element.clauseStretches clauses

/-- The places of the clauses of a case distinction. -/
def Element.whenStretches : List (When Element) → List Stretch
  | [] => []
  | ⟨head, _, body⟩ :: whens =>
    head.stretch :: Element.allStretches body ++ Element.whenStretches whens

/-- The places of an alternative. -/
def Element.alternativeStretches : Option (Alternative Element) → List Stretch
  | none => []
  | some ⟨head, body⟩ => head.stretch :: Element.allStretches body

end

/-! ### Places that lie end to end -/

/-- The places `ss` lie end to end in a source, from the offset `a` to the offset `b`. -/
def Tiles (source : List Char) : Nat → List Stretch → Nat → Prop
  | a, [], b => a = b
  | a, s :: ss, b => s.span.start = a ∧ s.Lies source ∧ Tiles source s.span.stop ss b

namespace Tiles

variable {source : List Char} {a b c : Nat} {s : Stretch} {ss ss' : List Stretch}

theorem append_iff :
    Tiles source a (ss ++ ss') c ↔ ∃ b, Tiles source a ss b ∧ Tiles source b ss' c := by
  induction ss generalizing a with
  | nil => simp [Tiles]
  | cons s ss ih => simp only [List.cons_append, Tiles, ih]; grind

theorem append (h : Tiles source a ss b) (h' : Tiles source b ss' c) :
    Tiles source a (ss ++ ss') c :=
  append_iff.mpr ⟨b, h, h'⟩

theorem le (h : Tiles source a ss b) : a ≤ b := by
  induction ss generalizing a with
  | nil => exact Nat.le_of_eq h
  | cons s ss ih =>
    obtain ⟨rfl, hs, hss⟩ := h
    exact Nat.le_trans hs.bounds.1 (ih hss)

theorem lies (h : Tiles source a ss b) : ∀ s ∈ ss, s.Lies source := by
  induction ss generalizing a with
  | nil => simp
  | cons s ss ih => exact List.forall_mem_cons.mpr ⟨h.2.1, ih h.2.2⟩

theorem le_start (h : Tiles source a ss b) : ∀ s ∈ ss, a ≤ s.span.start := by
  induction ss generalizing a with
  | nil => simp
  | cons s ss ih =>
    obtain ⟨rfl, hs, hss⟩ := h
    exact List.forall_mem_cons.mpr
      ⟨Nat.le_refl _, fun s' hs' => Nat.le_trans hs.bounds.1 (ih hss s' hs')⟩

/-- Each place ends before all later ones begin. -/
theorem pairwise (h : Tiles source a ss b) :
    ss.Pairwise fun s s' => s.span.stop ≤ s'.span.start := by
  induction ss generalizing a with
  | nil => exact .nil
  | cons s ss ih => exact .cons h.2.2.le_start (ih h.2.2)

/-- Every offset from the first to the last one belongs to a place. -/
theorem exists_mem (h : Tiles source a ss b) {i : Nat} (ha : a ≤ i) (hb : i < b) :
    ∃ s ∈ ss, s.span.start ≤ i ∧ i < s.span.stop := by
  induction ss generalizing a with
  | nil => exact absurd (h ▸ ha) (Nat.not_le.mpr hb)
  | cons s ss ih =>
    obtain ⟨rfl, hs, hss⟩ := h
    by_cases hi : i < s.span.stop
    · exact ⟨s, List.mem_cons_self, ha, hi⟩
    · obtain ⟨s', hs', h⟩ := ih hss (Nat.not_lt.mp hi)
      exact ⟨s', List.mem_cons_of_mem s hs', h⟩

end Tiles

/-! ### Tokens lie end to end -/

variable {p q rest : Piece} {before : List Char} {source : String}

theorem eq_append_of_untilClose {close : Char} {quote : Option Char} {cs inner rest : List Char}
    (h : untilClose close quote cs = some (inner, rest)) :
    cs = inner ++ close :: '}' :: rest := by
  fun_induction untilClose close quote cs generalizing inner rest with
  | case1 => cases h
  | case2 q c cs ih =>
    obtain ⟨⟨i, r⟩, hi, he⟩ := Option.map_eq_some_iff.mp h
    obtain ⟨rfl, rfl⟩ := Prod.mk.inj he
    simp [ih hi]
  | case3 q c cs _ ih =>
    obtain ⟨⟨i, r⟩, hi, he⟩ := Option.map_eq_some_iff.mp h
    obtain ⟨rfl, rfl⟩ := Prod.mk.inj he
    simp [ih hi]
  | case4 c cs hc =>
    cases cs with
    | nil => simp at hc
    | cons d ds => simp_all
  | case5 c cs _ ih =>
    obtain ⟨⟨i, r⟩, hi, he⟩ := Option.map_eq_some_iff.mp h
    obtain ⟨rfl, rfl⟩ := Prod.mk.inj he
    simp [ih hi]

theorem byteLength_close (mark : Mark) : Text.byteLength [mark.close, '}'] = 2 := by
  cases mark <;> rfl

theorem leads_delimited? {mark : Mark} {d : Delimited} (h : delimited? mark p = some d) :
    ∃ inner, Piece.Leads p (inner ++ [mark.close, '}']) d.rest := by
  obtain ⟨⟨i, r⟩, hi, rfl⟩ := Option.map_eq_some_iff.mp h
  obtain ⟨marker, -, hm⟩ := Piece.Leads.dropMarker p
  have hr : Piece.Leads p.dropMarker (i ++ [mark.close, '}'])
      ⟨p.dropMarker.start + Text.byteLength i + 2, r⟩ :=
    ⟨by simp [eq_append_of_untilClose hi],
      by rw [Text.byteLength_append, byteLength_close, Nat.add_assoc]⟩
  exact ⟨marker ++ i, by rw [List.append_assoc]; exact hm.trans hr⟩

/-- The opening delimiter leads to what stands inside. -/
theorem leads_open? {mark : Mark} {cs : List Char} (h : open? p.text = some (mark, cs)) :
    Piece.Leads p ['{', mark.opening] ⟨p.start + 2, cs⟩ := by
  unfold open? at h
  split at h
  · next ht =>
    obtain ⟨rfl, rfl⟩ := Prod.mk.inj (Option.some.inj h)
    exact ⟨ht, rfl⟩
  · next ht =>
    obtain ⟨rfl, rfl⟩ := Prod.mk.inj (Option.some.inj h)
    exact ⟨ht, rfl⟩
  · cases h

/-- A delimiter pair is read from its opening delimiter on. -/
theorem leads_enclose {mark : Mark} {d : Delimited}
    (ho : Piece.Leads p ['{', mark.opening] q) (h : delimited? mark q = some d) :
    ∃ inner, Piece.Leads p (mark.enclose inner) d.rest := by
  obtain ⟨inner, hi⟩ := leads_delimited? h
  exact ⟨inner, ho.trans hi⟩

theorem leads_readTag {t : Tag} (ho : Piece.Leads p ['{', '%'] q)
    (h : readTag p.start q = .ok (t, rest)) :
    t.span = ⟨p.start, rest.start⟩ ∧ ∃ inner, Piece.Leads p (Mark.tag.enclose inner) rest := by
  unfold readTag at h
  split at h
  · cases h
  · next d hd =>
    obtain ⟨t, ht, he⟩ := map_eq_ok.mp h
    obtain ⟨rfl, rfl⟩ := Prod.mk.inj he
    refine ⟨?_, leads_enclose ho hd⟩
    unfold Tag.ofDelimited at ht
    simp only at ht
    split at ht
    · cases ht
    · cases ht
      rfl

/-- A tag that is searched for is read after the text before it. -/
theorem leads_findTag {name : List Char} {start : Nat} {cs : List Char} {f : Found}
    (h : findTag name start cs = .ok (some f)) :
    ∃ q, Piece.Leads ⟨start, cs⟩ f.before q ∧ f.tag.span = ⟨q.start, f.rest.start⟩ ∧
      ∃ inner, Piece.Leads q (Mark.tag.enclose inner) f.rest := by
  fun_induction findTag name start cs generalizing f with
  | case1 start cs ih =>
    obtain ⟨g, hg, rfl⟩ := Found.prepend_eq_ok h
    obtain ⟨q, hq, ht⟩ := ih hg
    exact ⟨q, Piece.Leads.trans (q := ⟨start + 2, cs⟩) ⟨rfl, rfl⟩ hq, ht⟩
  | case2 start cs _ =>
    obtain ⟨⟨t, rest⟩, hr, he⟩ := map_eq_ok.mp h
    cases he
    exact ⟨_, .refl _, leads_readTag (p := ⟨start, '{' :: '%' :: cs⟩) ⟨rfl, rfl⟩ hr⟩
  | case3 start cs _ ih =>
    obtain ⟨g, hg, rfl⟩ := Found.prepend_eq_ok h
    obtain ⟨q, hq, ht⟩ := ih hg
    exact ⟨q, Piece.Leads.trans (q := ⟨start + 2, cs⟩) ⟨rfl, rfl⟩ hq, ht⟩
  | case4 start c cs _ _ ih =>
    obtain ⟨g, hg, rfl⟩ := Found.prepend_eq_ok h
    obtain ⟨q, hq, ht⟩ := ih hg
    exact ⟨q, Piece.Leads.trans (q := ⟨start + c.utf8Size, cs⟩) ⟨rfl, rfl⟩ hq, ht⟩
  | case5 => cases h

/-- The text up to the next opening delimiter. -/
theorem lies_readHtml (hb : Piece.Leads (.ofString source) before p) (hp : p.text ≠ [])
    (ho : open? p.text = none) :
    (Stretch.html (p.splitBefore isOpen).1).Lies source.toList := by
  have hl := Piece.Leads.splitBefore isOpen p
  have hstop : (p.splitBefore isOpen).2.start = (p.splitBefore isOpen).1.stop := rfl
  have hlacks : ∀ c ∈ ['{', '%'], ¬ ['{', c] <:+: (p.splitBefore isOpen).1.text := by
    rintro c hc ⟨s, t, hst⟩
    rw [List.append_assoc] at hst
    have hopen := Text.stop_splitBefore hst.symm (by simp)
    simp only [List.mem_cons, List.not_mem_nil, or_false] at hc
    rcases hc with rfl | rfl <;> cases hopen
  refine ⟨?_, hlacks '{' (by simp), hlacks '%' (by simp), hstop ▸ hb.slice? hl⟩
  intro he
  have hlt := length_readHtml hp ho
  have hlen := congrArg List.length hl.text
  rw [he, List.nil_append] at hlen
  exact absurd hlt (by simp only [readHtml]; omega)

/-- The place of an output or a tag. -/
theorem lies_markup {mark : Mark} {span : Span} (hb : Piece.Leads (.ofString source) before p)
    {inner : List Char} (h : Piece.Leads p (mark.enclose inner) rest)
    (hs : span = ⟨p.start, rest.start⟩) : (Stretch.markup mark span).Lies source.toList :=
  ⟨inner, by rw [hs]; exact hb.slice? h⟩

theorem tiles_readVerbatim {t : Tag} {token : Token} (hb : Piece.Leads (.ofString source) before p)
    (h : readVerbatim t p = .ok (token, rest)) :
    (∃ s, Piece.Leads p s rest) ∧ ∃ content closing, token = .verbatim t content closing ∧
      Tiles source.toList p.start [.content content, closing.stretch] rest.start := by
  unfold readVerbatim at h
  split at h
  · cases h
  · cases h
  · next f hf =>
    obtain ⟨rfl, rfl⟩ := Prod.mk.inj (Except.ok.inj h)
    obtain ⟨q, hq, hspan, inner, hi⟩ := leads_findTag hf
    have hstop : q.start = (⟨p.start, f.before⟩ : Piece).stop := hq.start
    have hcontent : (Stretch.content ⟨p.start, f.before⟩).Lies source.toList := by
      rw [Stretch.Lies, ← hstop]
      exact hb.slice? hq
    refine ⟨⟨_, hq.trans hi⟩, _, _, rfl, rfl, hcontent, ?_, ?_, ?_⟩
    · exact (congrArg Span.start hspan).trans hstop
    · exact lies_markup (hb.trans hq) hi hspan
    · exact congrArg Span.stop hspan

/-- A token lies where it is read, up to the source after it. -/
theorem tiles_readToken {t : Token} (hb : Piece.Leads (.ofString source) before p)
    (hp : p.text ≠ []) (h : readToken p = .ok (t, rest)) :
    (∃ s, Piece.Leads p s rest) ∧ Tiles source.toList p.start t.stretches rest.start := by
  unfold readToken at h
  split at h
  · next cs ho =>
    unfold readOutput at h
    split at h
    · cases h
    · next d hd =>
      obtain ⟨rfl, rfl⟩ := Prod.mk.inj (Except.ok.inj h)
      obtain ⟨inner, hi⟩ := leads_enclose (leads_open? ho) hd
      exact ⟨⟨_, hi⟩, rfl, lies_markup hb hi rfl, rfl⟩
  · next cs ho =>
    unfold readTagToken at h
    split at h
    · cases h
    · next tag r hr =>
      obtain ⟨hspan, inner, hi⟩ := leads_readTag (leads_open? ho) hr
      have htag : Tiles source.toList p.start [tag.stretch] r.start :=
        ⟨congrArg Span.start hspan, lies_markup hb hi hspan, congrArg Span.stop hspan⟩
      split at h
      · obtain ⟨⟨s, hs⟩, content, closing, rfl, ht⟩ := tiles_readVerbatim (hb.trans hi) h
        exact ⟨⟨_, hi.trans hs⟩, htag.append ht⟩
      · obtain ⟨rfl, rfl⟩ := Prod.mk.inj (Except.ok.inj h)
        exact ⟨⟨_, hi⟩, htag⟩
  · next ho =>
    obtain ⟨rfl, rfl⟩ := Prod.mk.inj (Except.ok.inj h)
    exact ⟨⟨_, .splitBefore isOpen p⟩, rfl, lies_readHtml hb hp ho, rfl⟩

theorem tiles_tokenizePiece {ts : List Token} (hb : Piece.Leads (.ofString source) before p)
    (h : tokenizePiece p = .ok ts) :
    Tiles source.toList p.start (ts.flatMap Token.stretches) p.stop := by
  fun_induction tokenizePiece p generalizing before ts with
  | case1 p hp =>
    cases h
    simp [Tiles, Piece.stop, hp, Text.byteLength]
  | case2 | case3 => cases h
  | case4 p hp t rest ht us hus ih =>
    cases h
    obtain ⟨⟨s, hs⟩, htiles⟩ := tiles_readToken hb hp ht
    have hstop : rest.stop = p.stop := by
      rw [Piece.stop, Piece.stop, hs.start, hs.text, Text.byteLength_append, Nat.add_assoc]
    exact htiles.append (hstop ▸ ih (hb.trans hs) hus)

/-- The tokens of a source lie end to end. -/
theorem tiles_tokenize {ts : List Token} (h : tokenize source = .ok ts) :
    Tiles source.toList 0 (ts.flatMap Token.stretches) (Text.byteLength source.toList) := by
  have := tiles_tokenizePiece (.refl (.ofString source)) h
  simpa [Piece.ofString, Piece.stop] using this

/-! ### Derived elements lie end to end -/

/-- Wherever the places `ss` lie end to end, the places `ss'` do. -/
def Refines (ss ss' : List Stretch) : Prop :=
  ∀ source a b, Tiles source a ss b → Tiles source a ss' b

theorem Refines.refl (ss : List Stretch) : Refines ss ss :=
  fun _ _ _ => id

theorem Refines.append {ss ss' us us' : List Stretch} (h : Refines ss ss') (h' : Refines us us') :
    Refines (ss ++ us) (ss' ++ us') := by
  intro source a c ht
  obtain ⟨b, hs, hu⟩ := Tiles.append_iff.mp ht
  exact (h source a b hs).append (h' source b c hu)

theorem exists_stretch_firstTag (whens : List (When Element))
    (otherwise : Option (Alternative Element)) (closing : Tag) :
    ∃ ss, Element.whenStretches whens ++ (Element.alternativeStretches otherwise ++
      [closing.stretch]) = (firstTag whens otherwise closing).stretch :: ss := by
  cases whens with
  | cons => exact ⟨_, rfl⟩
  | nil => cases otherwise <;> exact ⟨_, rfl⟩

/-- What a case distinction leaves out lies between its opening tag and its next one. -/
theorem Refines.skip {opening closing : Tag} {whens : List (When Element)}
    {otherwise : Option (Alternative Element)} {arms : List Stretch} (ss : List Stretch)
    (h : Refines arms (Element.whenStretches whens ++
      (Element.alternativeStretches otherwise ++ [closing.stretch]))) :
    Refines (opening.stretch :: ss ++ arms)
      (opening.stretch ::
        .skipped ⟨opening.span.stop, (firstTag whens otherwise closing).span.start⟩ ::
        (Element.whenStretches whens ++
          (Element.alternativeStretches otherwise ++ [closing.stretch]))) := by
  intro source a c ht
  obtain ⟨b, ⟨hstart, hlies, hs⟩, ha⟩ := Tiles.append_iff.mp ht
  have harms := h source b c ha
  obtain ⟨us, hus⟩ := exists_stretch_firstTag whens otherwise closing
  rw [hus] at harms ⊢
  obtain ⟨rfl, hl, hrest⟩ := harms
  exact ⟨hstart, hlies, rfl, ⟨hs.le, Nat.le_trans hl.bounds.1 hl.bounds.2⟩, rfl, hl, hrest⟩

mutual

/-- Elements lie where the tokens lie that they stand for. -/
theorem Derives.refines {ts : List Token} {es : List Element} (h : Derives ts es) :
    Refines (ts.flatMap Token.stretches) (Element.allStretches es) := by
  match h with
  | .nil => exact .refl []
  | .html text hs => exact .append (.refl [.html text]) hs.refines
  | .output _ span _ hs => exact .append (.refl [.markup .output span]) hs.refines
  | .verbatim opening content closing hs =>
    exact .append (.refl [opening.stretch, .content content, closing.stretch]) hs.refines
  | .tag _ _ hs => exact .append (.refl [_]) hs.refines
  | .conditional _ _ hb ha hs =>
    rw [List.flatMap_append, List.flatMap_append]
    exact .append (.append (.append (.refl [_]) hb.refines) ha.refines) hs.refines
  | .caseOf _ _ _ ha hs =>
    rw [List.flatMap_append, List.flatMap_append]
    exact .append (.skip _ ha.refines) hs.refines
  | .loop _ hb ha hs =>
    rw [List.flatMap_append, List.flatMap_append]
    exact .append (.append (.append (.refl [_]) hb.refines) ha.refines) hs.refines
  | .capture _ hb _ hs =>
    rw [List.append_cons, List.flatMap_append, List.flatMap_append]
    exact .append (.append (.append (.refl [_]) hb.refines) (.refl [_])) hs.refines

theorem DerivesClauses.refines {name : String} {ts : List Token} {clauses : List (Clause Element)}
    {otherwise : Option (Alternative Element)} {closing : Tag}
    (h : DerivesClauses name ts clauses otherwise closing) :
    Refines (ts.flatMap Token.stretches) (Element.clauseStretches clauses ++
      (Element.alternativeStretches otherwise ++ [closing.stretch])) := by
  match h with
  | .last h => exact h.refines
  | .clause _ _ hb hs =>
    rw [List.flatMap_append, Element.clauseStretches, List.append_assoc]
    exact .append (.append (.refl [_]) hb.refines) hs.refines

theorem DerivesWhens.refines {ts : List Token} {whens : List (When Element)}
    {otherwise : Option (Alternative Element)} {closing : Tag}
    (h : DerivesWhens ts whens otherwise closing) :
    Refines (ts.flatMap Token.stretches) (Element.whenStretches whens ++
      (Element.alternativeStretches otherwise ++ [closing.stretch])) := by
  match h with
  | .last h => exact h.refines
  | .clause _ _ hb hs =>
    rw [List.flatMap_append, Element.whenStretches, List.append_assoc]
    exact .append (.append (.refl [_]) hb.refines) hs.refines

theorem DerivesEnd.refines {name : String} {ts : List Token}
    {otherwise : Option (Alternative Element)} {closing : Tag}
    (h : DerivesEnd name ts otherwise closing) :
    Refines (ts.flatMap Token.stretches)
      (Element.alternativeStretches otherwise ++ [closing.stretch]) := by
  match h with
  | .closing _ => exact .refl [_]
  | .otherwise _ hb _ =>
    rw [List.flatMap_append]
    exact .append (.append (.refl [_]) hb.refines) (.refl [_])

end

/-! ### Trees cover their sources -/

/-- The places that a tree keeps, in tree order. -/
def Element.kept (es : List Element) : List Stretch :=
  (Element.allStretches es).filter Stretch.isKept

/-- The places that a tree leaves out: each lies between the opening tag of a case distinction and
the next tag of that case distinction. -/
def Element.gaps (es : List Element) : List Span :=
  (Element.allStretches es).filterMap fun
    | .skipped span => some span
    | _ => none

/-- The places `ss` cover a source up to some gaps. -/
structure Tiling (source : List Char) (ss : List Stretch) (gaps : List Span) : Prop where
  /-- They lie inside the source. -/
  bounds : ∀ s ∈ ss, s.span.start ≤ s.span.stop ∧ s.span.stop ≤ Text.byteLength source
  /-- Each ends before all later ones begin. -/
  ordered : ss.Pairwise fun s s' => s.span.stop ≤ s'.span.start
  /-- No text is empty or holds an opening delimiter. -/
  html : ∀ text, .html text ∈ ss →
    text.text ≠ [] ∧ ¬ ['{', '{'] <:+: text.text ∧ ¬ ['{', '%'] <:+: text.text
  /-- The source has there what they say. -/
  lies : ∀ s ∈ ss, s.Lies source
  /-- Every byte of the source lies in one of them or in a gap. -/
  covered : ∀ i < Text.byteLength source,
    (∃ s ∈ ss, s.span.Holds i) ∨ ∃ gap ∈ gaps, gap.Holds i

/-- The tree of a source covers it but for what its case distinctions leave out. -/
theorem tiling_of_parse {source : String} {es : List Element} (h : parse source = .ok es) :
    Tiling source.toList (Element.kept es) (Element.gaps es) := by
  obtain ⟨ts, ht, he⟩ := bind_eq_ok.mp h
  have htiles := (derives_of_ofTokens he).refines _ _ _ (tiles_tokenize ht)
  have hlies : ∀ s ∈ Element.kept es, s.Lies source.toList := fun s hs =>
    htiles.lies s (List.mem_filter.mp hs |>.1)
  refine ⟨fun s hs => (hlies s hs).bounds, htiles.pairwise.filter _, ?_, hlies, ?_⟩
  · intro text htext
    obtain ⟨hne, houtput, htag, -⟩ := hlies _ htext
    exact ⟨hne, houtput, htag⟩
  · intro i hi
    obtain ⟨s, hs, hmem⟩ := htiles.exists_mem (Nat.zero_le i) hi
    cases s with
    | skipped span => exact .inr ⟨span, List.mem_filterMap.mpr ⟨_, hs, rfl⟩, hmem⟩
    | html | markup | content => exact .inl ⟨_, List.mem_filter.mpr ⟨hs, rfl⟩, hmem⟩

/-- The text before the first clause of a case distinction is left out. -/
theorem tiling_of_parse_case :
    let source := "é\x7b% case x %\x7d b \x7b% when 1 %\x7dc\x7b% endcase %\x7d"
    ∃ es, parse source = .ok es ∧ Element.gaps es = [⟨14, 17⟩] ∧
      Tiling source.toList (Element.kept es) [⟨14, 17⟩] := by
  intro source
  have hgaps : (parse source).map Element.gaps = .ok [⟨14, 17⟩] := by decide +kernel
  obtain ⟨es, hp, hg⟩ := map_eq_ok.mp hgaps
  exact ⟨es, hp, hg, hg ▸ tiling_of_parse hp⟩

end Liquid

end Stencil

import Stencil.Proofs.Nunjucks.Items
import Stencil.Proofs.Nunjucks.Placement

/-!
# Offsets in a Nunjucks tree

A tree keeps the offset of every text and of the name of every tag, of the tags that go on with a
block and close it as well. Each of them is an offset of the source, and what the tree says is there
is there: the text itself, or the name of a tag after its opening delimiter, a marker and blanks.

All clauses of a conditional share the tag that closes it, since a conditional has one.

## Main definitions

* `Nunjucks.TextAt`, `Nunjucks.TagAt` : what stands at an offset of a source.
* `Nunjucks.Element.Anchored` : the offsets of an element, at any depth, are those of what they
  name.

## Main results

* `Nunjucks.anchored_of_parse` : the offsets of a tree are those of what they name.
-/

namespace Stencil.Nunjucks

/-- The text stands in the source at its offset. -/
def TextAt (source : List Char) (text : Piece) : Prop :=
  ∃ before rest, source = before ++ text.text ++ rest ∧ text.start = Text.byteLength before

/-- One of the words is the whole name of a tag at an offset of the source. Before it there are only
blanks, at most one marker and the opening delimiter. -/
def TagAt (source : List Char) (words : List String) (pos : Nat) : Prop :=
  ∃ word ∈ words, ∃ before marker blanks rest,
    source = before ++ ['{', '%'] ++ marker ++ blanks ++ word.toList ++ rest ∧
    (marker = [] ∨ marker = ['-']) ∧ (∀ c ∈ blanks, Text.isBlank c) ∧
    (∀ c ∈ rest.head?, Text.isNameChar c = false) ∧
    pos = Text.byteLength (before ++ ['{', '%'] ++ marker ++ blanks)

/-- The offsets of an element, and of all elements in it, are those of what they name. -/
inductive Element.Anchored (source : List Char) : Element → Prop
  | data {text} (h : TextAt source text) : Anchored source (.data text)
  | output {pos value} : Anchored source (.output pos value)
  | conditional {first rest otherwise endPos} (hif : TagAt source ["if"] (Clause.pos first))
      (helif : ∀ c ∈ rest, TagAt source ["elif", "elseif"] (Clause.pos c))
      (helse : ∀ a ∈ otherwise, TagAt source ["else"] (Alternative.pos a))
      (hend : TagAt source ["endif"] endPos) (hfirst : ∀ e ∈ Clause.body first, Anchored source e)
      (hrest : ∀ c ∈ rest, ∀ e ∈ Clause.body c, Anchored source e)
      (hotherwise : ∀ a ∈ otherwise, ∀ e ∈ Alternative.body a, Anchored source e) :
      Anchored source (.conditional first rest otherwise endPos)
  | loop {pos names collection body otherwise endPos} (hfor : TagAt source ["for"] pos)
      (helse : ∀ a ∈ otherwise, TagAt source ["else"] (Alternative.pos a))
      (hend : TagAt source ["endfor"] endPos) (hbody : ∀ e ∈ body, Anchored source e)
      (hotherwise : ∀ a ∈ otherwise, ∀ e ∈ Alternative.body a, Anchored source e) :
      Anchored source (.loop pos names collection body otherwise endPos)
  | assign {pos targets value} (h : TagAt source ["set"] pos) :
      Anchored source (.assign pos targets value)
  | capture {pos targets body endPos} (hset : TagAt source ["set"] pos)
      (hend : TagAt source ["endset"] endPos) (hbody : ∀ e ∈ body, Anchored source e) :
      Anchored source (.capture pos targets body endPos)
  | subtemplate {pos template ignoreMissing} (h : TagAt source ["include"] pos) :
      Anchored source (.subtemplate pos template ignoreMissing)

/-! ### Trees by their items -/

/-- The spellings of the word of a tag. -/
def spellings (word : String) : List String :=
  if word = "elif" then ["elif", "elseif"] else [word]

theorem toString_mem_spellings (name : Piece) : name.toString ∈ spellings (tagWord name) := by
  by_cases h : name.toString = "elseif"
  · simp [tagWord, h, spellings]
  · simp only [tagWord, beq_iff_eq, if_neg h, spellings]
    split <;> simp [*]

/-- The offset of an item is that of what it names. -/
def Item.Anchored (source : List Char) : Item → Prop
  | .data text => TextAt source text
  | .output .. => True
  | .tag word pos _ _ => TagAt source (spellings word) pos

variable {source : List Char}

mutual

theorem Element.anchored_of_items : (e : Element) →
    (∀ i ∈ e.items, i.Anchored source) → e.Anchored source
  | .data text, h => .data (h (.data text) (by simp [Element.items]))
  | .output .., _ => .output
  | .conditional ⟨pos, condition, body⟩ rest otherwise endPos, h => by
    simp only [Element.items, List.forall_mem_cons, List.forall_mem_append] at h
    obtain ⟨hif, hbody, hrest, hother, hend, -⟩ := h
    have hclauses := Element.anchored_of_clauseItems rest hrest
    have halternative := Element.anchored_of_alternativeItems otherwise hother
    exact .conditional hif (fun c hc => (hclauses c hc).1) (fun a ha => (halternative a ha).1) hend
      (Element.anchored_of_allItems body hbody) (fun c hc => (hclauses c hc).2)
      fun a ha => (halternative a ha).2
  | .loop pos names collection body otherwise endPos, h => by
    simp only [Element.items, List.forall_mem_cons, List.forall_mem_append] at h
    obtain ⟨hfor, hbody, hother, hend, -⟩ := h
    have halternative := Element.anchored_of_alternativeItems otherwise hother
    exact .loop hfor (fun a ha => (halternative a ha).1) hend
      (Element.anchored_of_allItems body hbody) fun a ha => (halternative a ha).2
  | .assign pos targets value, h =>
    .assign (h (.tag "set" pos targets [value]) (by simp [Element.items]))
  | .capture pos targets body endPos, h => by
    simp only [Element.items, List.forall_mem_cons, List.forall_mem_append] at h
    obtain ⟨hset, hbody, hend, -⟩ := h
    exact .capture hset hend (Element.anchored_of_allItems body hbody)
  | .subtemplate pos template _, h =>
    .subtemplate (h (.tag "include" pos [] [template]) (by simp [Element.items]))

theorem Element.anchored_of_allItems : (es : List Element) →
    (∀ i ∈ Element.allItems es, i.Anchored source) → ∀ e ∈ es, e.Anchored source
  | [], _ => List.forall_mem_nil _
  | e :: es, h => by
    rw [Element.allItems, List.forall_mem_append] at h
    exact List.forall_mem_cons.mpr
      ⟨Element.anchored_of_items e h.1, Element.anchored_of_allItems es h.2⟩

theorem Element.anchored_of_clauseItems : (clauses : List (Clause Element)) →
    (∀ i ∈ Element.clauseItems clauses, i.Anchored source) →
    ∀ c ∈ clauses, TagAt source ["elif", "elseif"] c.pos ∧ ∀ e ∈ c.body, e.Anchored source
  | [], _ => List.forall_mem_nil _
  | ⟨pos, condition, body⟩ :: clauses, h => by
    rw [Element.clauseItems, List.forall_mem_cons, List.forall_mem_append] at h
    exact List.forall_mem_cons.mpr ⟨⟨h.1, Element.anchored_of_allItems body h.2.1⟩,
      Element.anchored_of_clauseItems clauses h.2.2⟩

theorem Element.anchored_of_alternativeItems : (otherwise : Option (Alternative Element)) →
    (∀ i ∈ Element.alternativeItems otherwise, i.Anchored source) →
    ∀ a ∈ otherwise, TagAt source ["else"] a.pos ∧ ∀ e ∈ a.body, e.Anchored source
  | none, _ => by simp
  | some ⟨pos, body⟩, h => by
    rw [Element.alternativeItems, List.forall_mem_cons] at h
    rintro _ ⟨⟩
    exact ⟨h.1, Element.anchored_of_allItems body h.2⟩

end

/-! ### Chunks in their places -/

/-- The text of a chunk stands in the source that the chunk is read from. -/
theorem leads_of_data_mem_readChunk {p text : Piece} (h : Chunk.data text ∈ (readChunk p).1) :
    ∃ s rest, Piece.Leads p s ⟨text.start, text.text ++ rest⟩ := by
  unfold readChunk at h
  split at h
  · simp only [readComment] at h
    split at h <;> simp at h
  · simp [readOutput] at h
  · next cs ho =>
    simp only [readTag, tagChunk] at h
    split at h
    · simp at h
    split at h
    · simp at h
    next body rest hbody =>
    obtain rfl := Chunk.data.inj (List.mem_singleton.mp h)
    obtain ⟨s, hs⟩ := leads_inside ho
    obtain ⟨s', hs'⟩ := leads_lex (Piece.dropMarker ⟨p.start + 2, cs⟩)
    have hlead := hs.trans hs'
    obtain ⟨s'', c, -, hbodyLeads⟩ := leads_verbatimBody hbody
    have hstart := start_of_verbatimBody hbody
    refine ⟨s ++ s', '{' :: '%' :: s'' ++ [c, '}'] ++ rest.text, ?_, ?_⟩
    · rw [hlead.text, hbodyLeads.text]
      simp
    · rw [hstart, hlead.start]
  · obtain rfl := Chunk.data.inj (List.mem_singleton.mp h)
    refine ⟨[], (p.splitBefore isOpen).2.text, ?_, rfl⟩
    exact (Piece.Leads.splitBefore isOpen p).text

/-- A tag is read from its opening delimiter on. -/
theorem open?_of_tag_mem_readChunk {p : Piece} {inside : Inside}
    (h : Chunk.tag inside ∈ (readChunk p).1) :
    ∃ cs, open? p.text = some (.tag, cs) ∧
      inside = (lex (Piece.dropMarker ⟨p.start + 2, cs⟩)).1 := by
  obtain ⟨m, cs, hm, ho, rfl⟩ := open?_of_mem_readChunk h rfl
  cases m with
  | comment => exact absurd rfl hm
  | tag => exact ⟨cs, ho, rfl⟩
  | output =>
    rw [readChunk, ho] at h
    simp [readOutput] at h

/-- A name goes on as far as it can. -/
theorem Token.Begins.head?_of_name {t : Token} {p q : Piece} (h : t.Begins p q)
    (hk : t.kind = .name) : ∀ c ∈ q.text.head?, Text.isNameChar c = false := by
  intro c hc
  have hmax := h.name_eq hk
  have hall : ∀ d ∈ t.text.text, Text.isNameChar d := by
    rw [hmax]
    exact fun d hd => List.mem_takeWhile_imp hd
  rw [h.leads.text, List.takeWhile_append_of_pos hall, List.self_eq_append_right] at hmax
  obtain ⟨r, hr⟩ := List.head?_eq_some_iff.mp hc
  rw [hr, List.takeWhile_cons] at hmax
  split at hmax
  · cases hmax
  · next hchar => exact Bool.eq_false_iff.mpr hchar

/-- A tag that begins with a name has that name at its offset. -/
theorem tagAt_of_tokens {p : Piece} {s cs : List Char} (hp : Piece.Leads ⟨0, source⟩ s p)
    (ho : open? p.text = some (.tag, cs)) {name : Piece} {ts : List Token}
    (hname : (lex (Piece.dropMarker ⟨p.start + 2, cs⟩)).1.tokens = ⟨.name, name⟩ :: ts) :
    TagAt source (spellings (tagWord name)) name.start := by
  obtain ⟨c, hc, hopen⟩ := leads_open? ho
  obtain rfl : c = '%' := by simpa using hc
  obtain ⟨marker, hmarker, hdrop⟩ := Piece.Leads.dropMarker ⟨p.start + 2, cs⟩
  obtain ⟨q, hbegins, hstart, -⟩ := begins_of_tokens hname
  have hleads := ((hp.trans hopen).trans hdrop).trans (.trimStart _)
  refine ⟨name.toString, toString_mem_spellings name, s, marker,
    List.takeWhile Text.isBlank (Piece.dropMarker ⟨p.start + 2, cs⟩).text, q.text, ?_, hmarker,
    fun c hc => List.mem_takeWhile_imp hc, hbegins.head?_of_name rfl, ?_⟩
  · have htext := hleads.text
    rw [hbegins.leads.text] at htext
    simpa [Piece.toString] using htext
  · rw [hstart, hleads.start, Nat.zero_add]

theorem anchored_of_mem_sitedChunks {p : Piece} {chunk : Chunk} {item : Item}
    (h : (p, chunk) ∈ sitedChunks ⟨0, source⟩) (hi : Item.Of chunk item) :
    item.Anchored source := by
  obtain ⟨hc, s, hs⟩ := leads_of_mem_sitedChunks h
  cases hi with
  | data text =>
    obtain ⟨s', rest, hs'⟩ := leads_of_data_mem_readChunk hc
    have hleads := hs.trans hs'
    refine ⟨s ++ s', rest, by simpa using hleads.text, by simpa using hleads.start⟩
  | output => trivial
  | tag hname hitem =>
    obtain ⟨-, -, -⟩ := hitem
    obtain ⟨cs, ho, rfl⟩ := open?_of_tag_mem_readChunk hc
    exact tagAt_of_tokens hs ho hname

/-- The offsets of a tree are those of what they name, at any depth. -/
theorem anchored_of_parse {es : List Element} (h : parse source = .ok es) :
    ∀ e ∈ es, e.Anchored source := by
  have hitems := forall₂_of_parse h
  rw [← map_snd_sitedChunks, List.forall₂_map_left_iff] at hitems
  refine Element.anchored_of_allItems es fun item hitem => ?_
  obtain ⟨⟨p, chunk⟩, hc, hof⟩ := exists_mem_of_forall₂ hitems item hitem
  exact anchored_of_mem_sitedChunks hc hof

theorem anchored_of_parse_blocks :
    let source := ("é\x7b% if a %\x7dx\x7b%- elseif b %\x7dy\x7b% else %\x7dz\x7b%  endif %\x7d" ++
      "\x7b% for i in xs %\x7d\x7b\x7b i \x7d\x7d\x7b% endfor %\x7d\x7b% set u = 1 %\x7d").toList
    ∃ es, parse source = .ok es ∧ es.length = 4 ∧ ∀ e ∈ es, e.Anchored source := by
  intro source
  have hread : ∃ es ∈ (parse source).toOption, es.length = 4 := by decide +kernel
  obtain ⟨es, hes, hlength⟩ := hread
  have hparse := toOption_eq_some_iff.mp hes
  exact ⟨es, hparse, hlength, anchored_of_parse hparse⟩

end Stencil.Nunjucks

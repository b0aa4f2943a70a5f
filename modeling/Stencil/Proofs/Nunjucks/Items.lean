import Stencil.Nunjucks.Tree
import Stencil.Proofs.Nesting
import Stencil.Proofs.Nunjucks.Consumption
import Stencil.Proofs.Nunjucks.Delimiters

/-!
# A Nunjucks tree in source order

Building a tree rearranges nothing. Written out in source order, a tree is a list of items, one for
every chunk of the source: a text, an output, or a tag with its word, its offset, and the names and
terms that it holds. What an item holds is made of the tokens of its chunk.
-/

namespace Stencil.Nunjucks

/-- What a tree has of a chunk. -/
inductive Item where
  /-- Text. -/
  | data (text : Piece)
  /-- An output, with the offset of its first token. -/
  | output (pos : Nat) (value : Term)
  /-- A tag, with the offset of its word and what it holds. -/
  | tag (word : String) (pos : Nat) (names : List String) (terms : List Term)

/-! ### Trees -/

mutual

/-- An element in source order. -/
def Element.items : Element → List Item
  | .data text => [.data text]
  | .output pos value => [.output pos value]
  | .conditional ⟨pos, condition, body⟩ rest otherwise endPos =>
    .tag "if" pos [] [condition] :: (Element.allItems body ++ (Element.clauseItems rest ++
      (Element.alternativeItems otherwise ++ [.tag "endif" endPos [] []])))
  | .loop pos names collection body otherwise endPos =>
    .tag "for" pos names [collection] :: (Element.allItems body ++
      (Element.alternativeItems otherwise ++ [.tag "endfor" endPos [] []]))
  | .assign pos targets value => [.tag "set" pos targets [value]]
  | .capture pos targets body endPos =>
    .tag "set" pos targets [] :: (Element.allItems body ++ [.tag "endset" endPos [] []])
  | .subtemplate pos template _ => [.tag "include" pos [] [template]]

/-- A list of elements in source order. -/
def Element.allItems : List Element → List Item
  | [] => []
  | e :: es => Element.items e ++ Element.allItems es

/-- The clauses of a conditional after the first one. -/
def Element.clauseItems : List (Clause Element) → List Item
  | [] => []
  | ⟨pos, condition, body⟩ :: clauses =>
    .tag "elif" pos [] [condition] :: (Element.allItems body ++ Element.clauseItems clauses)

/-- An alternative. -/
def Element.alternativeItems : Option (Alternative Element) → List Item
  | none => []
  | some ⟨pos, body⟩ => .tag "else" pos [] [] :: Element.allItems body

end

theorem Element.allItems_eq_flatMap (es : List Element) :
    Element.allItems es = es.flatMap Element.items := by
  induction es with
  | nil => rw [allItems, List.flatMap_nil]
  | cons e es ih => rw [allItems, ih, List.flatMap_cons]

theorem Element.clauseItems_append (clauses clauses' : List (Clause Element)) :
    Element.clauseItems (clauses ++ clauses') =
      Element.clauseItems clauses ++ Element.clauseItems clauses' := by
  induction clauses with
  | nil => simp [clauseItems]
  | cons clause clauses ih => simp [clauseItems, ih]

/-- The clauses of a conditional. -/
def clausesItems (c : Clauses (Clause Element)) : List Item :=
  .tag "if" c.first.pos [] [c.first.condition] ::
    (Element.allItems c.first.body ++ Element.clauseItems c.rest)

/-- An open block, up to the part that is being read. -/
def Block.items : Block → List Item
  | .clause none pos condition => [.tag "if" pos [] [condition]]
  | .clause (some done) pos condition => clausesItems done ++ [.tag "elif" pos [] [condition]]
  | .clauseElse done pos => clausesItems done ++ [.tag "else" pos [] []]
  | .loop pos names collection => [.tag "for" pos names [collection]]
  | .loopElse pos names collection body elsePos =>
    .tag "for" pos names [collection] :: (Element.allItems body ++ [.tag "else" elsePos [] []])
  | .capture pos targets => [.tag "set" pos targets []]

/-- The clauses of a conditional when another one of them is done. -/
theorem clausesItems_extend (done : Option (Clauses (Clause Element))) (pos : Nat)
    (condition : Term) (body : List Element) :
    clausesItems (Clauses.extend done ⟨pos, condition, body⟩) =
      Block.items (.clause done pos condition) ++ body.flatMap Element.items := by
  cases done with
  | none =>
    simp [clausesItems, Clauses.extend, Block.items, Element.clauseItems,
      Element.allItems_eq_flatMap]
  | some done =>
    simp [clausesItems, Clauses.extend, Block.items, Element.clauseItems_append,
      Element.clauseItems, Element.allItems_eq_flatMap]

/-! ### Items of chunks -/

/-- The word of a tag; there are two words for a further condition. -/
def tagWord (name : Piece) : String :=
  if name.toString == "elseif" then "elif" else name.toString

theorem tagWord_of_eq {name : Piece} {w : String} (h : name.toString = w) (hw : w ≠ "elseif") :
    tagWord name = w := by
  rw [tagWord, h, if_neg (by simpa using hw)]

/-- The item of a tag with a given name and the tokens `ts` after it. -/
inductive Item.OfTag (ending : Ending) (name : Piece) (ts : List Token) : Item → Prop
  | intro {names : List String} {terms : List Term} (hend : ending.kind = .tagEnd)
      (hnames : ∀ P : Token → Prop, (∀ t ∈ ts, P t) → ∀ n ∈ names, NameFrom P n)
      (hterms : ∀ P : Token → Prop, (∀ t ∈ ts, P t) → ∀ x ∈ terms, x.From P) :
      OfTag ending name ts (.tag (tagWord name) name.start names terms)

/-- The item of a chunk. -/
inductive Item.Of : Chunk → Item → Prop
  | data (text : Piece) : Of (.data text) (.data text)
  | output {inside : Inside} {value : Term} (h : readOutputTerm inside = .ok value) :
      Of (.output inside) (.output inside.start value)
  | tag {inside : Inside} {name : Piece} {ts : List Token} {item : Item}
      (hname : inside.tokens = ⟨.name, name⟩ :: ts)
      (h : Item.OfTag inside.ending name ts item) : Of (.tag inside) item

theorem outputEnd_of_readOutputTerm {inside : Inside} {value : Term}
    (h : readOutputTerm inside = .ok value) : inside.ending.kind = .outputEnd := by
  obtain ⟨⟨value, ts⟩, -, h⟩ := bind_eq_ok.mp h
  simp only at h
  split at h
  · next hend => exact hend.2
  · cases h

/-- The braces in an output are matched. -/
theorem matched_of_readOutputTerm {inside : Inside} {value : Term}
    (h : readOutputTerm inside = .ok value) : Matched inside.tokens := by
  obtain ⟨⟨value, ts⟩, hvalue, h⟩ := bind_eq_ok.mp h
  simp only at h
  split at h
  · next hend =>
    obtain ⟨used, htokens, hmatched, -⟩ := takes_parseTerm (P := fun _ => True) _ _ _ _ hvalue
    rw [hend.1, List.append_nil] at htokens
    exact htokens ▸ hmatched
  · cases h

theorem from_readOutputTerm {inside : Inside} {value : Term} {P : Token → Prop}
    (h : readOutputTerm inside = .ok value) (hP : ∀ t ∈ inside.tokens, P t) : value.From P := by
  obtain ⟨⟨x, ts⟩, hx, h⟩ := bind_eq_ok.mp h
  simp only at h
  split at h
  · obtain rfl := Except.ok.inj h
    exact ((takes_parseTerm _ _ _ _ hx).of_forall hP).1
  · cases h

/-- A chunk that has an item is ended by a closing delimiter. -/
theorem Item.Of.closes {chunk : Chunk} {item : Item} (h : Item.Of chunk item) {inside : Inside}
    (hi : chunk.inside? = some inside) : inside.Closes := by
  cases h with
  | data => cases hi
  | output h => exact Option.some.inj hi ▸ .inr (outputEnd_of_readOutputTerm h)
  | tag hname h =>
    obtain ⟨hend, -, -⟩ := h
    exact Option.some.inj hi ▸ .inl hend

section Feed

variable {ending : Ending} {name : Piece} {ts : List Token}

/-- A tag that holds nothing. -/
theorem Item.OfTag.of_expectTagEnd {u : Unit} (h : expectTagEnd ending ts = .ok u) :
    Item.OfTag ending name ts (.tag (tagWord name) name.start [] []) :=
  .intro (tagEnd_of_expectTagEnd h) (by simp) (by simp)

theorem from_termToEnd {value : Term} (h : termToEnd ending ts = .ok value) :
    ending.kind = .tagEnd ∧ ∀ P : Token → Prop, (∀ t ∈ ts, P t) → value.From P := by
  obtain ⟨⟨value, us⟩, hvalue, h⟩ := bind_eq_ok.mp h
  obtain ⟨_, hend, h⟩ := bind_eq_ok.mp h
  cases h
  refine ⟨tagEnd_of_expectTagEnd hend, fun P hP => ?_⟩
  exact ((takes_parseTerm ending _ _ _ hvalue).of_forall hP).1

/-- A tag that holds a term. -/
theorem Item.OfTag.of_termToEnd {value : Term} (h : termToEnd ending ts = .ok value) :
    Item.OfTag ending name ts (.tag (tagWord name) name.start [] [value]) := by
  obtain ⟨hend, hfrom⟩ := from_termToEnd h
  refine .intro hend (by simp) fun P hP => ?_
  exact List.forall_mem_singleton.mpr (hfrom P hP)

section Advance

variable {w : String} {ws : List Item} {progress : Progress Block Element}

/-- A tag that is a single word goes on with a block or ends it. -/
theorem writes_word {next : Progress Block Element} (hw : name.toString == w) (hne : w ≠ "elseif")
    (h : (expectTagEnd ending ts).map (fun _ => next) = .ok progress)
    (hitems : Nesting.Writes Element.items Block.items (· = .tag w name.start [] []) ws next) :
    Nesting.Writes Element.items Block.items (Item.OfTag ending name ts) ws progress := by
  obtain ⟨_, hend, rfl⟩ := map_eq_ok.mp h
  have hof : Item.OfTag ending name ts (.tag w name.start [] []) :=
    tagWord_of_eq (beq_iff_eq.mp hw) hne ▸ .of_expectTagEnd hend
  cases next with
  | enter | close =>
    obtain ⟨_, rfl, hitems⟩ := hitems
    exact ⟨_, hof, hitems⟩
  | foreign => trivial

/-- A tag adds its item to the block that it goes on with or ends. -/
theorem Block.writes_advance {block : Block} {body : List Element}
    (h : block.advance ending name ts body = .ok progress) :
    Nesting.Writes Element.items Block.items (Item.OfTag ending name ts)
      (block.items ++ body.flatMap Element.items) progress := by
  cases block with
  | clause done pos condition =>
    simp only [Block.advance] at h
    rw [← clausesItems_extend]
    split_ifs at h with helif helse hendif
    · obtain ⟨next, hnext, rfl⟩ := map_eq_ok.mp h
      refine ⟨_, .of_termToEnd hnext, ?_⟩
      have hw : tagWord name = "elif" := by
        rw [Bool.or_eq_true] at helif
        rcases helif with helif | helif
        · exact tagWord_of_eq (beq_iff_eq.mp helif) (by decide)
        · simp [tagWord, beq_iff_eq.mp helif]
      rw [hw]
      rfl
    · exact writes_word helse (by decide) h ⟨_, rfl, rfl⟩
    · refine writes_word hendif (by decide) h ⟨_, rfl, ?_⟩
      simp [Element.items, clausesItems, Element.alternativeItems]
    · cases h
      trivial
  | clauseElse done pos =>
    simp only [Block.advance] at h
    split_ifs at h with hendif
    · refine writes_word hendif (by decide) h ⟨_, rfl, ?_⟩
      simp [Element.items, Block.items, clausesItems, Element.alternativeItems,
        Element.allItems_eq_flatMap]
    · cases h
      trivial
  | loop pos names collection =>
    simp only [Block.advance] at h
    split_ifs at h with helse hendfor
    · refine writes_word helse (by decide) h ⟨_, rfl, ?_⟩
      simp [Block.items, Element.allItems_eq_flatMap]
    · refine writes_word hendfor (by decide) h ⟨_, rfl, ?_⟩
      simp [Element.items, Block.items, Element.alternativeItems, Element.allItems_eq_flatMap]
    · cases h
      trivial
  | loopElse pos names collection done elsePos =>
    simp only [Block.advance] at h
    split_ifs at h with hendfor
    · refine writes_word hendfor (by decide) h ⟨_, rfl, ?_⟩
      simp [Element.items, Block.items, Element.alternativeItems, Element.allItems_eq_flatMap]
    · cases h
      trivial
  | capture pos targets =>
    simp only [Block.advance] at h
    split_ifs at h with hendset
    · refine writes_word hendset (by decide) h ⟨_, rfl, ?_⟩
      simp [Element.items, Block.items, Element.allItems_eq_flatMap]
    · cases h
      trivial

end Advance

/-- What a statement adds to what has been read. -/
def Statement.items : Statement → List Item
  | .enter block => block.items
  | .single e => e.items

/-- The item of a statement is that of its tag. -/
def Statement.OfTag (ending : Ending) (name : Piece) (ts : List Token) (statement : Statement) :
    Prop :=
  ∃ item, Item.OfTag ending name ts item ∧ statement.items = [item]

theorem ofTag_readLoop {statement : Statement} (hword : tagWord name = "for")
    (h : readLoop ending name.start ts = .ok statement) : statement.OfTag ending name ts := by
  obtain ⟨⟨names, us⟩, hnames, h⟩ := bind_eq_ok.mp h
  simp only at h
  split at h
  · cases h
  next hin =>
  obtain ⟨collection, hcollection, h⟩ := bind_eq_ok.mp h
  cases h
  obtain ⟨hend, hfrom⟩ := from_termToEnd hcollection
  refine ⟨.tag (tagWord name) name.start names [collection], .intro hend ?_ ?_, ?_⟩
  · exact fun P hP => ((takes_nameList ending _ _ _ hnames).of_forall hP).1
  · intro P hP
    have hus := ((takes_nameList ending _ _ _ hnames).of_forall hP).2
    exact List.forall_mem_singleton.mpr (hfrom P ((Uses.eatName? hin).of_forall hus).2)
  · rw [hword]
    rfl

theorem ofTag_readSet {statement : Statement} (hword : tagWord name = "set")
    (h : readSet ending name.start ts = .ok statement) : statement.OfTag ending name ts := by
  obtain ⟨⟨targets, us⟩, htargets, h⟩ := bind_eq_ok.mp h
  have hnames := fun P hP => ((takes_nameList (P := P) ending _ _ _ htargets).of_forall hP)
  simp only at h
  split at h
  · next heq =>
    obtain ⟨value, hvalue, h⟩ := bind_eq_ok.mp h
    cases h
    obtain ⟨hend, hfrom⟩ := from_termToEnd hvalue
    refine ⟨.tag (tagWord name) name.start targets [value],
      .intro hend (fun P hP => (hnames P hP).1) fun P hP => ?_, ?_⟩
    · have hvs := ((Uses.eatSign? heq (by decide)).of_forall (hnames P hP).2).2
      exact List.forall_mem_singleton.mpr (hfrom P hvs)
    · simp [hword, Statement.items, Element.items]
  · obtain ⟨_, hend, h⟩ := bind_eq_ok.mp h
    cases h
    refine ⟨.tag (tagWord name) name.start targets [],
      .intro (tagEnd_of_expectTagEnd hend) (fun P hP => (hnames P hP).1) (by simp), ?_⟩
    rw [hword]
    rfl

theorem ofTag_readSubtemplate {statement : Statement} (hword : tagWord name = "include")
    (h : readSubtemplate ending name.start ts = .ok statement) :
    statement.OfTag ending name ts := by
  obtain ⟨⟨template, us⟩, htemplate, h⟩ := bind_eq_ok.mp h
  obtain ⟨⟨ignored, vs⟩, -, h⟩ := bind_eq_ok.mp h
  obtain ⟨_, hend, h⟩ := bind_eq_ok.mp h
  cases h
  refine ⟨.tag (tagWord name) name.start [] [template],
    .intro (tagEnd_of_expectTagEnd hend) (by simp) fun P hP => ?_, ?_⟩
  · have hfrom := ((takes_parseTerm (P := P) ending _ _ _ htemplate).of_forall hP).1
    exact List.forall_mem_singleton.mpr hfrom
  · simp [hword, Statement.items, Element.items]

/-- A tag that goes on with no block stands for its item. -/
theorem ofTag_readStatement {statement : Statement}
    (h : readStatement ending name ts = .ok statement) : statement.OfTag ending name ts := by
  simp only [readStatement] at h
  split_ifs at h with hif hfor hset hinclude
  · obtain ⟨condition, hcondition, rfl⟩ := map_eq_ok.mp h
    refine ⟨_, .of_termToEnd hcondition, ?_⟩
    rw [tagWord_of_eq (beq_iff_eq.mp hif) (by decide)]
    rfl
  · exact ofTag_readLoop (tagWord_of_eq (beq_iff_eq.mp hfor) (by decide)) h
  · exact ofTag_readSet (tagWord_of_eq (beq_iff_eq.mp hset) (by decide)) h
  · exact ofTag_readSubtemplate (tagWord_of_eq (beq_iff_eq.mp hinclude) (by decide)) h

theorem tokens_of_expectName {us : List Token} (h : expectName ending ts = .ok (name, us)) :
    ts = ⟨.name, name⟩ :: us := by
  unfold expectName at h
  split at h
  · cases h
    rfl
  · cases h

theorem items_openTag {b b' : Builder} (h : openTag b ending name ts = .ok b') :
    ∃ item, Item.OfTag ending name ts item ∧
      b'.word Element.items Block.items = b.word Element.items Block.items ++ [item] := by
  obtain ⟨statement, hs, rfl⟩ := map_eq_ok.mp h
  obtain ⟨item, hitem, hitems⟩ := ofTag_readStatement hs
  refine ⟨item, hitem, ?_⟩
  cases statement with
  | enter block => exact (Nesting.word_enter b block).trans (congrArg _ hitems)
  | single e => exact (Nesting.word_push b e).trans (congrArg _ hitems)

end Feed

/-- Every chunk adds its item to what has been read. -/
theorem exists_item_of_feed {b b' : Builder} {chunk : Chunk} (h : feed b chunk = .ok b') :
    ∃ item, Item.Of chunk item ∧
      b'.word Element.items Block.items = b.word Element.items Block.items ++ [item] := by
  cases chunk with
  | data text =>
    cases h
    refine ⟨_, .data text, ?_⟩
    rw [Nesting.word_push, Element.items]
  | output inside =>
    obtain ⟨value, hvalue, rfl⟩ := map_eq_ok.mp h
    refine ⟨_, .output hvalue, ?_⟩
    rw [Nesting.word_push, Element.items]
  | tag inside =>
    obtain ⟨⟨name, ts⟩, hname, h⟩ := bind_eq_ok.mp h
    have htokens := tokens_of_expectName hname
    obtain ⟨item, hitem, hword⟩ := Nesting.exists_word_advance
      (fun _ _ _ hs => Block.writes_advance hs) (fun _ ho => items_openTag ho) h
    exact ⟨item, .tag htokens hitem, hword⟩
  | fault error => cases h

/-- A tree has the items of its chunks. -/
theorem forall₂_of_parse {source : List Char} {es : List Element} (h : parse source = .ok es) :
    List.Forall₂ Item.Of (chunks ⟨0, source⟩) (Element.allItems es) := by
  rw [Element.allItems_eq_flatMap]
  exact Nesting.forall₂_of_run (fun _ _ _ hfeed => exists_item_of_feed hfeed) h

/-- Every entry of the second list has its own in the first. -/
theorem exists_mem_of_forall₂ {α β : Type} {R : α → β → Prop} {as : List α} {bs : List β}
    (h : List.Forall₂ R as bs) : ∀ b ∈ bs, ∃ a ∈ as, R a b := by
  induction h with
  | nil => exact List.forall_mem_nil _
  | cons hab _ ih =>
    refine List.forall_mem_cons.mpr ⟨⟨_, List.mem_cons_self, hab⟩, fun b hb => ?_⟩
    obtain ⟨a, ha, hr⟩ := ih b hb
    exact ⟨a, List.mem_cons_of_mem _ ha, hr⟩

end Stencil.Nunjucks

import Stencil.Proofs.Nunjucks.Lexing
import Stencil.Proofs.Nunjucks.Marker
import Stencil.Proofs.Source
import Stencil.Nunjucks.Chunk

/-!
# The delimiters of a Nunjucks source

Every chunk of a source stands at its own place in it, so that the offset of the first token of an
output or a tag leads back to the delimiters around it. On the left these are the delimiters of the
chunk itself: there are only a marker and blanks in between. On the right the first closing
delimiter that is spelled out counts, and a string can spell one out without ending the chunk.
-/

namespace Stencil.Nunjucks

/-! ### Reading on -/

/-- The first character of a closing delimiter. -/
def isClosing (c : Char) : Bool :=
  c == '}' || c == '%'

/-- The chunk is ended by a closing delimiter. -/
def Inside.Closes (l : Inside) : Prop :=
  l.ending.kind = .tagEnd ∨ l.ending.kind = .outputEnd

section Leads

variable {p q rest : Piece}

theorem leads_closing? {ending : Ending} (h : closing? p = some (ending, rest)) :
    ∃ closing ∈ closings, ending = ⟨closing.2, ⟨p.start, closing.1.toList⟩⟩ ∧
      Piece.Leads p closing.1.toList rest := by
  obtain ⟨closing, hmem, hs⟩ := List.exists_of_findSome?_eq_some h
  obtain ⟨piece, hp, he⟩ := Option.map_eq_some_iff.mp hs
  obtain ⟨rfl, rfl⟩ := Prod.mk.inj he
  exact ⟨closing, hmem, rfl, .strip? hp⟩

theorem start_lex (p : Piece) : (lex p).1.start = p.trimStart.start := by
  fun_cases lex p with
  | case1 ending rest h =>
    obtain ⟨closing, -, rfl, -⟩ := leads_closing? h
    rfl
  | case2 | case3 | case4 => rfl

theorem leads_lex (p : Piece) : ∃ s, Piece.Leads p s (lex p).2 := by
  fun_induction lex p with
  | case1 p ending rest h =>
    obtain ⟨closing, -, -, hrest⟩ := leads_closing? h
    exact ⟨_, (Piece.Leads.trimStart p).trans hrest⟩
  | case2 p | case3 p => exact ⟨_, .trimStart p⟩
  | case4 p _ c cs _ _ rest _ after ih =>
    obtain ⟨s, hs⟩ := ih
    exact ⟨_, ((Piece.Leads.trimStart p).trans (.drop _ (rest.length + 1))).trans hs⟩

/-- A chunk that is ended by a closing delimiter leads to the source after it. -/
theorem leads_lex_of_closes {p : Piece} (h : (lex p).1.Closes) :
    ∃ s c, isClosing c ∧ Piece.Leads p (s ++ [c, '}']) (lex p).2 := by
  fun_induction lex p with
  | case1 p ending rest hc =>
    obtain ⟨closing, hmem, -, hrest⟩ := leads_closing? hc
    obtain ⟨s, c, hclosing, hs⟩ : ∃ s c, isClosing c ∧ closing.1.toList = s ++ [c, '}'] := by
      simp only [closings, List.mem_cons, List.not_mem_nil, or_false] at hmem
      rcases hmem with rfl | rfl | rfl | rfl
      · exact ⟨[], '%', rfl, rfl⟩
      · exact ⟨['-'], '%', rfl, rfl⟩
      · exact ⟨[], '}', rfl, rfl⟩
      · exact ⟨['-'], '}', rfl, rfl⟩
    refine ⟨p.text.takeWhile Text.isBlank ++ s, c, hclosing, ?_⟩
    rw [List.append_assoc, ← hs]
    exact (Piece.Leads.trimStart p).trans hrest
  | case2 | case3 => rcases h with h | h <;> cases h
  | case4 p _ c cs _ _ rest _ after ih =>
    obtain ⟨s, c, hc, hs⟩ := ih h
    refine ⟨p.text.takeWhile Text.isBlank ++ p.trimStart.text.take (rest.length + 1) ++ s, c, hc,
      ?_⟩
    rw [List.append_assoc]
    exact ((Piece.Leads.trimStart p).trans (.drop _ (rest.length + 1))).trans hs

theorem leads_open? {m : Mark} {cs : List Char} (h : open? p.text = some (m, cs)) :
    ∃ c, (m = .output ∧ c = '{' ∨ m = .tag ∧ c = '%' ∨ m = .comment ∧ c = '#') ∧
      Piece.Leads p ['{', c] ⟨p.start + 2, cs⟩ := by
  obtain ⟨start, text⟩ := p
  simp only [open?] at h
  split at h
  all_goals cases h
  · exact ⟨'{', .inl ⟨rfl, rfl⟩, rfl, rfl⟩
  · exact ⟨'%', .inr (.inl ⟨rfl, rfl⟩), rfl, rfl⟩
  · exact ⟨'#', .inr (.inr ⟨rfl, rfl⟩), rfl, rfl⟩

theorem tagEnd_of_expectTagEnd {ending : Ending} {ts : List Token} {u : Unit}
    (h : expectTagEnd ending ts = .ok u) : ending.kind = .tagEnd := by
  unfold expectTagEnd at h
  split at h
  · next hend => exact hend.2
  · cases h

theorem leads_closingTag? {name : List Char} (h : closingTag? name p = some rest) :
    ∃ s, Piece.Leads p s rest := by
  obtain ⟨r, hr, hc⟩ := Option.bind_eq_some_iff.mp h
  split at hc
  · cases hc
  · cases hc
    obtain ⟨s, -, hs⟩ := Piece.Leads.dropMarker p
    exact ⟨_, (hs.trans (.trimStart _)).trans (.strip? hr)⟩

/-- The body of a verbatim block leads to the tag that closes it. -/
theorem leads_findClosing {name : List Char} {start : Nat} {cs body : List Char}
    (h : findClosing name start cs = some (body, rest)) :
    ∃ s, Piece.Leads ⟨start, cs⟩ (body ++ '{' :: '%' :: s) rest := by
  fun_induction findClosing name start cs generalizing body rest with
  | case1 start cs ih | case2 start cs ih | case4 start cs _ ih =>
    obtain ⟨⟨b, r⟩, hb, he⟩ := Option.map_eq_some_iff.mp h
    obtain ⟨rfl, rfl⟩ := Prod.mk.inj he
    obtain ⟨s, hs⟩ := ih hb
    exact ⟨s, Piece.Leads.trans (s := ['{', _]) ⟨rfl, rfl⟩ hs⟩
  | case3 start cs r hr =>
    obtain ⟨rfl, rfl⟩ := Prod.mk.inj (Option.some.inj h)
    obtain ⟨s, hs⟩ := leads_closingTag? hr
    exact ⟨s, Piece.Leads.trans (s := ['{', '%']) ⟨rfl, rfl⟩ hs⟩
  | case5 start c cs _ _ _ ih =>
    obtain ⟨⟨b, r⟩, hb, he⟩ := Option.map_eq_some_iff.mp h
    obtain ⟨rfl, rfl⟩ := Prod.mk.inj he
    obtain ⟨s, hs⟩ := ih hb
    exact ⟨s, Piece.Leads.trans (s := [c]) ⟨rfl, rfl⟩ hs⟩
  | case6 => cases h

theorem leads_verbatimBody {name : String} {body : Piece}
    (h : verbatimBody name p = .ok (body, rest)) :
    ∃ s c, isClosing c ∧ Piece.Leads p (body.text ++ '{' :: '%' :: s ++ [c, '}']) rest := by
  unfold verbatimBody at h
  split at h
  · cases h
  · next b r hb =>
    obtain ⟨_, hend, he⟩ := map_eq_ok.mp h
    obtain ⟨rfl, rfl⟩ := Prod.mk.inj he
    obtain ⟨s, hs⟩ := leads_findClosing hb
    obtain ⟨s', c, hc, hs'⟩ := leads_lex_of_closes (.inl (tagEnd_of_expectTagEnd hend))
    exact ⟨s ++ s', c, hc, by simpa using hs.trans hs'⟩

theorem start_of_verbatimBody {name : String} {body : Piece}
    (h : verbatimBody name p = .ok (body, rest)) : body.start = p.start := by
  unfold verbatimBody at h
  split at h
  · cases h
  · obtain ⟨_, -, he⟩ := map_eq_ok.mp h
    exact congrArg (·.1.start) he.symm

theorem leads_tagChunk (inside : Inside) (p : Piece) :
    ∃ s, Piece.Leads p s (tagChunk inside p).2 := by
  unfold tagChunk
  split
  · exact ⟨[], .refl p⟩
  · split
    · exact ⟨_, .stop p⟩
    · next hb =>
      obtain ⟨s, c, -, hs⟩ := leads_verbatimBody hb
      exact ⟨_, hs⟩

theorem tagEnd_of_verbatimName? {inside : Inside} {name : String}
    (h : verbatimName? inside = some name) : inside.ending.kind = .tagEnd := by
  unfold verbatimName? at h
  split at h
  · split at h
    · next hname =>
      rw [Bool.and_eq_true] at hname
      exact beq_iff_eq.mp hname.2
    · cases h
  · cases h

theorem leads_cut? {inner more : List Char}
    (h : Text.cut? "#\x7d".toList p.text = some (inner, more)) :
    Piece.Leads p (inner ++ ['#', '}']) ⟨p.start + Text.byteLength inner + 2, more⟩ := by
  refine ⟨Text.cut?_eq_some h, ?_⟩
  rw [Text.byteLength_append, ← Nat.add_assoc]
  rfl

theorem leads_readComment (start : Nat) (p : Piece) :
    ∃ s, Piece.Leads p s (readComment start p).2 := by
  unfold readComment
  split
  · next h => exact ⟨_, leads_cut? h⟩
  · exact ⟨_, .stop p⟩

/-- An opening delimiter and its marker lead to what stands inside. -/
theorem leads_inside {m : Mark} {cs : List Char} (h : open? p.text = some (m, cs)) :
    ∃ s, Piece.Leads p s (Piece.dropMarker ⟨p.start + 2, cs⟩) := by
  obtain ⟨c, -, hc⟩ := leads_open? h
  obtain ⟨s, -, hs⟩ := Piece.Leads.dropMarker ⟨p.start + 2, cs⟩
  exact ⟨_, hc.trans hs⟩

/-- What is left after the first chunk is the rest of the source. -/
theorem leads_readChunk (p : Piece) : ∃ s, Piece.Leads p s (readChunk p).2 := by
  unfold readChunk
  split
  · next cs ho =>
    obtain ⟨c, -, hc⟩ := leads_open? ho
    obtain ⟨s, hs⟩ := leads_readComment p.start ⟨p.start + 2, cs⟩
    exact ⟨_, hc.trans hs⟩
  · next cs ho =>
    obtain ⟨s, hs⟩ := leads_inside ho
    obtain ⟨s', hs'⟩ := leads_lex (Piece.dropMarker ⟨p.start + 2, cs⟩)
    exact ⟨_, hs.trans hs'⟩
  · next cs ho =>
    obtain ⟨s, hs⟩ := leads_inside ho
    obtain ⟨s', hs'⟩ := leads_lex (Piece.dropMarker ⟨p.start + 2, cs⟩)
    obtain ⟨s'', hs''⟩ := leads_tagChunk (lex (Piece.dropMarker ⟨p.start + 2, cs⟩)).1
      (lex (Piece.dropMarker ⟨p.start + 2, cs⟩)).2
    exact ⟨_, (hs.trans hs').trans hs''⟩
  · exact ⟨_, .splitBefore isOpen p⟩

end Leads

/-! ### Closing delimiters that are spelled out -/

/-- The first closing delimiter that a text spells out: whether it is marked, given the character
before the text. -/
def spelled? (previous : Option Char) : List Char → Option Bool
  | [] => none
  | c :: cs =>
    if isClosing c && cs.head? == some '}' then some (previous == some '-')
    else spelled? (some c) cs

theorem isMarkedClosing_eq_spelled? (previous : Option Char) (cs : List Char) :
    isMarkedClosing isClosing previous cs = (spelled? previous cs).getD false := by
  induction cs generalizing previous with
  | nil => rfl
  | cons c cs ih =>
    unfold isMarkedClosing spelled?
    split
    · rfl
    · exact ih (some c)

/-- A text that no closing delimiter straddles the end of. -/
theorem spelled?_append {s rest : List Char} (previous : Option Char)
    (hs : ∀ c ∈ s.getLast?, isClosing c → rest.head? ≠ some '}') :
    spelled? previous (s ++ rest) =
      (spelled? previous s).or (spelled? (s.getLast?.or previous) rest) := by
  induction s generalizing previous with
  | nil => simp [spelled?]
  | cons c s ih =>
    cases s with
    | nil =>
      have hrest : (isClosing c && rest.head? == some '}') = false := by
        cases hc : isClosing c with
        | false => rfl
        | true => simpa using hs c rfl hc
      simp [spelled?, hrest]
    | cons d s =>
      rw [List.getLast?_cons_cons] at hs
      rw [List.cons_append, spelled?, List.cons_append, List.head?_cons]
      nth_rewrite 2 [spelled?]
      rw [List.head?_cons]
      split
      · rfl
      · rw [← List.cons_append, ih (some c) hs, List.getLast?_cons_cons]
        simp [List.getLast?_cons]

/-- No closing delimiter is spelled out. -/
def Unspelled (s : List Char) : Prop :=
  ¬ ['}', '}'] <:+: s ∧ ¬ ['%', '}'] <:+: s

instance (s : List Char) : Decidable (Unspelled s) :=
  inferInstanceAs (Decidable (_ ∧ _))

theorem spelled?_eq_none {s : List Char} (hs : Unspelled s) (previous : Option Char) :
    spelled? previous s = none := by
  induction s generalizing previous with
  | nil => rfl
  | cons c s ih =>
    have htail : Unspelled s :=
      ⟨fun h => hs.1 (List.infix_cons h), fun h => hs.2 (List.infix_cons h)⟩
    rw [spelled?, if_neg]
    · exact ih htail (some c)
    · simp only [isClosing, Bool.and_eq_true, Bool.or_eq_true, beq_iff_eq]
      rintro ⟨hc, hbrace⟩
      obtain ⟨t, rfl⟩ := List.head?_eq_some_iff.mp hbrace
      rcases hc with rfl | rfl
      · exact hs.1 ⟨[], t, rfl⟩
      · exact hs.2 ⟨[], t, rfl⟩

theorem unspelled_of_forall {s : List Char} (hs : ∀ c ∈ s, isClosing c = false) : Unspelled s := by
  refine ⟨fun h => ?_, fun h => ?_⟩
  · cases hs '}' (h.subset (by simp))
  · cases hs '%' (h.subset (by simp))

/-- What stands before a text only matters if the text begins with a closing delimiter. -/
theorem spelled?_cons {c : Char} {cs : List Char} (h : isClosing c → cs.head? ≠ some '}')
    (previous : Option Char) : spelled? previous (c :: cs) = spelled? (some c) cs := by
  rw [spelled?, if_neg]
  simpa using h

/-! ### What is found from the first token -/

/-- No closing delimiter stands at the start of the text. -/
def Unclosed (cs : List Char) : Prop :=
  ∀ c ∈ cs.head?, isClosing c → cs.tail.head? ≠ some '}'

theorem unclosed_of_closing? {p : Piece} {marker cs : List Char} (h : closing? p = none)
    (hmarker : marker = [] ∨ marker = ['-']) (hp : p.text = marker ++ cs) : Unclosed cs := by
  intro c hc hclosing hbrace
  obtain ⟨cs, rfl⟩ := List.head?_eq_some_iff.mp hc
  obtain ⟨cs, rfl⟩ := List.head?_eq_some_iff.mp hbrace
  simp only [isClosing, Bool.or_eq_true, beq_iff_eq] at hclosing
  rcases hclosing with rfl | rfl <;> rcases hmarker with rfl | rfl <;>
    simp [closing?, closings, Piece.strip?, Text.strip?, hp] at h

/-- A token of more than one character does not end in a character that begins a closing
delimiter. -/
theorem startsClosing_getLast?_of_tokenAt {c : Char} {cs r : List Char} {kind : TokenKind}
    (h : tokenAt c cs = .ok (kind, r)) (hr : r ≠ []) :
    ∀ d ∈ (c :: r).getLast?, startsClosing d = false := by
  intro d hd
  have hname : ∀ {d}, Text.isNameChar d → startsClosing d = false :=
    startsClosing_eq_false_of_isNameChar
  rcases tokenAt_cases h with ⟨-, hquote, _, hbody⟩ | ⟨-, hdigit, rfl⟩ | ⟨-, hstart, rfl⟩ |
    ⟨-, ⟨sign, hsign, hc⟩, -⟩
  · rw [List.getLast?_cons, Text.getLast?_of_quotedRest hbody] at hd
    obtain rfl : c = d := Option.some.inj hd
    simp only [Text.isQuote, Bool.or_eq_true, beq_iff_eq] at hquote
    rcases hquote with rfl | rfl <;> rfl
  · rcases List.mem_cons.mp (List.mem_of_getLast? hd) with rfl | hd
    · exact hname (Text.isNameChar_of_isDigit hdigit)
    · rcases Text.mem_numberTail hd with hd | rfl
      · exact hname (Text.isNameChar_of_isDigit hd)
      · rfl
  · rcases List.mem_cons.mp (List.mem_of_getLast? hd) with rfl | hd
    · exact hname (Text.isNameChar_of_isNameStart hstart)
    · exact hname (List.mem_takeWhile_imp hd)
  · have hsigns : ∀ sign ∈ signs, sign.toList.tail ≠ [] →
        ∀ d ∈ sign.toList.getLast?, startsClosing d = false := by decide
    exact hsigns sign hsign (by rwa [hc]) d (by rwa [hc])

/-- The closing delimiter of a chunk is marked. -/
def Inside.isMarked (l : Inside) : Bool :=
  l.ending.text.text.head? == some '-'

/-- The closing delimiter of a chunk seems marked from its first token: the first one that is
spelled out is, be it in a token or the one at the end. -/
def Inside.seemsMarked (l : Inside) : Bool :=
  (l.tokens.findSome? fun t => spelled? none t.text.text).getD l.isMarked

theorem Inside.seemsMarked_cons (t : Token) (l : Inside) :
    (l.cons t).seemsMarked = (spelled? none t.text.text).getD l.seemsMarked := by
  rw [seemsMarked, cons, List.findSome?_cons]
  cases spelled? none t.text.text <;> rfl

/-- The chunk ends where its closing delimiter or the source ends. -/
def Inside.Ends (l : Inside) : Prop :=
  ∀ fault, l.ending.kind ≠ .invalid fault

theorem Inside.Closes.ends {l : Inside} (h : l.Closes) : l.Ends := by
  intro fault hfault
  rw [Closes, hfault] at h
  rcases h with h | h <;> cases h

/-- A token and the text after it. -/
theorem spelled?_token {p : Piece} {c : Char} {r more : List Char} {kind : TokenKind}
    (hc : closing? p = none) (hp : p.text = c :: (r ++ more))
    (h : tokenAt c (r ++ more) = .ok (kind, r)) (previous : Option Char) :
    spelled? previous (c :: (r ++ more)) =
        (spelled? none (c :: r)).or (spelled? (c :: r).getLast? more) ∧
      ((c :: r).getLast? = some '-' → Unclosed more) := by
  have hhead : Unclosed (c :: (r ++ more)) := unclosed_of_closing? hc (.inl rfl) hp
  -- Only a token of a single character can reach into the text after it.
  cases r with
  | nil =>
    refine ⟨?_, fun hdash => ?_⟩
    · exact (spelled?_cons (hhead c rfl) previous).trans (by simp [spelled?])
    · obtain rfl : c = '-' := Option.some.inj hdash
      exact unclosed_of_closing? hc (.inr rfl) hp
  | cons d r =>
    have hlast := startsClosing_getLast?_of_tokenAt h (List.cons_ne_nil d r)
    have hclosing : ∀ e ∈ (c :: d :: r).getLast?, isClosing e → more.head? ≠ some '}' := by
      intro e he hce
      have := hlast e he
      simp only [isClosing, startsClosing, Bool.or_eq_true, Bool.or_eq_false_iff] at hce this
      grind
    refine ⟨?_, fun hdash => ?_⟩
    · have hfirst : isClosing c → (d :: r).head? ≠ some '}' := hhead c rfl
      rw [← List.cons_append, spelled?_append previous hclosing, spelled?_cons hfirst,
        spelled?_cons hfirst]
      rw [List.getLast?_cons, Option.some_or]
    · have := hlast '-' hdash
      cases this

/-- The closing delimiter at the start of a text. -/
theorem spelled?_closing {p rest : Piece} {ending : Ending} (h : closing? p = some (ending, rest))
    (previous : Option Char) (hprevious : previous = some '-' → Unclosed p.text) :
    spelled? previous p.text = some (ending.text.text.head? == some '-') := by
  obtain ⟨closing, hmem, rfl, htext, -⟩ := leads_closing? h
  rw [htext] at hprevious ⊢
  have hplain : ∀ c, isClosing c → ∀ previous, spelled? previous (c :: '}' :: rest.text) =
      some (previous == some '-') := by
    intro c hc previous
    simp [spelled?, hc]
  have hunmarked : ∀ c, isClosing c → closing.1.toList = [c, '}'] →
      (previous == some '-') = false := by
    intro c hc hclosing
    rw [beq_eq_false_iff_ne]
    intro hdash
    rw [hclosing] at hprevious
    exact hprevious hdash c rfl hc rfl
  simp only [closings, List.mem_cons, List.not_mem_nil, or_false] at hmem
  rcases hmem with rfl | rfl | rfl | rfl
  · exact (hplain '%' rfl previous).trans (by rw [hunmarked '%' rfl rfl]; rfl)
  · exact hplain '%' rfl (some '-')
  · exact (hplain '}' rfl previous).trans (by rw [hunmarked '}' rfl rfl]; rfl)
  · exact hplain '}' rfl (some '-')

/-- Blanks before a text. -/
theorem spelled?_trimStart (p : Piece) (previous : Option Char)
    (hprevious : previous = some '-' → Unclosed p.text) :
    ∃ previous', spelled? previous p.text = spelled? previous' p.trimStart.text ∧
      (previous' = some '-' → Unclosed p.trimStart.text) := by
  have htext := (Piece.Leads.trimStart p).text
  have hblank : ∀ c ∈ p.text.takeWhile Text.isBlank, Text.isBlank c :=
    fun c hc => List.mem_takeWhile_imp hc
  have hnone : ∀ c ∈ p.text.takeWhile Text.isBlank, isClosing c = false := by
    intro c hc
    have hbrace := Text.ne_of_isBlank (hblank c hc) (by decide : Text.isBlank '}' = false)
    have hpercent := Text.ne_of_isBlank (hblank c hc) (by decide : Text.isBlank '%' = false)
    simp [isClosing, hbrace, hpercent]
  refine ⟨(p.text.takeWhile Text.isBlank).getLast?.or previous, ?_, fun hdash => ?_⟩
  · nth_rewrite 1 [htext]
    rw [spelled?_append, spelled?_eq_none (unspelled_of_forall hnone), Option.none_or]
    intro c hc hclosing
    rw [hnone c (List.mem_of_getLast? hc)] at hclosing
    cases hclosing
  · cases hlast : (p.text.takeWhile Text.isBlank).getLast? with
    | none =>
      rw [hlast, Option.none_or] at hdash
      rw [List.getLast?_eq_none_iff.mp hlast, List.nil_append] at htext
      rw [← htext]
      exact hprevious hdash
    | some c =>
      rw [hlast, Option.some_or] at hdash
      obtain rfl : c = '-' := Option.some.inj hdash
      exact absurd (hblank '-' (List.mem_of_getLast? hlast)) (by decide)

/-- The marker that is found from the first token on. -/
theorem spelled?_lex (p : Piece) (hp : (lex p).1.Ends) (previous : Option Char)
    (hprevious : previous = some '-' → Unclosed p.text) :
    (spelled? previous p.text).getD false = (lex p).1.seemsMarked := by
  fun_induction lex p generalizing previous with
  | case1 p ending rest h =>
    obtain ⟨previous', hs, hp'⟩ := spelled?_trimStart p previous hprevious
    rw [hs, spelled?_closing h previous' hp']
    rfl
  | case2 p _ hnil =>
    obtain ⟨previous', hs, -⟩ := spelled?_trimStart p previous hprevious
    rw [hs, Inside.seemsMarked, Inside.isMarked]
    simp [hnil, spelled?]
  | case3 p _ _ _ _ fault => exact absurd rfl (hp fault)
  | case4 p hc c cs hcs kind r ht after ih =>
    obtain ⟨previous', hs, -⟩ := spelled?_trimStart p previous hprevious
    obtain ⟨more, rfl⟩ := isPrefix_of_tokenAt ht
    have hmore : (p.trimStart.drop (r.length + 1)).text = more := by simp [Piece.drop, hcs]
    obtain ⟨htoken, hdash⟩ := spelled?_token hc hcs ht previous'
    have hafter := ih hp (c :: r).getLast? (by rwa [hmore])
    rw [hmore] at hafter
    rw [hs, hcs, htoken, Inside.seemsMarked_cons, ← hafter]
    cases spelled? none (c :: r) <;> rfl

/-- Nothing but a string spells out a closing delimiter. -/
theorem unspelled_of_tokenAt {c : Char} {cs r : List Char} {kind : TokenKind}
    (h : tokenAt c cs = .ok (kind, r)) (hkind : kind ≠ .string) : Unspelled (c :: r) := by
  have hname : ∀ {d}, Text.isNameChar d → isClosing d = false := by
    intro d hd
    have hbrace := Text.ne_of_isNameChar hd (by decide : Text.isNameChar '}' = false)
    have hpercent := Text.ne_of_isNameChar hd (by decide : Text.isNameChar '%' = false)
    simp [isClosing, hbrace, hpercent]
  rcases tokenAt_cases h with ⟨hstring, -⟩ | ⟨-, hdigit, rfl⟩ | ⟨-, hstart, rfl⟩ |
    ⟨-, ⟨sign, hsign, hc⟩, -⟩
  · exact absurd hstring hkind
  · refine unspelled_of_forall (List.forall_mem_cons.mpr ⟨?_, fun d hd => ?_⟩)
    · exact hname (Text.isNameChar_of_isDigit hdigit)
    · rcases Text.mem_numberTail hd with hd | rfl
      · exact hname (Text.isNameChar_of_isDigit hd)
      · rfl
  · refine unspelled_of_forall (List.forall_mem_cons.mpr ⟨?_, fun d hd => ?_⟩)
    · exact hname (Text.isNameChar_of_isNameStart hstart)
    · exact hname (List.mem_takeWhile_imp hd)
  · have hsigns : ∀ sign ∈ signs, Unspelled sign.toList := by decide
    exact hc ▸ hsigns sign hsign

/-- The closing delimiter seems what it is, unless a string spells one out. -/
theorem seemsMarked_lex {p : Piece}
    (h : ∀ t ∈ (lex p).1.tokens, t.kind = .string → Unspelled t.text.text) :
    (lex p).1.seemsMarked = (lex p).1.isMarked := by
  fun_induction lex p with
  | case1 | case2 | case3 => rfl
  | case4 p hc c cs hcs kind r ht after ih =>
    have hmem := List.forall_mem_cons.mp h
    have htoken : Unspelled (c :: r) := by
      by_cases hkind : kind = .string
      · exact hmem.1 hkind
      · exact unspelled_of_tokenAt ht hkind
    rw [Inside.seemsMarked_cons, spelled?_eq_none htoken]
    exact ih hmem.2

/-! ### The markers of a chunk -/

/-- The markers that are found from a place with only a marker and blanks between it and an opening
delimiter. -/
theorem markers_of_opening {c : Char} (hc : c = '{' ∨ c = '%') {pre marker blanks rest : List Char}
    (hmarker : ∀ x ∈ marker, x = '-') (hblanks : ∀ x ∈ blanks, Text.isBlank x) :
    Place.markers ⟨(pre ++ ['{', c] ++ marker ++ blanks).reverse, rest⟩ =
      ⟨(marker ++ blanks ++ rest).head? == some '-', (spelled? none rest).getD false⟩ := by
  have hbetween : ∀ x ∈ (marker ++ blanks).reverse, (x == '{' || x == '%') = false := by
    intro x hx
    rw [List.mem_reverse, List.mem_append] at hx
    rcases hx with hx | hx
    · obtain rfl := hmarker x hx
      rfl
    · have hbrace := Text.ne_of_isBlank (hblanks x hx) (by decide : Text.isBlank '{' = false)
      have hpercent := Text.ne_of_isBlank (hblanks x hx) (by decide : Text.isBlank '%' = false)
      simp [hbrace, hpercent]
  have hopening : (c == '{' || c == '%') = true := by
    rcases hc with rfl | rfl <;> rfl
  have hbefore : (pre ++ ['{', c] ++ marker ++ blanks).reverse =
      (marker ++ blanks).reverse ++ (c :: '{' :: pre.reverse) := by simp
  rw [Place.markers, Trim.mk.injEq]
  refine ⟨?_, isMarkedClosing_eq_spelled? none rest⟩
  rw [isMarkedOpening_eq, hbefore, isMarkedBefore_append _ hbetween, List.getLast?_reverse,
    ← List.head?_append, isMarkedBefore, hopening]
  rfl

/-- The markers that are found from the first token of an output or a tag. -/
theorem markers_of_open? {source pre cs : List Char} {p : Piece} {m : Mark}
    (hp : Piece.Leads ⟨0, source⟩ pre p) (ho : open? p.text = some (m, cs)) (hm : m ≠ .comment)
    (hends : (lex (Piece.dropMarker ⟨p.start + 2, cs⟩)).1.Ends) :
    (Place.at source (lex (Piece.dropMarker ⟨p.start + 2, cs⟩)).1.start).markers =
      ⟨cs.head? == some '-', (lex (Piece.dropMarker ⟨p.start + 2, cs⟩)).1.seemsMarked⟩ := by
  obtain ⟨c, hc, hopen⟩ := leads_open? ho
  obtain ⟨marker, hmarker, hdrop⟩ := Piece.Leads.dropMarker ⟨p.start + 2, cs⟩
  have hdashes : ∀ x ∈ marker, x = '-' := by rcases hmarker with rfl | rfl <;> simp
  have htrim := Piece.Leads.trimStart (Piece.dropMarker ⟨p.start + 2, cs⟩)
  have hplace := ((hp.trans hopen).trans hdrop).trans htrim
  have hcs := (hdrop.trans htrim).text
  have hbrace : c = '{' ∨ c = '%' := by
    rcases hc with ⟨-, rfl⟩ | ⟨-, rfl⟩ | ⟨rfl, -⟩
    · exact .inl rfl
    · exact .inr rfl
    · exact absurd rfl hm
  have hseems := spelled?_lex (Piece.dropMarker ⟨p.start + 2, cs⟩).trimStart
    (by rwa [lex_trimStart]) none (by simp)
  have hstart := hplace.start
  have htext := hplace.text
  simp only [Nat.zero_add] at hstart htext
  rw [start_lex, hstart, htext, Place.at_append, markers_of_opening hbrace hdashes
    (fun x hx => List.mem_takeWhile_imp hx), hseems, lex_trimStart]
  simp only at hcs
  rw [← hcs]

/-- The tokens of an output or a tag. -/
def Chunk.inside? : Chunk → Option Inside
  | .output inside | .tag inside => some inside
  | .data _ | .fault _ => none

/-- An output or a tag is read from its opening delimiter on. -/
theorem open?_of_mem_readChunk {p : Piece} {chunk : Chunk} {inside : Inside}
    (h : chunk ∈ (readChunk p).1) (hi : chunk.inside? = some inside) :
    ∃ m cs, m ≠ .comment ∧ open? p.text = some (m, cs) ∧
      inside = (lex (Piece.dropMarker ⟨p.start + 2, cs⟩)).1 := by
  unfold readChunk at h
  split at h
  · simp only [readComment] at h
    split at h
    · cases h
    · rw [List.mem_singleton.mp h] at hi
      cases hi
  · next cs ho =>
    rw [List.mem_singleton.mp h] at hi
    exact ⟨.output, cs, by decide, ho, (Option.some.inj hi).symm⟩
  · next cs ho =>
    refine ⟨.tag, cs, by decide, ho, ?_⟩
    simp only [readTag, tagChunk] at h
    split at h
    · rw [List.mem_singleton.mp h] at hi
      exact (Option.some.inj hi).symm
    · split at h
      all_goals
        rw [List.mem_singleton.mp h] at hi
        cases hi
  · rw [List.mem_singleton.mp h] at hi
    cases hi

/-- An opening delimiter with a marker stands at the start of a text. -/
def isMarkedOpen (cs : List Char) : Bool :=
  (open? cs).any fun opening => opening.2.head? == some '-'

/-- The chunks of a piece of source, each with the source that it is read from. -/
def sitedChunks (p : Piece) : List (Piece × Chunk) :=
  if _h : p.text = [] then []
  else (readChunk p).1.map (p, ·) ++ sitedChunks (readChunk p).2
termination_by p.text.length
decreasing_by exact length_readChunk _h

theorem map_snd_sitedChunks (p : Piece) : (sitedChunks p).map (·.2) = chunks p := by
  fun_induction sitedChunks p with
  | case1 p hp => rw [chunks, dif_pos hp, List.map_nil]
  | case2 p hp ih =>
    rw [chunks, dif_neg hp, List.map_append, ih, List.map_map]
    exact congrArg (· ++ _) (List.map_id _)

theorem leads_of_mem_sitedChunks {p q : Piece} {chunk : Chunk} (h : (q, chunk) ∈ sitedChunks p) :
    chunk ∈ (readChunk q).1 ∧ ∃ s, Piece.Leads p s q := by
  fun_induction sitedChunks p with
  | case1 => cases h
  | case2 p _ ih =>
    rcases List.mem_append.mp h with h | h
    · obtain ⟨c, hc, he⟩ := List.mem_map.mp h
      obtain ⟨rfl, rfl⟩ := Prod.mk.inj he
      exact ⟨hc, [], .refl p⟩
    · obtain ⟨s, hs⟩ := leads_readChunk p
      obtain ⟨hc, s', hs'⟩ := ih h
      exact ⟨hc, s ++ s', hs.trans hs'⟩

/-- The markers that are found from the first token of a chunk of a source. -/
theorem markers_of_mem_sitedChunks {source : List Char} {p : Piece} {chunk : Chunk}
    {inside : Inside} (h : (p, chunk) ∈ sitedChunks ⟨0, source⟩) (hi : chunk.inside? = some inside)
    (hends : inside.Ends) :
    (Place.at source inside.start).markers = ⟨isMarkedOpen p.text, inside.seemsMarked⟩ := by
  obtain ⟨hc, s, hs⟩ := leads_of_mem_sitedChunks h
  obtain ⟨m, cs, hm, ho, rfl⟩ := open?_of_mem_readChunk hc hi
  rw [markers_of_open? hs ho hm hends, isMarkedOpen, ho]
  rfl

/-- The closing delimiter of a chunk seems what it is, unless a string spells one out. -/
theorem seemsMarked_of_mem_chunks {p : Piece} {chunk : Chunk} {inside : Inside}
    (h : chunk ∈ chunks p) (hi : chunk.inside? = some inside)
    (hs : ∀ t ∈ inside.tokens, t.kind = .string → Unspelled t.text.text) :
    inside.seemsMarked = inside.isMarked := by
  rw [← map_snd_sitedChunks] at h
  obtain ⟨⟨q, chunk⟩, hc, rfl⟩ := List.mem_map.mp h
  obtain ⟨m, cs, -, -, rfl⟩ := open?_of_mem_readChunk (leads_of_mem_sitedChunks hc).1 hi
  exact seemsMarked_lex hs

end Stencil.Nunjucks

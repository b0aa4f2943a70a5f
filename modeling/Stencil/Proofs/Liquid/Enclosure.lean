import Stencil.Proofs.Liquid.Name
import Stencil.Proofs.Liquid.Readable

/-!
# Written expressions between delimiters

The text of an expression stands between the delimiters of an output or a tag. It has no blanks at
its ends, its quotes are closed, and no closing delimiter stands in it outside quotes: such a text
is called tidy. Tidy texts that are put together are tidy, so the text of a readable expression is,
by induction over the expression. A text that is read as a value, with blanks wherever they stand,
closes its quotes and holds no closing delimiter outside them either: reading leads over operands
and loose characters.
-/

namespace Stencil.Liquid

/-! ### Tidy texts -/

/-- A text that can stand between delimiters as it is. -/
structure Tidy (s : List Char) : Prop where
  head : ∃ c cs, s = c :: cs ∧ Text.isBlank c = false ∧ c ≠ '\x7d'
  last : ∀ c ∈ s.getLast?, Text.isBlank c = false
  enclosed : ∀ close ∈ ['%', '\x7d'], isEnclosed close none s

instance (s : List Char) : Decidable (Tidy s) :=
  decidable_of_iff ((s ≠ [] ∧ ∀ c ∈ s.head?, Text.isBlank c = false ∧ c ≠ '\x7d') ∧
      (∀ c ∈ s.getLast?, Text.isBlank c = false) ∧ ∀ close ∈ ['%', '\x7d'], isEnclosed close none s)
    ⟨fun h => ⟨by cases s <;> simp_all, h.2.1, h.2.2⟩, fun h => ⟨by
      obtain ⟨c, cs, rfl, hc⟩ := h.head
      simpa using hc, h.last, h.enclosed⟩⟩

theorem ne_of_isLoose {c close : Char} (h : isLoose c) (hc : close ∈ ['%', '\x7d']) :
    Text.isQuote c = false ∧ c ≠ close := by
  obtain ⟨hq, h₁, h₂⟩ := isLoose_iff.mp h
  simp only [List.mem_cons, List.not_mem_nil, or_false] at hc
  rcases hc with rfl | rfl
  · exact ⟨hq, h₁⟩
  · exact ⟨hq, h₂⟩

/-- Enclosed texts that are put together. -/
theorem isEnclosed_append_enclosed {close : Char} {quote : Option Char} {s t : List Char}
    (hs : isEnclosed close quote s) (hq : ∀ q ∈ quote, Text.isQuote q)
    (ht : isEnclosed close none t)
    (hhead : t.head? ≠ some '\x7d') : isEnclosed close quote (s ++ t) := by
  fun_induction isEnclosed close quote s with
  | case1 => exact ht
  | case2 => cases hs
  | case3 q c cs ih =>
    rw [List.cons_append, List.cons_append, isEnclosed]
    exact ih hs hq
  | case4 q c cs hne ih =>
    have hc : c = '\\' → cs ≠ [] := by
      rintro rfl rfl
      have hq' : ('\\' == q) = false := by
        rw [beq_eq_false_iff_ne]
        rintro rfl
        exact absurd (hq _ rfl) (by decide)
      simp [isEnclosed, hq'] at hs
    rw [List.cons_append, isEnclosed]
    · exact ih hs (by grind)
    · intro _ _ hd _
      cases cs with
      | nil => exact hc hd rfl
      | cons e es => exact hne e es hd rfl
  | case5 c cs ih =>
    rw [Bool.and_eq_true, Bool.not_eq_true'] at hs
    have hclose : (c == close && (cs ++ t).head? == some '\x7d') = false := by
      cases cs with
      | nil => simp [hhead]
      | cons d ds => exact hs.1
    rw [List.cons_append, isEnclosed, hclose]
    exact ih hs.2 (by grind)

namespace Tidy

variable {s t : List Char}

theorem ne_nil (h : Tidy s) : s ≠ [] := by
  obtain ⟨c, cs, rfl, -⟩ := h.head
  simp

theorem trim (h : Tidy s) : Text.trim s = s := by
  refine Text.trim_eq_self_iff.mpr ⟨fun c hc => ?_, h.last⟩
  obtain ⟨d, cs, rfl, hd, -⟩ := h.head
  obtain rfl : d = c := by simpa using hc
  exact hd

theorem isTagArgs (h : Tidy s) : isTagArgs s :=
  isTagArgs_iff.mpr ⟨h.enclosed '%' (by simp), h.trim⟩

/-- Tidy texts with a separator between them. -/
theorem join (hs : Tidy s) {sep : List Char} (hsep : ∀ c ∈ sep, isLoose c) (ht : Tidy t) :
    Tidy (s ++ (sep ++ t)) := by
  obtain ⟨c, cs, rfl, hblank, hbrace⟩ := hs.head
  obtain ⟨d, ds, rfl, -, hbrace'⟩ := ht.head
  refine ⟨⟨c, cs ++ (sep ++ d :: ds), rfl, hblank, hbrace⟩, fun x hx => ?_, fun close hclose => ?_⟩
  · rw [List.getLast?_append_of_ne_nil _ (by simp), List.getLast?_append_of_ne_nil _ (by simp)]
      at hx
    exact ht.last x hx
  · refine isEnclosed_append_enclosed (hs.enclosed close hclose) (by simp) ?_ ?_
    · exact isEnclosed_append (fun x hx => ne_of_isLoose (hsep x hx) hclose)
        (ht.enclosed close hclose)
    · cases sep with
      | nil => simpa using hbrace'
      | cons x xs => simpa using (isLoose_iff.mp (hsep x List.mem_cons_self)).2.2

theorem append (hs : Tidy s) (ht : Tidy t) : Tidy (s ++ t) :=
  hs.join (by simp : ∀ c ∈ ([] : List Char), isLoose c) ht

/-- A word without blanks, quotes and parts of delimiters. -/
theorem of_chars (hne : s ≠ []) (h : ∀ c ∈ s, Text.isBlank c = false ∧ isLoose c) : Tidy s := by
  obtain ⟨c, cs, rfl⟩ := List.exists_cons_of_ne_nil hne
  have hc := h c List.mem_cons_self
  refine ⟨⟨c, cs, rfl, hc.1, (isLoose_iff.mp hc.2).2.2⟩,
    fun x hx => (h x (List.mem_of_getLast? hx)).1, fun close hclose => ?_⟩
  have := isEnclosed_append (fun x hx => ne_of_isLoose (h x hx).2 hclose) (t := []) rfl
  rwa [List.append_nil] at this

theorem identifier (h : isIdentifier s) : Tidy s := by
  obtain ⟨c, cs, hc, -⟩ := exists_cons_of_isIdentifier h
  refine of_chars (by simp [hc]) fun x hx => ?_
  exact ⟨(signs_of_mem_identifier h hx).1, isLoose_of_mem_identifier h hx⟩

theorem sign {c : Char} (hc : c ∈ ['.', '[', ']']) : Tidy [c] := by
  refine of_chars (by simp) fun x hx => ?_
  obtain rfl := List.mem_singleton.mp hx
  simp only [List.mem_cons, List.not_mem_nil, or_false] at hc
  rcases hc with rfl | rfl | rfl <;> decide

theorem number (h : isSigned s) : Tidy s := by
  obtain ⟨c, cs, rfl, -⟩ := exists_cons_of_isSigned h
  refine of_chars (by simp) fun x hx => ?_
  have hs := signs_of_mem_signed h hx
  exact ⟨hs.1, hs.2.1⟩

theorem isEnclosed_quoted {close q c : Char} (hc : c ≠ '\\') (cs : List Char) :
    isEnclosed close (some q) (c :: cs) =
      isEnclosed close (if c == q then none else some q) cs := by
  rw [isEnclosed]
  intro _ _ h
  exact absurd h hc

/-- The closing quote of a string is found again. -/
theorem isEnclosed_quotedBody {close q : Char} {body : List Char} (hq : Text.isQuote q)
    (hclose : q ≠ close) (h : Text.QuotedBody q body) : isEnclosed close (some q) body := by
  have hslash := Text.ne_backslash_of_isQuote hq
  induction h with
  | closing =>
    rw [isEnclosed_quoted hslash]
    simp [isEnclosed]
  | escaped c _ ih =>
    rw [isEnclosed]
    exact ih
  | doubled _ ih =>
    rw [isEnclosed_quoted hslash]
    simp [isEnclosed, hclose, hq, ih]
  | other hc hne _ ih =>
    rw [isEnclosed_quoted hc, if_neg (by simpa using hne)]
    exact ih

theorem string (h : Text.isString s) : Tidy s := by
  obtain ⟨q, cs, rfl, hq⟩ := exists_cons_of_isString h
  have hrest := (Text.isString_cons.mp h).2
  have hloose : ∀ close ∈ ['%', '\x7d'], q ≠ close := by
    intro close hclose
    rintro rfl
    simp only [List.mem_cons, List.not_mem_nil, or_false] at hclose
    rcases hclose with rfl | rfl <;> exact absurd hq (by decide)
  have hblank := Text.isBlank_eq_false_of_isQuote hq
  refine ⟨⟨q, cs, rfl, hblank, hloose _ (by simp)⟩, fun c hc => ?_, fun close hclose => ?_⟩
  · rw [List.getLast?_cons, Text.getLast?_of_quotedRest hrest] at hc
    obtain rfl : q = c := by simpa using hc
    exact hblank
  · have hbody := (Text.quotedBody_of_quotedRest hrest).1
    have := isEnclosed_quotedBody hq (hloose close hclose) hbody
    simp [isEnclosed, hloose close hclose, hq, this]

end Tidy

/-! ### Chains -/

theorem tidy_writeAccess {part : Part} (h : isAccess part) {position : Nat} {text : String}
    (ht : chainWords.writeAccess false position part = .ok text) : Tidy text.toList := by
  have hbrackets : ∀ {inner : String}, Tidy inner.toList → Tidy ("[" ++ inner ++ "]").toList := by
    intro inner hinner
    rw [String.toList_append, String.toList_append]
    exact ((Tidy.sign (c := '[') (by simp)).append hinner).append (Tidy.sign (c := ']') (by simp))
  cases part with
  | ident name =>
    obtain rfl := Except.ok.inj ht
    rw [String.toList_append]
    exact (Tidy.sign (c := '.') (by simp)).append (.identifier h)
  | index i =>
    obtain rfl := Except.ok.inj ht
    exact hbrackets (.number (isSigned_toString _))
  | literal content =>
    obtain rfl := Except.ok.inj ht
    rw [isAccess, Bool.and_eq_true] at h
    exact hbrackets (.string h.1)
  | null | blank | loopVar => cases h

theorem tidy_writeAccesses {parts : List Part} (h : ∀ part ∈ parts, isAccess part) {position : Nat}
    {s : List Char} (hs : Tidy s) {text : String}
    (ht : chainWords.writeAccesses false position parts = .ok text) : Tidy (s ++ text.toList) := by
  induction parts generalizing s position text with
  | nil =>
    obtain rfl := Except.ok.inj ht
    simpa using hs
  | cons part parts ih =>
    rw [List.forall_mem_cons] at h
    obtain ⟨first, hfirst, ht⟩ := bind_eq_ok.mp ht
    obtain ⟨rest, hrest, rfl⟩ := bind_pure_eq_ok.mp ht
    rw [String.toList_append, ← List.append_assoc]
    exact ih h.2 (hs.append (tidy_writeAccess h.1 hfirst)) hrest

theorem tidy_property {name : String} (hname : isIdentifier name.toList) {parts : List Part}
    (h : ∀ part ∈ parts, isAccess part) {text : String}
    (ht : chainWords.write (.ident name :: parts) = .ok text) : Tidy text.toList := by
  obtain ⟨root, hroot, ht⟩ := bind_eq_ok.mp ht
  obtain ⟨more, hmore, ht⟩ := bind_eq_ok.mp ht
  obtain rfl := Except.ok.inj hroot
  obtain rfl := Except.ok.inj ht
  rw [String.toList_append]
  exact tidy_writeAccesses h (.identifier hname) hmore

/-- The text of a readable chain is tidy. -/
theorem tidy_chain {chain : List Part} (h : isReadableChain chain) {text : String}
    (ht : chainWords.write chain = .ok text) : Tidy text.toList := by
  unfold isReadableChain at h
  split at h
  · simp only [Bool.and_eq_true] at h
    exact tidy_property h.1 (by simp) ht
  · simp only [Bool.and_eq_true, List.all_eq_true] at h
    exact tidy_property h.1 h.2 ht
  · rw [write_loopVar] at ht
    rw [List.all_eq_true] at h
    exact tidy_property (by decide) h ht
  · next content =>
    obtain rfl : content = text := by
      simpa [ChainWords.write, ChainWords.writeRoot, ChainWords.writeAccesses] using ht
    rw [Bool.or_eq_true, Bool.or_eq_true] at h
    rcases h with (h | h) | h
    · exact .string h
    · exact .number h
    · have hwords : ∀ word ∈ literalWords, isIdentifier word.toList := by decide
      exact .identifier (hwords content (by simpa using h))
  · obtain rfl := Except.ok.inj ht
    exact .identifier (by decide)
  · obtain rfl := Except.ok.inj ht
    exact .identifier (by decide)
  · cases h

/-! ### Expressions -/

variable {e : Expr} {r acc : Rendered}

theorem tidy_commaTexts {s : List Char} (hs : Tidy s) {texts : List (List Char)}
    (h : ∀ text ∈ texts, Tidy text) : Tidy (s ++ commaTexts texts) := by
  induction texts generalizing s with
  | nil => simpa [commaTexts] using hs
  | cons text texts ih =>
    rw [List.forall_mem_cons] at h
    have hfirst := hs.join (by decide : ∀ c ∈ ", ".toList, isLoose c) h.1
    simpa [commaTexts] using ih hfirst h.2

theorem tidy_argsText {s : List Char} (hs : Tidy s) {texts : List (List Char)}
    (h : ∀ text ∈ texts, Tidy text) : Tidy (s ++ argsText texts) := by
  cases texts with
  | nil => simpa [argsText] using hs
  | cons text texts =>
    rw [List.forall_mem_cons] at h
    have hfirst := hs.join (by decide : ∀ c ∈ ": ".toList, isLoose c) h.1
    simpa [argsText] using tidy_commaTexts hfirst h.2

/-- An expression whose text, if it is written, is tidy. -/
def WritesTidy (e : Expr) : Prop :=
  ∀ r, grammar.render e = .ok r → Tidy r.text.toList

instance (e : Expr) : Decidable (WritesTidy e) :=
  inferInstanceAs (Decidable (∀ r, grammar.render e = .ok r → Tidy r.text.toList))

theorem WritesTidy.atoms {texts : List (List Char)} {es : List Expr}
    (h : List.Forall₂ WritesAtom texts es) (hes : ∀ a ∈ es, WritesTidy a) :
    ∀ text ∈ texts, Tidy text := by
  induction h with
  | nil => simp
  | cons ha _ ih =>
    rw [List.forall_mem_cons] at hes
    have hfirst := hes.1 _ ha
    rw [String.toList_ofList] at hfirst
    exact List.forall_mem_cons.mpr ⟨hfirst, ih hes.2⟩

theorem tidy_step {s : Step Expr} (hs : isReadableStep s) (hargs : ∀ a ∈ s.args, WritesTidy a)
    {text : String} (h : stepText (s.map argumentOf) = .ok text) : Tidy text.toList := by
  obtain ⟨name, es, first, hfirst, htext, hname, -, hes⟩ := exists_filterText hs h
  obtain ⟨texts, hfilter, hatoms⟩ := filterText_eq_ok hfirst
  have htidy : Tidy first.toList := by
    rw [hfilter]
    exact tidy_argsText (.identifier hname) (WritesTidy.atoms hatoms fun a ha => hargs a (hes a ha))
  rcases htext with rfl | rfl
  · exact htidy
  · have hreverse : Tidy "reverse".toList := .identifier (by decide)
    have := htidy.join (by decide : ∀ c ∈ " | ".toList, isLoose c) hreverse
    simpa [reversal] using this

/-- The operand of an operator is its argument. -/
theorem exists_operand {op : Operator} {s : Step Expr}
    (h : Grammar.operand op (s.map argumentOf) = .ok r) :
    ∃ a ∈ s.args, grammar.render a = .ok r := by
  cases s with
  | apply name args =>
    rcases args with _ | ⟨a, _ | ⟨b, args⟩⟩
    · cases h
    · exact ⟨a, List.mem_cons_self, h⟩
    · cases h
  | truncate | replace | select | sort => cases h

theorem tidy_extend {s : Step Expr} (hacc : Tidy acc.text.toList) (hs : isReadableStep s)
    (hargs : ∀ a ∈ s.args, WritesTidy a) (h : grammar.extend acc (s.map argumentOf) = .ok r) :
    Tidy r.text.toList := by
  have hfilter : ∀ r, grammar.extendFilter acc (s.map argumentOf) = .ok r → Tidy r.text.toList := by
    intro r h
    obtain ⟨filter, hfilter, h⟩ := bind_eq_ok.mp h
    obtain ⟨left, hleft, h⟩ := bind_eq_ok.mp h
    obtain ⟨-, rfl⟩ := group_eq_ok hleft
    obtain rfl := Except.ok.inj h
    have := hacc.join (by decide : ∀ c ∈ " | ".toList, isLoose c) (tidy_step hs hargs hfilter)
    simpa using this
  rw [Grammar.extend, Step.operator?_map] at h
  cases hop : s.operator? with
  | none =>
    rw [hop] at h
    exact hfilter r h
  | some op =>
    rw [hop] at h
    obtain ⟨form, hform, h⟩ := bind_eq_ok.mp h
    cases form with
    | between token =>
      obtain ⟨c, rfl, -, -⟩ := exists_connector hform
      obtain ⟨right, hright, h⟩ := bind_eq_ok.mp h
      obtain ⟨left, hl, h⟩ := bind_eq_ok.mp h
      obtain ⟨right', hr, h⟩ := bind_eq_ok.mp h
      obtain ⟨-, rfl⟩ := group_eq_ok hl
      obtain ⟨-, rfl⟩ := group_eq_ok hr
      obtain rfl := Except.ok.inj h
      obtain ⟨a, ha, hrender⟩ := exists_operand hright
      have hsep : ∀ x ∈ ' ' :: c.text.toList ++ [' '], isLoose x := by cases c <;> decide
      simpa using hacc.join hsep (hargs a ha _ hrender)
    | filter => exact hfilter r h
    | swapped | leading => cases op <;> cases hform

theorem tidy_steps {steps : List (Step Expr)} (hacc : Tidy acc.text.toList)
    (hsteps : ∀ s ∈ steps, isReadableStep s) (hargs : ∀ s ∈ steps, ∀ a ∈ s.args, WritesTidy a)
    (h : grammar.renderSteps steps acc = .ok r) : Tidy r.text.toList := by
  induction steps generalizing acc with
  | nil =>
    obtain rfl := Except.ok.inj h
    exact hacc
  | cons s steps ih =>
    rw [List.forall_mem_cons] at hsteps hargs
    obtain ⟨acc', hext, h⟩ := bind_eq_ok.mp h
    rw [Grammar.renderArgs_eq_map] at hext
    exact ih (tidy_extend hacc hsteps.1 hargs.1 hext) hsteps.2 hargs.2 h

/-- The text of a readable expression is tidy. -/
theorem tidy_render (h : Readable e) : WritesTidy e := by
  induction h with
  | intro hchain hsteps _ ih =>
    intro r hr
    rw [Grammar.render] at hr
    obtain ⟨text, htext, hr⟩ := bind_eq_ok.mp hr
    obtain ⟨r', hr', rfl⟩ := bind_pure_eq_ok.mp hr
    have hacc : Tidy (⟨text, .atom⟩ : Rendered).text.toList := tidy_chain hchain htext
    exact tidy_steps hacc hsteps ih hr'

/-- The output of a regular expression is read as that output. -/
theorem Regular.read_output {text : String} (he : Regular e) (h : grammar.text e = .ok text)
    (trim : Trim) : read (Markup.output text trim) = .ok [.output e trim] := by
  obtain ⟨r, hr, rfl⟩ := map_eq_ok.mp h
  have htidy := tidy_render he.readable r hr
  obtain ⟨start, span, hparse⟩ := parse_output (htidy.enclosed '\x7d' (by decide)) trim
  obtain ⟨v, hv, hexpr⟩ := (render_sound he r hr).readsValue.parseValue_padded start
  rw [read, readWith, hparse, hv, map_ok, bind_ok, Element.toNodes, Element.toNode, hexpr]
  rfl

/-! ### Values that are read -/

/-- A text that can stand inside an output, also after something else. -/
def Sealed (s : List Char) : Prop :=
  isEnclosed '\x7d' none s ∧ s.head? ≠ some '\x7d'

theorem Sealed.append {s t : List Char} (hs : Sealed s) (ht : Sealed t) : Sealed (s ++ t) := by
  refine ⟨isEnclosed_append_enclosed hs.1 (by simp) ht.1 ht.2, ?_⟩
  cases s with
  | nil => exact ht.2
  | cons => exact hs.2

theorem Tidy.sealed {s : List Char} (h : Tidy s) : Sealed s := by
  obtain ⟨c, cs, rfl, -, hc⟩ := h.head
  exact ⟨h.enclosed _ (by simp), by simpa using hc⟩

theorem sealed_of_loose {s : List Char} (h : ∀ c ∈ s, isLoose c) : Sealed s := by
  have henclosed := isEnclosed_append (fun c hc => ne_of_isLoose (h c hc) (by simp))
    (rfl : isEnclosed '\x7d' none [])
  rw [List.append_nil] at henclosed
  exact ⟨henclosed, fun hhead => (isLoose_iff.mp (h _ (List.mem_of_mem_head? hhead))).2.2 rfl⟩

/-- What reading leads over can stand inside an output. -/
theorem Walked.exists_sealed {p rest : Piece} {os : List Operand} (h : Walked p os rest) :
    ∃ s, p.text = s ++ rest.text ∧ Sealed s := by
  induction h with
  | done => exact ⟨[], rfl, rfl, by simp⟩
  | skip h _ ih =>
    obtain ⟨s, hleads, hloose, -⟩ := h
    obtain ⟨t, ht, hsealed⟩ := ih
    exact ⟨s ++ t, by rw [hleads.text, ht, List.append_assoc],
      (sealed_of_loose hloose).append hsealed⟩
  | operand h _ ih =>
    obtain ⟨s, hs, hleads, -⟩ := exists_of_operandAt h
    obtain ⟨t, ht, hsealed⟩ := ih
    have hfirst : Sealed s := hs.forall_text (fun _ _ => .append) (fun _ => sealed_of_loose)
      fun _ _ hstring => (Tidy.string hstring).sealed
    exact ⟨s ++ t, by rw [hleads.text, ht, List.append_assoc], hfirst.append hsealed⟩

/-- A value can stand inside an output. -/
theorem isEnclosed_of_parseValue {p : Piece} {v : Value} (h : parseValue p = .ok v) :
    isEnclosed '\x7d' none p.text := by
  obtain ⟨rest, hread, hrest⟩ := exists_of_parseValue h
  obtain ⟨s, hs, hsealed⟩ := ((Walked.readValue hread).append (.trimStart rest)).exists_sealed
  rw [hs, hrest, List.append_nil]
  exact hsealed.1

end Stencil.Liquid

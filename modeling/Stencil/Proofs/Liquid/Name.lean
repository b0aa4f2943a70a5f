import Stencil.Liquid.Writer
import Stencil.Proofs.Liquid.Token
import Stencil.Proofs.Liquid.Value

/-!
# Names in tags and outputs

The smallest expression is a plain name. It is read as itself in every place where a template can
have an expression: in an output, as a condition, as a value of a case distinction, as the
collection of a loop, in an assignment and as the name of a subtemplate. The last three are read as
sources of their own.
-/

namespace Stencil.Liquid

/-- An identifier that is no keyword and not the name of the loop object. -/
def isPlainName (name : String) : Bool :=
  isIdentifier name.toList && (Keyword.ofText? name).isNone && name != "not" &&
    name != chainWords.loopVar

variable {name : String}

/-! ### Characters of identifiers -/

theorem isPlainName_iff :
    isPlainName name ↔ isOperandChain [.ident name] ∧ name ≠ chainWords.loopVar := by
  simp [isPlainName, isOperandChain]

theorem isIdentifier_of_isPlainName (h : isPlainName name) : isIdentifier name.toList := by
  simp only [isPlainName, Bool.and_eq_true] at h
  exact h.1.1.1

/-- An identifier can stand inside delimiters. -/
theorem isEnclosed_identifier {name : List Char} (h : isIdentifier name) {close : Char}
    (hclose : close = '%' ∨ close = '\x7d') : isEnclosed close none name := by
  have hchars : ∀ c ∈ name, Text.isQuote c = false ∧ c ≠ close := by
    intro c hc
    have hs := signs_of_mem_identifier h hc
    refine ⟨hs.2.1, ?_⟩
    rcases hclose with rfl | rfl
    · exact hs.2.2.1
    · exact hs.2.2.2.1
  have := isEnclosed_append hchars (t := []) rfl
  rwa [List.append_nil] at this

theorem trim_identifier {name : List Char} (h : isIdentifier name) : Text.trim name = name :=
  Text.trim_eq_self_iff.mpr
    ⟨fun _ hc => (signs_of_mem_identifier h (List.mem_of_head? hc)).1,
      fun _ hc => (signs_of_mem_identifier h (List.mem_of_getLast? hc)).1⟩

/-! ### Names as operands -/

/-- An operand for a name outside loops stands for that name everywhere. -/
theorem toExpr_of_ident {o : Operand} (h : o.toExpr {} = .ident name)
    (hl : name ≠ chainWords.loopVar) (scope : Scope) : o.toExpr scope = .ident name := by
  have hc := congrArg Expr.chain h
  cases o with
  | quoted text | number text => simp [Operand.toExpr, Expr.literal, Expr.ident, Expr.ofChain] at hc
  | keyword word text =>
    cases word <;>
      simp [Operand.toExpr, Keyword.toExpr, Expr.literal, Expr.null, Expr.ident, Expr.ofChain] at hc
  | property root accesses text =>
    cases accesses with
    | cons a as => simp [Operand.toExpr, accessParts, Expr.ident, Expr.ofChain] at hc
    | nil =>
      obtain rfl : root = name := by
        simpa [Operand.toExpr, accessParts, Expr.ident, Expr.ofChain] using hc
      simp [Operand.toExpr, accessParts, Expr.ident, hl]

theorem spells_name (h : isPlainName name) : Spells name.toList [.ident name] := by
  obtain ⟨text, hw, hs⟩ := write_spells (isPlainName_iff.mp h).1
  obtain rfl : name = text := by
    simpa [ChainWords.write, ChainWords.writeRoot, ChainWords.writeAccesses] using hw
  exact hs

/-- A plain name with at most a space after it is a chain by itself. -/
theorem readChain_name (h : isPlainName name) {rest : List Char} (hr : rest = [] ∨ rest = [' '])
    (start : Nat) :
    ∃ o stop, readChain ⟨start, name.toList ++ rest⟩ = .ok (⟨o, []⟩, ⟨stop, []⟩) ∧
      ∀ scope, o.toExpr scope = .ident name := by
  obtain ⟨o, _, hread, ho, rfl⟩ := (spells_name h).readsChain.readChain (hr.imp_right .inl) start
  have htrim : ∃ stop, Piece.trimStart ⟨start + Text.byteLength name.toList, rest⟩ =
      ⟨stop, []⟩ := by
    rcases hr with rfl | rfl
    · exact ⟨_, rfl⟩
    · exact ⟨_, rfl⟩
  obtain ⟨stop, hstop⟩ := htrim
  exact ⟨o, stop, hstop ▸ hread, toExpr_of_ident ho (isPlainName_iff.mp h).2⟩

/-! ### Names as conditions and values -/

/-- A plain name is a value by itself. -/
theorem readValue_name (h : isPlainName name) {rest : List Char} (hr : rest = [] ∨ rest = [' '])
    (start : Nat) :
    ∃ o stop, readValue ⟨start, name.toList ++ rest⟩ = .ok (⟨⟨o, []⟩, []⟩, ⟨stop, []⟩) ∧
      ∀ scope, o.toExpr scope = .ident name := by
  obtain ⟨o, stop, hread, ho⟩ := readChain_name h hr start
  obtain ⟨stop', hfilters⟩ := readFilters_blank (.inl rfl) stop
  refine ⟨o, stop', ?_, ho⟩
  simp only [readValue, hread, ok_bind, hfilters]
  rfl

theorem parseValue_name (h : isPlainName name) (start : Nat) :
    ∃ o, parseValue ⟨start, name.toList⟩ = .ok ⟨⟨o, []⟩, []⟩ ∧
      ∀ scope, o.toExpr scope = .ident name := by
  obtain ⟨o, stop, hread, ho⟩ := readValue_name h (.inl rfl) start
  rw [List.append_nil] at hread
  refine ⟨o, ?_, ho⟩
  rw [parseValue, hread]
  rfl

/-- A plain name between spaces, as it stands in an output. -/
theorem parseValue_padded (h : isPlainName name) (start : Nat) :
    ∃ o, parseValue ⟨start, ' ' :: name.toList ++ [' ']⟩ = .ok ⟨⟨o, []⟩, []⟩ ∧
      ∀ scope, o.toExpr scope = .ident name := by
  obtain ⟨o, stop, hread, ho⟩ := readValue_name h (.inr rfl) (start + 1)
  refine ⟨o, ?_, ho⟩
  rw [parseValue, List.cons_append, readValue_space, hread]
  rfl

theorem parseChain_name (h : isPlainName name) (start : Nat) :
    ∃ o, parseChain ⟨start, name.toList⟩ = .ok ⟨o, []⟩ ∧ ∀ scope, o.toExpr scope = .ident name := by
  obtain ⟨o, stop, hread, ho⟩ := readChain_name h (.inl rfl) start
  rw [List.append_nil] at hread
  refine ⟨o, ?_, ho⟩
  rw [parseChain, hread]
  rfl

theorem parseWhen_name (h : isPlainName name) (start : Nat) :
    ∃ o, parseWhen ⟨start, name.toList⟩ = .ok [o] ∧ ∀ scope, o.toExpr scope = .ident name := by
  obtain ⟨o, hparse, ho⟩ := (spells_name h).parseWhen start
  exact ⟨o, hparse, toExpr_of_ident ho (isPlainName_iff.mp h).2⟩

theorem isSingleOperand_name (h : isPlainName name) (start : Nat) :
    isSingleOperand ⟨start, name.toList⟩ := by
  obtain ⟨o, hparse, -⟩ := parseValue_name h start
  rw [isSingleOperand, hparse]

/-! ### Fragments -/

theorem read_empty : read "" = .ok [] := by
  rw [read, readWith, parse, tokenize, Piece.ofString]
  simp [tokenizePiece_nil, Element.ofTokens, Nesting.run, Nesting.finish, Element.toNodes]

/-- The tree of a source that is a single output: whether there is one only depends on the value. -/
theorem parse_output {body : String} (h : isEnclosed '\x7d' none body.toList) (trim : Trim) :
    ∃ start span, parse (Markup.output body trim) =
      (parseValue ⟨start, ' ' :: body.toList ++ [' ']⟩).map fun v => [.output v span trim] := by
  obtain ⟨⟨start, cs⟩, span, htoken, hinner⟩ := readToken_output h trim 0 []
  obtain rfl : cs = ' ' :: body.toList ++ [' '] := hinner
  have hne : (Markup.output body trim).toList ++ [] ≠ [] := by simp [toList_output]
  have htokens : tokenize (Markup.output body trim) =
      .ok [.output ⟨start, ' ' :: body.toList ++ [' ']⟩ span trim] := by
    rw [tokenize, Piece.ofString, ← List.append_nil (Markup.output body trim).toList,
      tokenizePiece_cons hne htoken, tokenizePiece_nil]
    rfl
  refine ⟨start, span, ?_⟩
  rw [parse, htokens, bind_ok, Element.ofTokens, Nesting.run, feed]
  cases parseValue ⟨start, ' ' :: body.toList ++ [' ']⟩ <;> rfl

/-- A fragment is read as what its value stands for. -/
theorem readFragment_of_value {text : List Char} {body : String} {scope : Scope} {P : Expr → Prop}
    (h : isEnclosed '\x7d' none body.toList) (ht : Text.trim text = body.toList)
    (hv : ∀ start, ∃ v, parseValue ⟨start, ' ' :: body.toList ++ [' ']⟩ = .ok v ∧
      ∃ e, v.toExpr scope = .ok e ∧ P e) (depth : Nat) :
    ∃ e, readFragment (depth + 1) scope text = .ok e ∧ P e := by
  have hsource : fragmentSource text = Markup.output body .unset := by
    simp [← String.toList_inj, fragmentSource, ht, Markup.output, Markup.delimit, Markup.marker,
      Trim.unset]
  obtain ⟨start, span, hparse⟩ := parse_output h .unset
  obtain ⟨v, hvalue, e, he, hP⟩ := hv start
  refine ⟨e, ?_, hP⟩
  rw [readFragment, readWith, hsource, hparse, hvalue, map_ok, bind_ok, Element.toNodes,
    Element.toNode, he]
  rfl

/-- A way to read fragments that reads plain names, possibly with blanks around them. -/
def ReadsNames (fragment : FragmentReader) : Prop :=
  ∀ scope name text, isPlainName name → Text.trim text = name.toList →
    fragment scope text = .ok (.ident name)

theorem readsNames_readFragment (depth : Nat) : ReadsNames (readFragment (depth + 1)) := by
  intro scope name text h ht
  have henclosed := isEnclosed_identifier (isIdentifier_of_isPlainName h) (.inr rfl)
  have hvalue : ∀ start, ∃ v, parseValue ⟨start, ' ' :: name.toList ++ [' ']⟩ = .ok v ∧
      ∃ e, v.toExpr scope = .ok e ∧ e = .ident name := by
    intro start
    obtain ⟨o, hparse, ho⟩ := parseValue_padded h start
    exact ⟨_, hparse, .ident name, congrArg Except.ok (ho scope), rfl⟩
  obtain ⟨e, he, rfl⟩ := readFragment_of_value henclosed ht hvalue depth
  exact he

/-! ### Headers with two names -/

variable {x : String}

/-- Two identifiers with a text between them can be the arguments of a tag. -/
theorem isTagArgs_names {x y : List Char} (hx : isIdentifier x) (hy : isIdentifier y)
    (link : List Char) (hl : ∀ c ∈ link, Text.isQuote c = false ∧ c ≠ '%') :
    isTagArgs (x ++ link ++ y) := by
  obtain ⟨c, cs, rfl, -⟩ := exists_cons_of_isIdentifier hx
  obtain ⟨d, ds, rfl, -⟩ := exists_cons_of_isIdentifier hy
  have hxs : ∀ e ∈ c :: cs, Text.isQuote e = false ∧ e ≠ '%' := fun e he =>
    (signs_of_mem_identifier hx he).2.imp_right And.left
  refine isTagArgs_iff.mpr ⟨?_, Text.trim_eq_self_iff.mpr ⟨?_, ?_⟩⟩
  · rw [List.append_assoc]
    exact isEnclosed_append hxs (isEnclosed_append hl (isEnclosed_identifier hy (.inl rfl)))
  · exact (Text.trim_eq_self_iff.mp (trim_identifier hx)).1
  · rw [List.getLast?_append_of_ne_nil _ (by simp)]
    exact (Text.trim_eq_self_iff.mp (trim_identifier hy)).2

theorem isEmpty_of_isIdentifier {name : List Char} (h : isIdentifier name) :
    name.isEmpty = false := by
  obtain ⟨c, cs, rfl, -⟩ := exists_cons_of_isIdentifier h
  rfl

theorem readLoopHeader_names {fragment : FragmentReader} (hf : ReadsNames fragment)
    (hx : isIdentifier x.toList) (h : isPlainName name) (scope : Scope) :
    readLoopHeader fragment scope (x.toList ++ " in ".toList ++ name.toList) =
      .ok (x, .ident name) := by
  have hname := isIdentifier_of_isPlainName h
  have hspace : ' ' ∉ x.toList := fun hs =>
    absurd (signs_of_mem_identifier hx hs).1 (by decide)
  have hcut := Text.cut?_append hspace "in ".toList name.toList
  have hmodifier : loopModifier? name.toList = none := by
    rw [loopModifier?, Text.words_of_solid fun c hc => (signs_of_mem_identifier hname hc).1]
    rfl
  exact readLoopHeader_eq_ok_iff.mpr ⟨_, _, hcut,
    by rw [trim_identifier hx, isEmpty_of_isIdentifier hx], hmodifier,
    hf scope name _ h (trim_identifier hname), by rw [trim_identifier hx, String.ofList_toList]⟩

theorem readAssign_names {fragment : FragmentReader} (hf : ReadsNames fragment)
    (hx : isIdentifier x.toList) (h : isPlainName name) (scope : Scope) {tag : Tag}
    (ha : tag.args.text = x.toList ++ " = ".toList ++ name.toList) :
    readAssign fragment scope tag =
      .ok (.assignment x (some (.ident name)) none tag.trim .unset) := by
  have hname := trim_identifier (isIdentifier_of_isPlainName h)
  have hsign : '=' ∉ x.toList ++ [' '] := by
    intro hs
    rcases List.mem_append.mp hs with hs | hs
    · exact (signs_of_mem_identifier hx hs).2.2.2.2.1 rfl
    · simp at hs
  have hcut := Text.cut?_append hsign [] (' ' :: name.toList)
  rw [readAssign, ha, show x.toList ++ " = ".toList ++ name.toList =
    x.toList ++ [' '] ++ ['='] ++ ' ' :: name.toList by simp, hcut]
  simp only [Text.trim_concat_space, trim_identifier hx, isEmpty_of_isIdentifier hx,
    hf scope name _ h ((Text.trim_cons_space _).trans hname)]
  simp

end Stencil.Liquid

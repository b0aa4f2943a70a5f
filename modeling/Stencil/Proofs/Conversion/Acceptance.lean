import Stencil.Node.Equality
import Stencil.Proofs.Conversion
import Stencil.Proofs.Liquid.Acceptance
import Stencil.Proofs.Nunjucks.Expression
import Stencil.Proofs.Nunjucks.Template

/-!
# What is converted to Liquid is Liquid

A text in either language that is converted to Liquid is read as Liquid, as long as nothing in the
template leaves its delimiters and its expressions fit the places where they stand. The writer does
not see to that by itself: it writes a property of a literal, a filter in a condition or a text with
a closing tag in it as they are.

## Main results

* `exists_read_of_convert` : what is converted to Liquid is read.
-/

namespace Stencil

open Liquid (Contained Fits Readable IsCondition)

/-- A text in either language that is converted to Liquid is read as Liquid, if nothing in its
template leaves its delimiters and every expression fits its place. -/
theorem exists_read_of_convert {language input text : String} {reader : Reader} {nodes : List Node}
    (hreader : Reader.ofLanguage? language = some reader) (hread : reader.read input = .ok nodes)
    (hc : Contained [] nodes) (hf : Fits nodes) (h : convert language "liquid" input = .ok text) :
    ∃ nodes', Liquid.read text = .ok nodes' := by
  obtain ⟨nodes', hread', hwrite⟩ := (convert_eq_ok_iff reader .liquid hreader rfl).mp h
  obtain rfl := Except.ok.inj (hread.symm.trans hread')
  exact Liquid.exists_read_of_write hc hf hwrite

/-- Nested blocks of every kind, with markers on some of their tags. -/
theorem exists_read_of_convert_nested :
    let input := "a \x7b b\x7b%- if a %\x7d\x7b% for key in items %\x7d\x7b\x7b- key \x7d\x7d " ++
      "\x7b%- else -%\x7d\x7b% raw %\x7d\x7b\x7b x \x7d\x7d\x7b% endraw -%\x7d\x7b% endfor %\x7d" ++
      "\x7b% elif b -%\x7d\x7b%- include page -%\x7d\x7b% else %\x7d\x7b# c -#\x7d" ++
      "\x7b% endif %\x7d\x7b% set x %\x7d\x7b%- set y = z -%\x7d\x7b% endset %\x7d"
    let text := "a \x7b b\x7b%- if a %\x7d\x7b% for key in items %\x7d\x7b\x7b- key \x7d\x7d " ++
      "\x7b%- else -%\x7d\x7b% raw %\x7d\x7b\x7b x \x7d\x7d\x7b% endraw -%\x7d\x7b% endfor %\x7d" ++
      "\x7b% elsif b -%\x7d\x7b%- include page -%\x7d\x7b% else %\x7d\x7b% comment %\x7dc" ++
      "\x7b% endcomment -%\x7d\x7b% endif %\x7d\x7b% capture x %\x7d\x7b%- assign y = z -%\x7d" ++
      "\x7b% endcapture %\x7d"
    let nodes : List Node :=
      [.text "a \x7b b",
       .conditional .ifTrue
         [⟨some (.ident "a"), [.loop "key" (.ident "items")
             [.output (.ident "key") ⟨true, false⟩, .text " "]
             (some [.raw "\x7b\x7b x \x7d\x7d" .unset ⟨false, true⟩]) .unset ⟨true, true⟩ .unset],
           .unset⟩,
          ⟨some (.ident "b"), [.subtemplate (.ident "page") false ⟨true, true⟩], ⟨false, true⟩⟩,
          ⟨none, [.comment "c" ⟨false, false⟩ ⟨false, true⟩], .unset⟩] ⟨true, false⟩ .unset,
       .assignment "x" none (some [.assignment "y" (some (.ident "z")) none ⟨true, true⟩ .unset])
         .unset .unset]
    Reader.nunjucks.read input = .ok nodes ∧ Contained [] nodes ∧ Fits nodes ∧
      convert "nunjucks" "liquid" input = .ok text ∧ ∃ nodes', Liquid.read text = .ok nodes' := by
  intro input text nodes
  have hread : Reader.nunjucks.read input = .ok nodes := by decide +kernel
  have hconvert : convert "nunjucks" "liquid" input = .ok text :=
    (convert_eq_ok_iff .nunjucks .liquid rfl rfl).mpr ⟨nodes, hread, by decide +kernel⟩
  have hc : Contained [] nodes := by
    refine .text (.node (by decide +kernel) (.conditional (by decide +kernel) (.singleton (.loop
      (by decide +kernel) (by decide +kernel) (.cons (.output (by decide +kernel) _)
        (.text (.nil (by decide +kernel)))) ?_ _ _ _)) (by simp) (by decide +kernel) ?_ _ _ _)
      (.singleton (.capture (by decide +kernel)
        (.singleton (.assign (by decide +kernel) (by decide +kernel) _ _)) _ _)))
    · rintro _ ⟨⟩
      exact .singleton (.raw (by decide +kernel) _ _)
    · refine List.forall_mem_cons.mpr ⟨.singleton (.subtemplate (by decide +kernel) _ _), ?_⟩
      exact List.forall_mem_singleton.mpr (.singleton (.comment (by decide +kernel) _ _))
  have hf : Fits nodes := by
    simp only [Fits, nodes, Node.nested, Node.inner, Node.nestedBranches, Node.nestedOption,
      List.forall_mem_cons, List.cons_append, List.nil_append, List.append_nil, List.not_mem_nil,
      false_imp_iff, implies_true, and_true]
    exact ⟨.text _, .conditional (by simp) (by simp [Liquid.ElseLast]) (by decide +kernel) _ _,
      .loop (fun rest => Text.cut?_append (by decide) "in ".toList rest) (by decide +kernel)
        (by decide +kernel) _ _ _, .output (by decide +kernel) _, .text _, .raw _ _ _,
      .subtemplate (.inl (by decide +kernel)) _ _, .comment _ _ _, .capture _ _ _ _,
      .assign (by decide) (by decide +kernel) _ _⟩
  exact ⟨hread, hc, hf, hconvert, exists_read_of_convert rfl hread hc hf hconvert⟩

/-- A property of a literal is converted, but it is no Liquid. -/
theorem read_convert_of_literal_property :
    ∃ text, convert "nunjucks" "liquid" "\x7b\x7b 'ab'.size \x7d\x7d" = .ok text ∧
      ∃ error, Liquid.read text = .error error := by
  have hreadable : Nunjucks.Readable (.ofChain [.literal "'ab'", .ident "size"]) :=
    (Nunjucks.plain_of_chain (by decide +kernel)).readable
  obtain ⟨text, trim, htext, hread⟩ := hreadable.read_output .unset
  obtain rfl : "'ab'.size" = text := Except.ok.inj htext
  have hliquid : Liquid.grammar.text (.ofChain [.literal "'ab'", .ident "size"]) =
      .ok "'ab'.size" :=
    rfl
  refine ⟨Markup.output "'ab'.size" trim,
    (convert_eq_ok_iff .nunjucks .liquid rfl rfl).mpr ⟨_, hread, ?_⟩, ?_⟩
  · simp [Writer.liquid, Liquid.write, Dialect.write, Dialect.writeNode, Liquid.dialect, hliquid]
  have henclosed : Liquid.isEnclosed '\x7d' none "'ab'.size".toList := by decide
  obtain ⟨start, span, hparse⟩ := Liquid.parse_output henclosed trim
  have hstring : Text.isString "'ab'".toList := by decide
  have hnext : ∀ c ∈ ".size ".toList.head?, Text.isQuote c = false := by decide
  have hquoted := Liquid.readQuoted_append hstring hnext (start + 1)
  have hoperand : Liquid.readOperand ⟨start + 1, "'ab'.size ".toList⟩ =
      .ok (.quoted ⟨start + 1, "'ab'".toList⟩, ⟨start + 1 + 4, ".size ".toList⟩) :=
    congrArg (Except.map fun q : Piece × Piece => (Liquid.Operand.quoted q.1, q.2)) hquoted
  have hvalue := Liquid.parseValue_eq_error (p := ⟨start, ' ' :: "'ab'.size".toList ++ [' ']⟩) rfl
    hoperand rfl rfl
  rw [hvalue] at hparse
  exact ⟨_, by rw [Liquid.read, Liquid.readWith, hparse]; rfl⟩

end Stencil

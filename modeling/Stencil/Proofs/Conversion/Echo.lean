import Stencil.Node.Equality
import Stencil.Proofs.Conversion
import Stencil.Proofs.Liquid.Echo
import Stencil.Proofs.Nunjucks.Echo

/-!
# What conversions keep

What is converted between the languages and read again holds the same text, raw blocks and comments,
and it does not come to refer to the loop object, as long as nothing in the template leaves its
delimiters and no name in the body of a loop is the word for that object. The writers see to
neither: they write comments, raw blocks and names as they are, whatever they mean in the other
language.

## Main results

* `contents_of_convert` : a conversion keeps text, raw blocks and comments.
* `loopFree_of_convert` : a conversion makes no variable the loop object.
-/

namespace Stencil

variable {language input : String} {reader : Reader} {nodes : List Node}

/-- A conversion keeps text, raw blocks and comments, if nothing in the template leaves its
delimiters in the target language. -/
theorem contents_of_convert (hreader : Reader.ofLanguage? language = some reader)
    (hread : reader.read input = .ok nodes) :
    (∀ text nodes', Liquid.Contained [] nodes → convert language "liquid" input = .ok text →
        Liquid.read text = .ok nodes' → Node.contents nodes' = Node.contents nodes) ∧
      ∀ text nodes', Nunjucks.Contained [] nodes → convert language "nunjucks" input = .ok text →
        Nunjucks.read text = .ok nodes' → Node.contents nodes' = Node.contents nodes := by
  refine ⟨fun text nodes' hc h hr => ?_, fun text nodes' hc h hr => ?_⟩
  · have hwrite : Liquid.write nodes = .ok text :=
      write_of_convert reader .liquid hreader rfl hread h
    simpa using (Liquid.echoes_of_write hc hwrite hr).contents
  · have hwrite : Nunjucks.write nodes = .ok text :=
      write_of_convert reader .nunjucks hreader rfl hread h
    simpa using (Nunjucks.echoes_of_write hc hwrite hr).contents

/-- A comment with a closing delimiter in it, a raw block in a case distinction in a loop, and a
text that is a closing delimiter. -/
theorem contents_of_convert_blocks :
    let input := "a \x7b b\x7b% comment %\x7d c %\x7d \x7b\x7b \x7b% endcomment %\x7d" ++
      "\x7b% for x in xs %\x7d\x7b% case x %\x7d\x7b% when 1 %\x7d\x7b\x7b x \x7d\x7d" ++
      "\x7b% else %\x7d\x7b% raw %\x7d\x7b\x7b y \x7d\x7d\x7b% endraw %\x7d\x7b% endcase %\x7d" ++
      "\x7b% endfor %\x7d\x7b% unless z %\x7d #\x7d\x7b% endunless %\x7d"
    let text := "a \x7b b\x7b#  c %\x7d \x7b\x7b  #\x7d\x7b% for x in xs %\x7d" ++
      "\x7b% if x == 1 %\x7d\x7b\x7b x \x7d\x7d\x7b% else %\x7d\x7b% raw %\x7d" ++
      "\x7b\x7b y \x7d\x7d\x7b% endraw %\x7d\x7b% endif %\x7d\x7b% endfor %\x7d" ++
      "\x7b% if not z %\x7d #\x7d\x7b% endif %\x7d"
    let branches : List (Branch (List Node)) :=
      [⟨some (.ofChain [.literal "1"]), [.output (.ident "x") .unset], .unset⟩,
       ⟨none, [.raw "\x7b\x7b y \x7d\x7d" .unset .unset], .unset⟩]
    let nodes : List Node :=
      [.text "a \x7b b", .comment " c %\x7d \x7b\x7b " .unset .unset,
       .loop "x" (.ident "xs")
         [.conditional .caseOf (⟨some (.ident "x"), [], .unset⟩ :: branches) .unset .unset] none
         .unset .unset .unset,
       .conditional .ifFalse [⟨some (.ident "z"), [.text " #\x7d"], .unset⟩] .unset .unset]
    Reader.liquid.read input = .ok nodes ∧ Liquid.Contained [] nodes ∧
      Nunjucks.Contained [] nodes ∧ convert "liquid" "liquid" input = .ok input ∧
      convert "liquid" "nunjucks" input = .ok text ∧
      (∃ nodes', Liquid.read input = .ok nodes' ∧ Node.contents nodes' = Node.contents nodes) ∧
      ∃ nodes', Nunjucks.read text = .ok nodes' ∧ Node.contents nodes' = Node.contents nodes := by
  intro input text branches nodes
  have hread : Reader.liquid.read input = .ok nodes := by decide +kernel
  have hliquid : convert "liquid" "liquid" input = .ok input :=
    (convert_eq_ok_iff .liquid .liquid rfl rfl).mpr ⟨nodes, hread, by decide +kernel⟩
  have hnunjucks : convert "liquid" "nunjucks" input = .ok text :=
    (convert_eq_ok_iff .liquid .nunjucks rfl rfl).mpr ⟨nodes, hread, by decide +kernel⟩
  have hc : Liquid.Contained [] nodes := by
    refine .text (.node (by decide +kernel) (.comment (by decide +kernel) _ _) (.cons (.loop
      (by decide +kernel) (by decide +kernel) (.singleton (.conditional (by decide +kernel)
        (.nil Liquid.passage_nil) (fun _ => rfl) (by decide +kernel) ?_ _ _ _)) (by simp) _ _ _)
      (.singleton (.conditional (by decide +kernel) (.text (.nil (by decide +kernel))) (by simp)
        (by simp) (by simp) _ _ _))))
    refine List.forall_mem_cons.mpr ⟨.singleton (.output (by decide +kernel) _), ?_⟩
    exact List.forall_mem_singleton.mpr (.singleton (.raw (by decide +kernel) _ _))
  have hc' : Nunjucks.Contained [] nodes := by
    have hcase : Nunjucks.ContainedNode
        (.conditional .caseOf (⟨some (.ident "x"), [], .unset⟩ :: branches) .unset .unset) := by
      refine .conditional rfl (by simp) (by decide +kernel)
        (.singleton (.output (by decide +kernel) (by decide +kernel) _)) (by simp) ?_ _
      exact List.forall_mem_singleton.mpr (.singleton (.raw ⟨by decide +kernel, by decide +kernel⟩
        (by decide +kernel) (by decide +kernel) _ _))
    exact .text (.node (by decide +kernel) (.comment (by decide +kernel) _ _) (.cons (.loop
      (.singleton (by decide +kernel)) (by decide +kernel) (.singleton hcase) (by simp) _ _ _)
      (.singleton (.conditional rfl (by simp) (by decide +kernel) (.text (.nil (by decide +kernel)))
        (by simp) (by simp) _))))
  have hreader : Reader.ofLanguage? "liquid" = some .liquid := rfl
  obtain ⟨hkeepsLiquid, hkeepsNunjucks⟩ := contents_of_convert hreader hread
  obtain ⟨nodes', hread'⟩ := exists_of_isOk (by decide +kernel : (Nunjucks.read text).isOk)
  exact ⟨hread, hc, hc', hliquid, hnunjucks, ⟨nodes, hread, hkeepsLiquid _ _ hc hliquid hread⟩,
    nodes', hread', hkeepsNunjucks _ _ hc' hnunjucks hread'⟩

/-- The closing delimiter of a Nunjucks comment in a Liquid comment: what comes after it becomes
text. -/
theorem contents_of_convert_closed_comment :
    let input := "\x7b% comment %\x7da #\x7d b\x7b% endcomment %\x7d"
    let text := "\x7b# a #\x7d b #\x7d"
    ∃ nodes nodes', Liquid.read input = .ok nodes ∧ convert "liquid" "nunjucks" input = .ok text ∧
      Nunjucks.read text = .ok nodes' ∧
      Node.contents nodes = ⟨[], [], ["a #\x7d b".toList]⟩ ∧
      Node.contents nodes' = ⟨" b #\x7d".toList, [], ["a".toList]⟩ := by
  intro input text
  have hread : Reader.liquid.read input = .ok [.comment "a #\x7d b" .unset .unset] := by
    decide +kernel
  refine ⟨_, [.comment "a" .unset .unset, .text " b #\x7d"], hread, ?_, by decide +kernel, ?_⟩
  · exact (convert_eq_ok_iff .liquid .nunjucks rfl rfl).mpr ⟨_, hread, by decide +kernel⟩
  · exact ⟨by decide +kernel, by decide +kernel⟩

/-- A conversion makes no variable the loop object, if nothing in the template leaves its delimiters
in the target language and nothing in the bodies of loops has the word for that object there. -/
theorem loopFree_of_convert (hreader : Reader.ofLanguage? language = some reader)
    (hread : reader.read input = .ok nodes)
    (hfree : EveryExpr (fun _ e => e.chain.head? ≠ some .loopVar) nodes) :
    (∀ text nodes', Liquid.Contained [] nodes →
        (∀ n ∈ nodes, n.InLoops (Node.Avoids Liquid.loopWord) {}) →
        convert language "liquid" input = .ok text → Liquid.read text = .ok nodes' →
        EveryExpr (fun _ e => e.chain.head? ≠ some .loopVar) nodes') ∧
      ∀ text nodes', Nunjucks.Contained [] nodes →
        (∀ n ∈ nodes, n.InLoops (Node.Avoids Nunjucks.loopWord) {}) →
        convert language "nunjucks" input = .ok text → Nunjucks.read text = .ok nodes' →
        EveryExpr (fun _ e => e.chain.head? ≠ some .loopVar) nodes' := by
  refine ⟨fun text nodes' hc ha h hr => ?_, fun text nodes' hc ha h hr => ?_⟩
  · have hwrite : Liquid.write nodes = .ok text :=
      write_of_convert reader .liquid hreader rfl hread h
    exact (Liquid.echoes_of_write hc hwrite hr).loopFree fun n hn => (ha n hn).spares (hfree n hn)
  · have hwrite : Nunjucks.write nodes = .ok text :=
      write_of_convert reader .nunjucks hreader rfl hread h
    exact (Nunjucks.echoes_of_write hc hwrite hr).loopFree fun n hn => (ha n hn).spares (hfree n hn)

/-- The word for the loop object of Nunjucks outside a loop, and in it as part of a name and in
quotes: from Liquid to Nunjucks, and back. -/
theorem loopFree_of_convert_quoted :
    let input := "\x7b\x7b loop \x7d\x7d\x7b% for x in xs %\x7d\x7b% case x %\x7d" ++
      "\x7b% when 1 %\x7d\x7b\x7b my_loop | append: ' loop' \x7d\x7d\x7b% endcase %\x7d" ++
      "\x7b% endfor %\x7d"
    let text := "\x7b\x7b loop \x7d\x7d\x7b% for x in xs %\x7d\x7b% if x == 1 %\x7d" ++
      "\x7b\x7b my_loop ~ ' loop' \x7d\x7d\x7b% endif %\x7d\x7b% endfor %\x7d"
    let back := "\x7b\x7b loop \x7d\x7d\x7b% for x in xs %\x7d\x7b% if x == 1 %\x7d" ++
      "\x7b\x7b my_loop | append: ' loop' \x7d\x7d\x7b% endif %\x7d\x7b% endfor %\x7d"
    let e := (Expr.ident "my_loop").apply .concat (.ofChain [.literal "' loop'"])
    let one := Expr.ofChain [.literal "1"]
    let shape (n : Node) : List Node :=
      [.output (.ident "loop") .unset, .loop "x" (.ident "xs") [n] none .unset .unset .unset]
    let nodes := shape (.conditional .caseOf
      [⟨some (.ident "x"), [], .unset⟩, ⟨some one, [.output e .unset], .unset⟩] .unset .unset)
    let nodes' := shape (.conditional .ifTrue
      [⟨some ((Expr.ident "x").apply .equal one), [.output e .unset], .unset⟩] .unset .unset)
    (Reader.liquid.read input = .ok nodes ∧
        EveryExpr (fun _ e => e.chain.head? ≠ some .loopVar) nodes ∧ Nunjucks.Contained [] nodes ∧
        (∀ n ∈ nodes, n.InLoops (Node.Avoids Nunjucks.loopWord) {}) ∧
        convert "liquid" "nunjucks" input = .ok text) ∧
      (Reader.nunjucks.read text = .ok nodes' ∧
        EveryExpr (fun _ e => e.chain.head? ≠ some .loopVar) nodes' ∧ Liquid.Contained [] nodes' ∧
        (∀ n ∈ nodes', n.InLoops (Node.Avoids Liquid.loopWord) {}) ∧
        convert "nunjucks" "liquid" text = .ok back) ∧
      ∃ nodes'', Liquid.read back = .ok nodes'' ∧
        EveryExpr (fun _ e => e.chain.head? ≠ some .loopVar) nodes'' := by
  intro input text back e one shape nodes nodes'
  have hread : Reader.liquid.read input = .ok nodes := by decide +kernel
  have hread' : Reader.nunjucks.read text = .ok nodes' := by decide +kernel
  have hreadBack : Liquid.read back = .ok nodes' := by decide +kernel
  have hconvert : convert "liquid" "nunjucks" input = .ok text :=
    (convert_eq_ok_iff .liquid .nunjucks rfl rfl).mpr ⟨nodes, hread, by decide +kernel⟩
  have hconvert' : convert "nunjucks" "liquid" text = .ok back :=
    (convert_eq_ok_iff .nunjucks .liquid rfl rfl).mpr ⟨nodes', hread', by decide +kernel⟩
  have hfree : EveryExpr (fun _ e => e.chain.head? ≠ some .loopVar) nodes := by decide +kernel
  have havoids : ∀ n ∈ nodes, n.InLoops (Node.Avoids Nunjucks.loopWord) {} := by decide +kernel
  have havoids' : ∀ n ∈ nodes', n.InLoops (Node.Avoids Liquid.loopWord) {} := by decide +kernel
  have hc : Nunjucks.Contained [] nodes := by
    have hcase : Nunjucks.ContainedNode (.conditional .caseOf
        [⟨some (.ident "x"), [], .unset⟩, ⟨some one, [.output e .unset], .unset⟩] .unset .unset) :=
      .conditional rfl (by simp) (by decide +kernel)
        (.singleton (.output (by decide +kernel) (by decide +kernel) _)) (by simp) (by simp) _
    exact .cons (.output (by decide +kernel) (by decide +kernel) _) (.singleton (.loop
      (.singleton (by decide +kernel)) (by decide +kernel) (.singleton hcase) (by simp) _ _ _))
  have hc' : Liquid.Contained [] nodes' :=
    .cons (.output (by decide +kernel) _) (.singleton (.loop (by decide +kernel) (by decide +kernel)
      (.singleton (.conditional (by decide +kernel) (.singleton (.output (by decide +kernel) _))
        (by simp) (by simp) (by simp) _ _ _)) (by simp) _ _ _))
  have hfree' := (loopFree_of_convert rfl hread hfree).2 text nodes' hc havoids hconvert hread'
  have hfreeBack :=
    (loopFree_of_convert rfl hread' hfree').1 back nodes' hc' havoids' hconvert' hreadBack
  exact ⟨⟨hread, hfree, hc, havoids, hconvert⟩, ⟨hread', hfree', hc', havoids', hconvert'⟩,
    nodes', hreadBack, hfreeBack⟩

/-- A variable of Liquid that is called like the loop object of Nunjucks. -/
theorem loopVar_of_convert_loop :
    let input := "\x7b% for x in xs %\x7d\x7b\x7b loop \x7d\x7d\x7b% endfor %\x7d"
    let nodes (e : Expr) : List Node :=
      [.loop "x" (.ident "xs") [.output e .unset] none .unset .unset .unset]
    Liquid.read input = .ok (nodes (.ident "loop")) ∧
      convert "liquid" "nunjucks" input = .ok input ∧
      Nunjucks.read input = .ok (nodes (.ofChain [.loopVar])) := by
  intro input nodes
  have hread : Reader.liquid.read input = .ok (nodes (.ident "loop")) := by decide +kernel
  refine ⟨hread, ?_, by decide +kernel⟩
  exact (convert_eq_ok_iff .liquid .nunjucks rfl rfl).mpr ⟨_, hread, by decide +kernel⟩

end Stencil

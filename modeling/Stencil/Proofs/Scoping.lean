import Stencil.Node.Equality
import Stencil.Proofs.Liquid.Scoping
import Stencil.Proofs.Nunjucks.Scoping

/-!
# The scope of the loop object

In either language, the name of the loop object stands for the loop object in the body of a loop and
is an ordinary name elsewhere. The collection of a loop and its alternative are not in its body, and
everything inside a filter, an operator or a condition is in the same scope as the whole.

## Main results

* `everyExpr_scoped_of_read` : the loop object stands where it belongs.
-/

namespace Stencil

/-- In a template that is read, in either language, the loop object is the root of chains in the
bodies of loops and nothing else, and there is no other root of its name. -/
theorem everyExpr_scoped_of_read (source : String) :
    (∀ nodes, Liquid.read source = .ok nodes → EveryExpr (Expr.Scoped "forloop") nodes) ∧
      ∀ nodes, Nunjucks.read source = .ok nodes → EveryExpr (Expr.Scoped "loop") nodes :=
  ⟨fun _ h => everyExpr_of_everyRead (Liquid.every_read h),
    fun _ h => everyExpr_of_everyRead (Nunjucks.every_read h)⟩

/-- The name of the loop object as a collection, in the body of a loop, in an argument of a filter
there, and in the alternative. -/
theorem everyExpr_scoped_of_read_loop :
    let liquid := "\x7b% for a in forloop %\x7d\x7b\x7b x | append: forloop.index \x7d\x7d" ++
      "\x7b% else %\x7d\x7b\x7b forloop \x7d\x7d\x7b% endfor %\x7d"
    let nunjucks := "\x7b% for a in loop %\x7d\x7b\x7b x ~ loop.index \x7d\x7d\x7b% else %\x7d" ++
      "\x7b\x7b loop \x7d\x7d\x7b% endfor %\x7d"
    let nodes (name : String) : List Node := [.loop "a" (.ident name)
      [.output ((Expr.ident "x").apply .concat (.ofChain [.loopVar, .ident "index"])) .unset]
      (some [.output (.ident name) .unset]) .unset .unset .unset]
    Liquid.read liquid = .ok (nodes "forloop") ∧
      EveryExpr (Expr.Scoped "forloop") (nodes "forloop") ∧
      Nunjucks.read nunjucks = .ok (nodes "loop") ∧
        EveryExpr (Expr.Scoped "loop") (nodes "loop") := by
  intro liquid nunjucks nodes
  have hliquid : Liquid.read liquid = .ok (nodes "forloop") := by decide +kernel
  have hnunjucks : Nunjucks.read nunjucks = .ok (nodes "loop") := by decide +kernel
  exact ⟨hliquid, (everyExpr_scoped_of_read liquid).1 _ hliquid, hnunjucks,
    (everyExpr_scoped_of_read nunjucks).2 _ hnunjucks⟩

end Stencil

import Stencil.Expr.Chain

/-!
# The words of Nunjucks
-/

namespace Stencil.Nunjucks

/-- The name of the language in errors. -/
def languageName : String := "Nunjucks"

/-- The words of access chains. The blank value is the empty string. -/
def chainWords : ChainWords where
  null := "none"
  blank := "''"
  loopVar := "loop"
  revindex := "revindex"
  revindex0 := "revindex0"

end Stencil.Nunjucks

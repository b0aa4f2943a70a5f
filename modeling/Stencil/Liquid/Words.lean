import Stencil.Expr.Chain

/-!
# The words of Liquid
-/

namespace Stencil.Liquid

/-- The name of the language in errors. -/
def languageName : String := "Liquid"

/-- The words of access chains. -/
def chainWords : ChainWords where
  null := "nil"
  blank := "blank"
  loopVar := "forloop"
  revindex := "rindex"
  revindex0 := "rindex0"

end Stencil.Liquid

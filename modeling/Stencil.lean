import Stencil.Command.Folder
import Stencil.Main
import Stencil.Node.Equality
import Stencil.Node.Json
import Stencil.Node.Similar
import Stencil.Proofs.Liquid.Blocks
import Stencil.Proofs.Liquid.Expression
import Stencil.Proofs.Liquid.Name
import Stencil.Proofs.Liquid.Template
import Stencil.Proofs.Nunjucks.Chain
import Stencil.Proofs.Nunjucks.Chunk
import Stencil.Proofs.Nunjucks.Comparison
import Stencil.Proofs.Nunjucks.Expression
import Stencil.Proofs.Nunjucks.Markup
import Stencil.Proofs.Nunjucks.Template
import Stencil.Proofs.Liquid.Reading
import Stencil.Proofs.Conversion
import Stencil.Proofs.Liquid.Enclosure
import Stencil.Proofs.Liquid.Spelling
import Stencil.Proofs.Liquid.Acceptance
import Stencil.Proofs.Conversion.Acceptance
import Stencil.Proofs.Conversion.Value
import Stencil.Proofs.Scoping
import Stencil.Proofs.Conversion.WellFormed
import Stencil.Proofs.Liquid.Tiling
import Stencil.Proofs.Avoidance
import Stencil.Proofs.Conversion.Echo
import Stencil.Proofs.Conversion.Refusal
import Stencil.Proofs.Encoding
import Stencil.Proofs.Similarity
import Stencil.Proofs.Liquid.Association
import Stencil.Proofs.Liquid.Outline
import Stencil.Proofs.Liquid.Fragment
import Stencil.Proofs.Verbatim
import Stencil.Proofs.Nunjucks.Recovery
import Stencil.Proofs.Nunjucks.Restoration
import Stencil.Proofs.Nunjucks.Reversal
import Stencil.Proofs.Nunjucks.Selection
import Stencil.Proofs.Liquid.Arguments
import Stencil.Proofs.Conversion.ValueList
import Stencil.Proofs.Conversion.Cases
import Stencil.Proofs.Subscript
import Stencil.Proofs.Dispatch
import Stencil.Proofs.Nunjucks.Anchors
import Stencil.Proofs.Liquid.Places
import Stencil.Proofs.Nunjucks.Progress

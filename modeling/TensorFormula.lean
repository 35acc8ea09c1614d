import TensorFormula.Engine.History
import TensorFormula.Main
import TensorFormula.Proofs.Command.CommandLines
import TensorFormula.Proofs.Command.Evaluations
import TensorFormula.Proofs.Command.Reports
import TensorFormula.Proofs.Command.TensorTexts
import TensorFormula.Proofs.Engine.CacheContents
import TensorFormula.Proofs.Engine.CachedReplies
import TensorFormula.Proofs.Engine.DefaultSlope
import TensorFormula.Proofs.Engine.WrittenSettings
import TensorFormula.Proofs.Formula.Advancing
import TensorFormula.Proofs.Formula.Association
import TensorFormula.Proofs.Formula.Blame
import TensorFormula.Proofs.Formula.CanonicalText
import TensorFormula.Proofs.Formula.Derivatives
import TensorFormula.Proofs.Formula.DocumentedFaults
import TensorFormula.Proofs.Formula.Grammar
import TensorFormula.Proofs.Formula.Hoisting
import TensorFormula.Proofs.Formula.Lexemes
import TensorFormula.Proofs.Formula.LiteralOperands
import TensorFormula.Proofs.Formula.Openings
import TensorFormula.Proofs.Formula.OperandDemand
import TensorFormula.Proofs.Formula.ParsedTrees
import TensorFormula.Proofs.Formula.Recognition
import TensorFormula.Proofs.Formula.RoundTrip
import TensorFormula.Proofs.Formula.Separators
import TensorFormula.Proofs.Formula.ShapeInference
import TensorFormula.Proofs.Formula.Spelling
import TensorFormula.Proofs.Formula.Stretches
import TensorFormula.Proofs.Formula.Subtrees
import TensorFormula.Proofs.Formula.TreeHeight
import TensorFormula.Proofs.Formula.ViablePrefix
import TensorFormula.Proofs.Json.WrittenTensors
import TensorFormula.Proofs.Memory.Access
import TensorFormula.Proofs.Memory.Failures
import TensorFormula.Proofs.Memory.Formulas
import TensorFormula.Proofs.Memory.Registry
import TensorFormula.Proofs.Memory.Room
import TensorFormula.Proofs.Memory.Runs
import TensorFormula.Proofs.Memory.Words
import TensorFormula.Proofs.Memory.Workspaces
import TensorFormula.Proofs.Number.FloatBits
import TensorFormula.Proofs.Number.Nearest
import TensorFormula.Proofs.Number.PlainText
import TensorFormula.Proofs.Steps
import TensorFormula.Proofs.Tensor.Addressing
import TensorFormula.Proofs.Tensor.Broadcasting
import TensorFormula.Proofs.Tensor.Elements
import TensorFormula.Proofs.Tensor.Equality
import TensorFormula.Proofs.Tensor.MatrixProduct
import TensorFormula.Proofs.Tensor.Numbering
import TensorFormula.Proofs.Tensor.PeakSearch
import TensorFormula.Proofs.Tensor.Rearranging
import TensorFormula.Proofs.Tensor.Rows
import TensorFormula.Proofs.Tensor.SingleFactor
import TensorFormula.Proofs.Tensor.Slices
import TensorFormula.Proofs.Tensor.SoftmaxDistribution
import TensorFormula.Proofs.Tensor.Transposition
import TensorFormula.Workspace

import FlatModel.OrderedMap
import FlatModel.NodeMap
import FlatModel.Decimal.Numeral
import FlatModel.Decimal.Shortest
import FlatModel.Decimal.Layout
import FlatModel.Decimal.MachineWord
import FlatModel.Json.Value
import FlatModel.Json.Printer
import FlatModel.Json.Token
import FlatModel.Json.Parser
import FlatModel.Json.Record
import FlatModel.Md5
import FlatModel.Identifier.Reserved
import FlatModel.Identifier.Basic
import FlatModel.Tree.Literal
import FlatModel.Tree.Role
import FlatModel.Tree.Basic
import FlatModel.Tree.Numbering
import FlatModel.Tree.Codec
import FlatModel.Tree.Walk
import FlatModel.Tree.Listing
import FlatModel.Tree.Digest
import FlatModel.SymbolGroups
import FlatModel.Symbolic.Scalar
import FlatModel.Symbolic.Expr
import FlatModel.Symbolic.Text
import FlatModel.Symbolic.Simplify
import FlatModel.Symbolic.Error
import FlatModel.Symbolic.Derivative
import FlatModel.Symbolic.Evaluation
import FlatModel.Symbolic.Grid
import FlatModel.Symbolic.LinearSystem
import FlatModel.Emission.Fragment
import FlatModel.Emission.FragmentTable
import FlatModel.Emission.Document
import FlatModel.Emission.Assembly
import FlatModel.Emission.Source
import FlatModel.Emission.Codec
import FlatModel.Dae.Basic
import FlatModel.Dae.Lowering
import FlatModel.Dae.Reduction
import FlatModel.Dae.Defaults
import FlatModel.Command.Options
import FlatModel.Command.Run
import FlatModel.Main
import FlatModel.Proofs.ExactNumber
import FlatModel.Proofs.Value
import FlatModel.Proofs.SimplifySound
import FlatModel.Proofs.ConstantDerivative
import FlatModel.Proofs.Evaluation
import FlatModel.Proofs.Elimination
import FlatModel.Proofs.DerivativeValue
import FlatModel.Proofs.Gradient
import FlatModel.Proofs.Jacobian
import FlatModel.Proofs.Linearization
import FlatModel.Proofs.Unknowns
import FlatModel.Proofs.Affine
import FlatModel.Proofs.ModelOfClass
import FlatModel.Proofs.ExplicitForm
import FlatModel.Proofs.PartialDerivative
import FlatModel.Proofs.Occurrence
import FlatModel.Proofs.LoweredForm
import FlatModel.Proofs.ExplicitLeaves
import FlatModel.Proofs.Fraction
import FlatModel.Proofs.OrderedMaps
import FlatModel.Proofs.Numbering
import FlatModel.Proofs.Translation
import FlatModel.Proofs.VisitedNodes
import FlatModel.Proofs.DirectDocument
import FlatModel.Proofs.JsonTokens
import FlatModel.Proofs.JsonRoundTrip
import FlatModel.Proofs.AssemblyRun
import FlatModel.Proofs.ModelAgreement
import FlatModel.Proofs.BuiltUnit
import FlatModel.Proofs.UnresolvedReferences
import FlatModel.Proofs.WrittenTree
import FlatModel.Proofs.CanonicalForm
import FlatModel.Proofs.SymbolClasses
import FlatModel.Proofs.OutputOrder
import FlatModel.Proofs.PostOrder
import FlatModel.Proofs.NumericValues
import FlatModel.Proofs.NearestDouble
import FlatModel.Proofs.DoubleParts
import FlatModel.Proofs.DoubleReading
import FlatModel.Proofs.ShortestDigits
import FlatModel.Proofs.ShortNumerals
import FlatModel.Proofs.Loading
import FlatModel.Proofs.FreeIdentifiers
import FlatModel.Proofs.DisplayedNames
import FlatModel.Proofs.FragmentTokens
import FlatModel.Proofs.TokenReader
import FlatModel.Proofs.OperatorReader
import FlatModel.Proofs.FragmentReader
import FlatModel.Proofs.ResidualLaw
import FlatModel.Proofs.NumericSystem
import FlatModel.Proofs.AffineSystem
import FlatModel.Proofs.NormalForm
import FlatModel.Proofs.DeclaredIdentifiers
import FlatModel.Proofs.DerivativeErrors
import FlatModel.Proofs.IndependentDerivative
import FlatModel.Proofs.LoweringErrors
import FlatModel.Proofs.TotalDerivative
import FlatModel.Proofs.Substitution
import FlatModel.Proofs.DoubleSigns
import FlatModel.Proofs.PrintedExpression
import FlatModel.Proofs.ModelOrder
import FlatModel.Proofs.EvaluatedNames
import FlatModel.Proofs.DefaultValues
import FlatModel.Proofs.ConstantFolding
import FlatModel.Proofs.RepeatedNumbers
import FlatModel.Proofs.WriteOnce
import FlatModel.Proofs.NestedVisits
import FlatModel.Proofs.CommandArguments
import FlatModel.Proofs.PrintedLinearization
import FlatModel.Proofs.CommandRuns
import FlatModel.Proofs.ListedTexts
import FlatModel.Proofs.ListedReader
import FlatModel.Proofs.ListedExpressions
import FlatModel.Proofs.PartialTables
import FlatModel.Proofs.Builders
import FlatModel.Proofs.SimplifiedContents

import Scriptlet.Main
import Scriptlet.Proofs.ExprRoundTrip
import Scriptlet.Proofs.ResultStability
import Scriptlet.Proofs.ScopeNames
import Scriptlet.Proofs.WriteRead
import Scriptlet.Proofs.Settled
import Scriptlet.Proofs.Unfolding
import Scriptlet.Proofs.Comparison
import Scriptlet.Proofs.CopyIsomorphism
import Scriptlet.Proofs.FailedWrite
import Scriptlet.Proofs.LiteralNesting
import Scriptlet.Proofs.ParserDiscipline
import Scriptlet.Proofs.StringSync
import Scriptlet.Proofs.TokenRendering
import Scriptlet.Proofs.Tiling
import Scriptlet.Proofs.LineComposition
import Scriptlet.Proofs.StmtSpelling
import Scriptlet.Proofs.ParsedTrees
import Scriptlet.Proofs.StmtRoundTrip
import Scriptlet.Proofs.ParserRefinement
import Scriptlet.Proofs.SemicolonBoundary
import Scriptlet.Proofs.TreeNodes
import Scriptlet.Proofs.PlacedErrors
import Scriptlet.Proofs.ParseCache
import Scriptlet.Proofs.ErrorLines
import Scriptlet.Proofs.ArgumentBinding
import Scriptlet.Proofs.ParserLoops
import Scriptlet.Proofs.ParserProgress
import Scriptlet.Proofs.SyntaxPositions
import Scriptlet.Proofs.CacheTransparency
import Scriptlet.Proofs.Endings
import Scriptlet.Proofs.PartialApplication
import Scriptlet.Proofs.CompoundAssignment
import Scriptlet.Proofs.IdentityOfCopies
import Scriptlet.Proofs.EqualInOrder
import Scriptlet.Proofs.OrderOfCopies
import Scriptlet.Proofs.HomogeneousOrder
import Scriptlet.Proofs.TextsOfArrays
import Scriptlet.Proofs.SwitchSections
import Scriptlet.Proofs.HopLimit
import Scriptlet.Proofs.NestedWrites
import Scriptlet.Proofs.CyclicData
import Scriptlet.Proofs.QuotedText
import Scriptlet.Proofs.Interpolation
import Scriptlet.Proofs.WholeNumerals
import Scriptlet.Proofs.WordDivision
import Scriptlet.Proofs.IntegerPower
import Scriptlet.Proofs.MaximalMunch
import Scriptlet.Proofs.SignalScope

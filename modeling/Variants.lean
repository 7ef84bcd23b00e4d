import Variants.Main
import Variants.Token.Pattern
import Variants.Proofs.Coverage
import Variants.Proofs.Structure
import Variants.Proofs.Walk
import Variants.Proofs.Decoding
import Variants.Proofs.LineCount
import Variants.Proofs.Removal
import Variants.Proofs.Parts
import Variants.Proofs.Reach
import Variants.Proofs.Confinement
import Variants.Proofs.DeadCode
import Variants.Proofs.LiteralLayout
import Variants.Proofs.LiteralExpansion
import Variants.Proofs.Relexing
import Variants.Proofs.Substitution
import Variants.Proofs.Cleaning
import Variants.Proofs.Location
import Variants.Proofs.Spacing
import Variants.Proofs.Composition
import Variants.Proofs.Rounds
import Variants.Proofs.Splices
import Variants.Proofs.Greedy
import Variants.Proofs.CallTokens
import Variants.Proofs.Rewriting
import Variants.Proofs.LineFilter
import Variants.Proofs.Recleaning
import Variants.Proofs.Blanks
import Variants.Proofs.LineNumbers
import Variants.Proofs.Joining
import Variants.Proofs.TestedSymbols
import Variants.Proofs.Header
import Variants.Proofs.CopiedLiterals
import Variants.Proofs.Margin
import Variants.Proofs.WrittenCalls
import Variants.Proofs.Redefinition
import Variants.Proofs.NameBoundaries
import Variants.Proofs.GivenValues
import Variants.Proofs.ExitStatus
import Variants.Proofs.WellFormedKeys

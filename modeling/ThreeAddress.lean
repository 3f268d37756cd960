import ThreeAddress.Main
import ThreeAddress.Proofs.Layout
import ThreeAddress.Proofs.Conflict
import ThreeAddress.Proofs.Settled
import ThreeAddress.Proofs.ValidColoring
import ThreeAddress.Proofs.Separation
import ThreeAddress.Proofs.PlacedRun
import ThreeAddress.Proofs.Code
import ThreeAddress.Proofs.OwnLabels
import ThreeAddress.Proofs.Depth
import ThreeAddress.Proofs.Rested
import ThreeAddress.Proofs.StackLimits
import ThreeAddress.Proofs.Halting
import ThreeAddress.Proofs.Machine
import ThreeAddress.Proofs.DirectRun
import ThreeAddress.Proofs.ScalarCode
import ThreeAddress.Proofs.LoweringMeaning
import ThreeAddress.Proofs.ScalarSuccess
import ThreeAddress.Proofs.AllocationMeaning
import ThreeAddress.Proofs.ExactLiveness
import ThreeAddress.Proofs.Accepted
import ThreeAddress.Proofs.Touched
import ThreeAddress.Proofs.UniqueLabels
import ThreeAddress.Proofs.Closed
import ThreeAddress.Proofs.Balance
import ThreeAddress.Proofs.Fusion
import ThreeAddress.Proofs.Reading
import ThreeAddress.Proofs.RoundTrip
import ThreeAddress.Proofs.AllocationHistory
import ThreeAddress.Proofs.Derivable
import ThreeAddress.Proofs.Relabel
import ThreeAddress.Proofs.Independence
import ThreeAddress.Proofs.Control
import ThreeAddress.Proofs.Returning
import ThreeAddress.Proofs.Descriptors
import ThreeAddress.Proofs.Identifiers
import ThreeAddress.Proofs.Locals
import ThreeAddress.Proofs.Truthful
import ThreeAddress.Proofs.Feasibility
import ThreeAddress.Proofs.Building
import ThreeAddress.Proofs.ZeroComparison
import ThreeAddress.Proofs.FirstMention
import ThreeAddress.Proofs.ChainEnds
import ThreeAddress.Proofs.LeastClosed
import ThreeAddress.Proofs.LongestMatch
import ThreeAddress.Proofs.EveryByte
import ThreeAddress.Proofs.Forward
import ThreeAddress.Proofs.Recovery
import ThreeAddress.Proofs.GraphHistory
import ThreeAddress.Proofs.Depiction
import ThreeAddress.Proofs.GraphHistory
import ThreeAddress.Proofs.Depiction

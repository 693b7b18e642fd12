import ChanFlow.Main
import ChanFlow.Proofs.Aliases
import ChanFlow.Proofs.Balance
import ChanFlow.Proofs.Behaviour
import ChanFlow.Proofs.Compact
import ChanFlow.Proofs.Edges
import ChanFlow.Proofs.InnerLoops
import ChanFlow.Proofs.Legibility
import ChanFlow.Proofs.Nesting
import ChanFlow.Proofs.Ranges
import ChanFlow.Proofs.Retention
import ChanFlow.Proofs.Scope
import ChanFlow.Proofs.SelectSites
import ChanFlow.Proofs.Sides
import ChanFlow.Proofs.Targets
import ChanFlow.Proofs.TypeNames
import ChanFlow.Proofs.Unrolling
import ChanFlow.Proofs.WrittenNames

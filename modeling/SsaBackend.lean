import SsaBackend.Compile
import SsaBackend.Proofs.Labels
import SsaBackend.Proofs.RoundTrip
import SsaBackend.Proofs.Schedule.Cycles
import SsaBackend.Proofs.Liveness.Least
import SsaBackend.Proofs.Allocation.Optimal
import SsaBackend.Proofs.Allocation.Simplify
import SsaBackend.Proofs.Amd64.Selection
import SsaBackend.Proofs.Ir.Accepted
import SsaBackend.Proofs.Ir.Ids
import SsaBackend.Proofs.Peephole.Skeleton
import SsaBackend.Proofs.Processor.Rewrites
import SsaBackend.Proofs.Processor.CommonRules
import SsaBackend.Proofs.Processor.Literals
import SsaBackend.Proofs.Check.Neighbours
import SsaBackend.Proofs.Profile.Layout
import SsaBackend.Proofs.Profile.Costs
import SsaBackend.Proofs.Calls.Regions

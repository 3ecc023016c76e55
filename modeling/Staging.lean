import Staging.Audit
import Staging.Plan.Explanation
import Staging.Proofs.Distances
import Staging.Proofs.Exactness
import Staging.Proofs.Liveness
import Staging.Proofs.Locality
import Staging.Proofs.Operations
import Staging.Proofs.Ownership
import Staging.Proofs.Preservation
import Staging.Proofs.Projection
import Staging.Proofs.Purity
import Staging.Proofs.Registration
import Staging.Proofs.Replicas
import Staging.Proofs.RoundTrip
import Staging.Proofs.Saturation
import Staging.Proofs.Spanning
import Staging.Proofs.Termination
import Staging.Sample

import ProvingService.ProofTree.BTreeMap
import ProvingService.ProofTree.Basic
import ProvingService.ProofTree.Reduction
import ProvingService.ProofTree.Coverage
import ProvingService.Gateway.Handler
import ProvingService.Pipeline.System
import ProvingService.Pipeline.Invariant
import ProvingService.Pipeline.Safety
import ProvingService.Pipeline.Partition
import ProvingService.Pipeline.Completion
import ProvingService.Pipeline.Termination
import ProvingService.Pipeline.Threads
import ProvingService.Pipeline.Signal
import ProvingService.Service.Results
import ProvingService.Service.Auth
import ProvingService.Service.Node
import ProvingService.Service.Progress
import ProvingService.Onchain.GnarkProof
import ProvingService.Onchain.ProveEmbed
import ProvingService.Service.Apps
import ProvingService.Service.CostEstimate

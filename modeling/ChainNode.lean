import ChainNode.Execution.Trial
import ChainNode.Proofs.Bytes
import ChainNode.Proofs.Execution.BlockReplay
import ChainNode.Proofs.Execution.InputOrder
import ChainNode.Settings.Knobs
import ChainNode.Sim.Book
import ChainNode.Sim.Chores
import ChainNode.Sim.Scopes
import ChainNode.Sim.SyncWorld
import ChainNode.Sync.Node.Run
import ChainNode.Proofs.Sync.JobBoard
import ChainNode.Proofs.Sync.Runs
import ChainNode.Proofs.Sync.Linked
import ChainNode.Proofs.Sync.Targets
import ChainNode.Proofs.Sync.Lanes
import ChainNode.Proofs.Sync.Placement
import ChainNode.Proofs.Sync.Growth
import ChainNode.Proofs.Sync.Feeding
import ChainNode.Proofs.Sync.Attaching
import ChainNode.Proofs.Sync.AttachSafety
import ChainNode.Proofs.Sync.Agreement
import ChainNode.Proofs.Sync.Served
import ChainNode.Proofs.Sync.Tips
import ChainNode.Proofs.Sync.Route
import ChainNode.Proofs.Sync.Stages
import ChainNode.Proofs.Sync.Synchronization
import ChainNode.Proofs.Execution.Accounting
import ChainNode.Proofs.Execution.Places
import ChainNode.Proofs.Sync.Expiry
import ChainNode.Proofs.Sync.Admissions
import ChainNode.Proofs.Sync.Dropped
import ChainNode.Proofs.Partition.Closure
import ChainNode.Proofs.Chain.Identity
import ChainNode.Proofs.Sync.Serving
import ChainNode.Proofs.Scopes.Cancelled
import ChainNode.Proofs.Sync.Downloads
import ChainNode.Proofs.Sync.Heights
import ChainNode.Proofs.Sync.Front
import ChainNode.Proofs.Sync.Rounds
import ChainNode.Proofs.Sync.Calls
import ChainNode.Proofs.Execution.Paths
import ChainNode.Proofs.Execution.Greedy
import ChainNode.Proofs.Sync.JobList
import ChainNode.Proofs.Sync.Fetching
import ChainNode.Proofs.Sync.Senders
import ChainNode.Proofs.State.Accesses
import ChainNode.Proofs.State.Stacks
import ChainNode.Proofs.Sync.Consistency
import ChainNode.Proofs.State.PathOrder
import ChainNode.Proofs.Codec.Canonical
import ChainNode.Proofs.Partition.Ranks
import ChainNode.Proofs.Partition.Ways
import ChainNode.Proofs.Sync.Fallbacks
import ChainNode.Proofs.Sync.Draining
import ChainNode.Proofs.Duration

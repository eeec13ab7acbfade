import ChainNode.Chain.Heads
import ChainNode.Chain.Transaction
import ChainNode.State.Delta

/-!
# Outcomes

What running one transaction yields, and what is kept of it. An executor is given the block's
context, a view of the state and a transaction. The monad it runs in is left open: `Id` for
executors that are functions, something larger where running has effects that are watched.
-/

namespace ChainNode

/-- What a transaction may know of the block it runs in. -/
structure BlockContext where
  height : UInt64
  previous : Hash
  /-- Milliseconds since the epoch. -/
  time : UInt64
  deriving DecidableEq, Repr, Inhabited

/-- The block that footprints are looked up against: the one before. -/
def BlockContext.parent (c : BlockContext) : Tip where
  hash := c.previous
  height := if c.height = 0 then 0 else c.height - 1

/-- How a transaction ended. -/
inductive Status
  /-- It took effect. -/
  | mined
  | failed (reason : String)
  /-- Its contract does not exist. -/
  | withoutContract
  /-- It ran, but beside others that touched the same state, and was discarded. -/
  | conflict
  deriving DecidableEq, Repr

/-- The status in words, where it is the reason for something else. -/
def Status.reason : Status → String
  | mined => "Mined"
  | failed reason => reason
  | withoutContract => "InvalidContractAddress"
  | conflict => "Conflict"

/-- What running a transaction yields. -/
structure Outcome where
  status : Status
  reads : PathSet
  writes : Changes

namespace Outcome

/-- The changes that take effect: those of a transaction that was mined. -/
def effect (o : Outcome) : Changes := if o.status = .mined then o.writes else ∅

/-- What the transaction did to its view; what it read counts however it ended. -/
def delta (o : Outcome) : Delta := ⟨o.effect, o.reads⟩

end Outcome

/-- Runs transactions. -/
abbrev Executor (m : Type → Type) := BlockContext → View → Transaction → m Outcome

/-- How a transaction of a block ended. -/
structure Result where
  id : Hash
  status : Status
  deriving DecidableEq, Repr

/-- A list of transactions after its turn: those that ran, and those that never started. -/
structure Run where
  finished : List (Transaction × Status)
  notStarted : List Transaction
  deriving DecidableEq, Repr

namespace Run

/-- The transactions that ran. -/
def executed (r : Run) : List Transaction := r.finished.map Prod.fst

/-- How each of them ended. -/
def results (r : Run) : List Result := r.finished.map fun (tx, status) => ⟨tx.id, status⟩

/-- A run with one more transaction in front. -/
def cons (tx : Transaction) (status : Status) (r : Run) : Run :=
  { r with finished := (tx, status) :: r.finished }

end Run

end ChainNode

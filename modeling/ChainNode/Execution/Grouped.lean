import ChainNode.Execution.Grouping
import ChainNode.Execution.Sequential

/-!
# Groups side by side

A grouping is executed in three phases. The transactions that must run alone go first, one after
the other. Then every group runs on its own layer over the state these left; no group sees another.
Last, the groups' deltas are merged in group order. Declared footprints may be wrong, so the merge
looks at what was really touched: a group that wrote what an earlier one touched, or read what an
earlier one wrote, is rejected as a whole. Transactions without a contract never run.
-/

namespace ChainNode

/-- Where a transaction is about to start. -/
inductive Slot
  | sequential (index : Nat)
  | grouped (group index : Nat)
  deriving DecidableEq, Repr

/-- What became of a transaction. -/
inductive Verdict
  /-- It counts. -/
  | accepted
  /-- Its group was rejected; it may be tried again in a later block. -/
  | rejected
  /-- It has no contract and never ran. -/
  | withoutContract
  deriving DecidableEq, Repr

/-- A transaction with what became of it. -/
structure Entry where
  transaction : Transaction
  status : Status
  verdict : Verdict
  deriving DecidableEq, Repr

/-- The entries of a run that counts. -/
def Run.accepted (r : Run) : List Entry := r.finished.map fun (tx, status) => ⟨tx, status, .accepted⟩

/-- The entries of a run that is discarded. -/
def Run.rejected (r : Run) : List Entry := r.finished.map fun (tx, _) => ⟨tx, .conflict, .rejected⟩

/-- A block's transactions after execution. -/
structure Execution where
  /-- What became of the transactions: those that ran one after the other first, then group by group,
  then those without a contract. -/
  entries : List Entry
  /-- All changes to the state below. -/
  state : Changes
  /-- The transactions that never started. -/
  notExecuted : List Transaction
  deriving DecidableEq

namespace Execution

/-- How each transaction ended. -/
def results (e : Execution) : List Result := e.entries.map fun x => ⟨x.transaction.id, x.status⟩

/-- The transactions with a verdict. -/
def withVerdict (e : Execution) (v : Verdict) : List Transaction :=
  (e.entries.filter fun x => x.verdict = v).map Entry.transaction

/-- The transactions that count. -/
def executed (e : Execution) : List Transaction := e.withVerdict .accepted

/-- The transactions of rejected groups. -/
def conflicting (e : Execution) : List Transaction := e.withVerdict .rejected

/-- Execution was stopped before its end. -/
def cancelled (e : Execution) : Bool := !e.notExecuted.isEmpty

end Execution

/-- The merge so far. -/
structure Merge where
  state : Overlay
  /-- The paths written by accepted groups. -/
  written : PathSet
  /-- The paths touched by accepted groups. -/
  touched : PathSet
  entries : List Entry
  notExecuted : List Transaction

namespace Merge

/-- What a run on the overlay left, before any group. -/
def start (run : Run) (state : Overlay) : Merge := ⟨state, ∅, ∅, run.accepted, run.notStarted⟩

/-- A delta interferes with an accepted group: it wrote what one touched, or read what one wrote. -/
def conflicts (g : Merge) (d : Delta) : Bool :=
  d.writes.keys.any g.touched.contains || d.reads.toList.any g.written.contains

/-- Takes in a group: its changes, unless it interferes with an accepted one. -/
def add (g : Merge) (group : GroupRun) : Merge :=
  let notExecuted := g.notExecuted ++ group.run.notStarted
  if g.conflicts group.delta then
    { g with entries := g.entries ++ group.run.rejected, notExecuted }
  else {
    state := g.state.apply group.delta.writes
    written := g.written.insertMany group.delta.writes.keys
    touched := g.touched.insertMany group.delta.touched
    entries := g.entries ++ group.run.accepted
    notExecuted := notExecuted }

/-- The end of the merge, with the transactions that never run. -/
def finish (g : Merge) (withoutContract : List Transaction) : Execution where
  entries := g.entries ++ withoutContract.map fun tx => ⟨tx, .withoutContract, .withoutContract⟩
  state := g.state.changes
  notExecuted := g.notExecuted

end Merge

variable {m : Type → Type} [Monad m]

/-- Runs groups, each over the same view; the first one has number `i`. -/
def executeGroups (execute : Executor m) (stop : Slot → m Bool) (context : BlockContext)
    (base : View) : Nat → List (List Transaction) → m (List GroupRun)
  | _, [] => return []
  | i, group :: rest => do
    let run ← executeGroup execute (fun j => stop (.grouped i j)) context base group
    let runs ← executeGroups execute stop context base (i + 1) rest
    return run :: runs

/-- Executes a grouping over a view. -/
def executeGrouped (execute : Executor m) (stop : Slot → m Bool) (context : BlockContext)
    (base : View) (grouping : Grouping Transaction) : m Execution := do
  let (run, state) ← executeSequential execute (fun i => stop (.sequential i)) context
    (.new base) grouping.sequential
  let groups ← executeGroups execute stop context state.view 0 grouping.groups
  return (groups.foldl Merge.add (.start run state)).finish grouping.withoutContract

/-- Finds out the footprint of the transaction at a position of a list, as of some block. -/
abbrev Extractor := Tip → Nat → Transaction → Extraction

/-- Groups transactions by the footprints an extractor finds. -/
def groupTransactions (limits : Grouping.Limits) (extract : Extractor) (parent : Tip)
    (transactions : List Transaction) : Grouping Transaction :=
  Grouping.ofExtractions limits <|
    transactions.zipIdx.map fun (tx, i) => (tx, extract parent i tx)

/-- Groups transactions and executes the groups over a view. -/
def executeTransactions (execute : Executor m) (stop : Slot → m Bool) (limits : Grouping.Limits)
    (extract : Extractor) (context : BlockContext) (base : View)
    (transactions : List Transaction) : m Execution :=
  executeGrouped execute stop context base
    (groupTransactions limits extract context.parent transactions)

end ChainNode

import ChainNode.Execution.Producer
import ChainNode.Execution.Program
import ChainNode.State.Memory

/-!
# Trials

A trial is execution with everything around it given: transactions whose footprints and programs are
written down, a stored state, a block context, and scopes of which some may be cancelled before or
while it runs. The transaction at position `i` refers to height `i`, which tells all of them apart;
reports speak of transactions by these positions.
-/

namespace ChainNode

namespace Trial

/-- One transaction of a trial. -/
structure Spec where
  contract : String
  method : String
  extraction : Extraction
  program : Program

/-- The transaction at a position. -/
def Spec.transaction (spec : Spec) (i : Nat) : Transaction where
  sender := "tester"
  contract := spec.contract
  refHeight := UInt64.ofNat i
  method := spec.method
  params := []

/-- The position of a transaction. -/
def position (tx : Transaction) : Nat := tx.refHeight.toNat

/-- What is cancelled before anything runs. -/
inductive Precancel
  /-- The scope execution is given. -/
  | given (reach : Cancellation.Reach)
  /-- The scope at the root of it. -/
  | root

/-- The scopes of a trial and what has started in it. -/
structure Session where
  cancellation : Cancellation
  /-- The root of the tree of scopes. -/
  outer : Scope
  /-- The scope execution is given. -/
  scope : Scope
  /-- The positions of the transactions that have started, the latest first. -/
  started : List Nat

namespace Session

/-- Fresh scopes: the root itself is given, or a child of it. -/
def start (child : Bool) (precancel : Option Precancel) : Session :=
  let (outer, c) := Cancellation.empty.newRoot
  let (scope, c) := if child then c.newChild outer else (outer, c)
  let c := match precancel with
    | none => c
    | some (.given reach) => c.cancel scope reach
    | some .root => c.cancelLocal outer
  ⟨c, outer, scope, []⟩

/-- The transactions that have started, in order. -/
def ran (s : Session) : List Nat := s.started.reverse

/-- The root is cancelled, and the scope given to execution is. -/
def cancelled (s : Session) : Bool × Bool :=
  (s.cancellation.isCancelled s.outer, s.cancellation.isCancelled s.scope)

end Session

/-- Execution inside a trial: it may crash, and what it starts and cancels is kept. -/
abbrev TrialM := StateT Session (Except Crash)

/-- Runs the program of a transaction. -/
def execute (specs : Array Spec) : Executor TrialM := fun context view tx => do
  modify fun s => { s with started := position tx :: s.started }
  let program := (specs[position tx]?.map Spec.program).getD []
  match program.run context view with
  | .error crash => throw crash
  | .ok (outcome, cancels) =>
    modify fun s => { s with cancellation := cancels.foldl (·.cancel s.scope) s.cancellation }
    return outcome

/-- Says to stop once the scope given to execution is cancelled. -/
def stop : TrialM Bool := do
  let s ← get
  return s.cancellation.isCancelled s.scope

/-- Finds out footprints as they are written down. -/
def extract (specs : Array Spec) : Extractor := fun _ _ tx =>
  (specs[position tx]?.map Spec.extraction).getD ⟨⟨0⟩, none⟩

/-- The footprints that were asked for: how many, and as of which block. -/
structure Asked where
  count : Nat
  parent : Option Tip

/-- Nothing was asked for. -/
def Asked.nothing : Asked := ⟨0, none⟩

/-- What is asked for to group so many transactions. -/
def Asked.toGroup (limits : Grouping.Limits) (parent : Tip) (transactions : Nat) : Asked :=
  let count := min transactions limits.maxItems
  ⟨count, if count = 0 then none else some parent⟩

end Trial

/-- Execution with everything around it given. -/
structure Trial where
  /-- The transactions: those of the system, then the others. -/
  system : List Trial.Spec
  cancellable : List Trial.Spec
  base : Memory
  limits : Grouping.Limits
  session : Trial.Session

namespace Trial

/-- All transactions of the trial by position. -/
def specs (t : Trial) : Array Spec := (t.system ++ t.cancellable).toArray

/-- The transactions of the trial. -/
def transactions (t : Trial) : List Transaction :=
  (t.system ++ t.cancellable).zipIdx.map fun (spec, i) => spec.transaction i

/-- The transactions of the system. -/
def systemTransactions (t : Trial) : List Transaction := t.transactions.take t.system.length

/-- The other transactions. -/
def cancellableTransactions (t : Trial) : List Transaction := t.transactions.drop t.system.length

/-- The positions of results, each with its status. -/
def positions (t : Trial) (results : List Result) : List (Nat × Status) :=
  let ids := t.transactions.map fun tx => (tx.id, position tx)
  results.filterMap fun r => (ids.lookup r.id).map (·, r.status)

/-- What every trial reports. -/
structure Report where
  ran : List Nat
  asked : Asked
  /-- The root is cancelled, and the scope given to execution is. -/
  cancelled : Bool × Bool
  /-- The number of entries of the stored state with the changes applied. -/
  finalSize : Nat

/-- What a trial reports at its end. -/
def report (t : Trial) (s : Session) (asked : Asked) (changes : Changes) : Report where
  ran := s.ran
  asked := asked
  cancelled := s.cancelled
  finalSize := (t.base.apply changes).size

/-- Groups the transactions as of a block. -/
def group (t : Trial) (parent : Tip) : Grouping Transaction × Asked :=
  (groupTransactions t.limits (extract t.specs) parent t.transactions,
    .toGroup t.limits parent t.transactions.length)

/-- Groups the transactions by positions: a transaction may occur several times, or not at all. -/
def groupingOf (t : Trial) (g : Grouping Nat) : Grouping Transaction :=
  let pick (is : List Nat) : List Transaction := is.filterMap fun i => t.transactions[i]?
  ⟨g.groups.map pick, pick g.sequential, pick g.withoutContract⟩

/-- Groups and executes the transactions, or executes a grouping that is given. -/
def executeAll (t : Trial) (context : BlockContext) (given : Option (Grouping Nat)) :
    Except Crash (Execution × Report) := do
  match given with
  | some g =>
    let (e, s) ← (executeGrouped (execute t.specs) (fun _ => stop) context t.base.view
      (t.groupingOf g)).run t.session
    return (e, t.report s .nothing e.state)
  | none =>
    let (e, s) ← (executeTransactions (execute t.specs) (fun _ => stop) t.limits
      (extract t.specs) context t.base.view t.transactions).run t.session
    return (e, t.report s (.toGroup t.limits context.parent t.transactions.length) e.state)

/-- Executes the transactions one after the other on changes over the stored state. -/
def executeInOrder (t : Trial) (context : BlockContext) (changes : Changes) :
    Except Crash (Run × Changes × Report) := do
  let ((run, state), s) ← (executeSequential (execute t.specs) (fun _ => stop) context
    ⟨t.base.view, changes⟩ t.transactions).run t.session
  return (run, state.changes, t.report s .nothing state.changes)

/-- Produces a block. -/
def produceBlock (t : Trial) (header : Header) :
    Except Crash (Except ProduceError Produced × Report) := do
  let (answer, s) ← (produce (execute t.specs) (fun _ => stop) t.limits (extract t.specs) header
    t.base.view t.systemTransactions t.cancellableTransactions).run t.session
  match answer with
  | .error e => return (.error e, t.report s .nothing ∅)
  | .ok p =>
    let asked := Asked.toGroup t.limits header.context.parent t.cancellableTransactions.length
    return (.ok p, t.report s asked p.state)

end Trial

end ChainNode

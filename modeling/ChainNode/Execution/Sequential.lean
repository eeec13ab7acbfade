import ChainNode.Execution.Outcome
import ChainNode.State.Overlay

/-!
# One after the other

Transactions run in order, each on the state its predecessors left. Before each one starts, a signal
is looked at; once it says stop, this transaction and all after it stay undone. A transaction that
has started is always finished.

The plain path keeps its changes in an overlay. The path for groups keeps a layer, which also
collects what was read, so that groups can be compared afterwards.
-/

namespace ChainNode

/-- Says, before the transaction at a position starts, whether to stop. -/
abbrev Signal (m : Type → Type) := Nat → m Bool

/-- Never says stop. -/
def Signal.never {m : Type → Type} [Monad m] : Signal m := fun _ => return false

variable {m : Type → Type} [Monad m]

/-- Runs transactions on an overlay; the first one is at position `i`. -/
def executeFrom (execute : Executor m) (stop : Signal m) (context : BlockContext) :
    Nat → Overlay → List Transaction → m (Run × Overlay)
  | _, state, [] => return (⟨[], []⟩, state)
  | i, state, tx :: rest => do
    if ← stop i then
      return (⟨[], tx :: rest⟩, state)
    else
      let outcome ← execute context state.view tx
      let (run, state) ← executeFrom execute stop context (i + 1) (state.apply outcome.effect) rest
      return (run.cons tx outcome.status, state)

/-- Runs transactions on an overlay. -/
def executeSequential (execute : Executor m) (stop : Signal m) (context : BlockContext)
    (state : Overlay) (transactions : List Transaction) : m (Run × Overlay) :=
  executeFrom execute stop context 0 state transactions

/-- Runs transactions on a layer; the first one is at position `i`. -/
def executeGroupFrom (execute : Executor m) (stop : Signal m) (context : BlockContext) :
    Nat → Layered → List Transaction → m (Run × Layered)
  | _, state, [] => return (⟨[], []⟩, state)
  | i, state, tx :: rest => do
    if ← stop i then
      return (⟨[], tx :: rest⟩, state)
    else
      let outcome ← execute context state.view tx
      let (run, state) ←
        executeGroupFrom execute stop context (i + 1) (state.commit outcome.delta) rest
      return (run.cons tx outcome.status, state)

/-- What a group did. -/
structure GroupRun where
  run : Run
  delta : Delta
  deriving DecidableEq

/-- Runs a group on a layer of its own over a view. -/
def executeGroup (execute : Executor m) (stop : Signal m) (context : BlockContext)
    (base : View) (group : List Transaction) : m GroupRun := do
  let (run, state) ← executeGroupFrom execute stop context 0 (.new base) group
  return ⟨run, state.delta⟩

end ChainNode

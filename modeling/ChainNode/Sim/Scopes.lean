import ChainNode.Scope
import ChainNode.Sync.Clock

/-!
# Scopes in use

Contexts are numbered in the order in which they are made; the first one is a root. They are derived
from each other, cancelled, and used to run something that either ends by itself or is given up
because its context is cancelled. Tasks are the plain case without a context.
-/

namespace ChainNode.Sim

/-- A command on numbered contexts; what is run gives values of type `α`. -/
inductive ScopeCommand (α : Type)
  | newRoot
  | child (i : Nat)
  | clone (i : Nat)
  | cancel (i : Nat) (reach : Cancellation.Reach)
  /-- Is a wait for the cancellation over? -/
  | poll (i : Nat)
  /-- Runs what ends at once. -/
  | runReady (i : Nat) (value : α)
  /-- Runs what takes some time, while somebody is about to cancel a context. -/
  | runSleep (i millis who after : Nat) (reach : Cancellation.Reach)

/-- What a command answers. -/
inductive ScopeAnswer (α : Type)
  | nothing
  | flag (b : Bool)
  | value (a : α)
  /-- Whether what was run has ended by itself, and when. -/
  | ran (ended : Bool) (now : Instant)

/-- The contexts and the clock. -/
structure ScopeWorld where
  contexts : List Scope
  cancellation : Cancellation
  now : Instant

namespace ScopeWorld

variable {α : Type}

/-- No contexts. -/
def empty : ScopeWorld := ⟨[], .empty, 0⟩

/-- The context with a number. -/
def context (w : ScopeWorld) (i : Nat) : Scope := (w.contexts[i]?).getD default

/-- Adds a context. -/
def add (w : ScopeWorld) : Scope × Cancellation → ScopeWorld
  | (s, c) => { w with contexts := w.contexts ++ [s], cancellation := c }

/-- One root. -/
def start : ScopeWorld := empty.add empty.cancellation.newRoot

/-- The context with a number is cancelled. -/
def isCancelled (w : ScopeWorld) (i : Nat) : Bool := w.cancellation.isCancelled (w.context i)

/-- A wait for the cancellation of the context with a number is over. -/
def endsWait (w : ScopeWorld) (i : Nat) : Bool := w.cancellation.endsWait (w.context i)

/-- Cancels a context. -/
def cancel (w : ScopeWorld) (i : Nat) (reach : Cancellation.Reach) : ScopeWorld :=
  { w with cancellation := w.cancellation.cancel (w.context i) reach }

/-- Runs what takes `millis`, while `who` is to be cancelled after another time; whoever is to cancel
gives up when the run ends. -/
def runSleep (w : ScopeWorld) (i millis who after : Nat) (reach : Cancellation.Reach) :
    ScopeAnswer α × ScopeWorld :=
  if w.endsWait i then (.ran false w.now, w)
  else
    let sleepEnd := { w with now := w.now + millis }
    if millis ≤ after then (.ran true sleepEnd.now, sleepEnd)
    else
      let w' := w.cancel who reach
      if w'.endsWait i then
        (.ran false (w.now + after), { w' with now := w.now + after })
      else (.ran true (w.now + millis), { w' with now := w.now + millis })

/-- Carries out a command. -/
def step (w : ScopeWorld) : ScopeCommand α → ScopeAnswer α × ScopeWorld
  | .newRoot => (.nothing, w.add w.cancellation.newRoot)
  | .child i => (.nothing, w.add (w.cancellation.newChild (w.context i)))
  | .clone i => (.nothing, w.add (w.context i, w.cancellation))
  | .cancel i reach => (.nothing, w.cancel i reach)
  | .poll i => (.flag (w.endsWait i), w)
  | .runReady _ value => (.value value, w)
  | .runSleep i millis who after reach => w.runSleep i millis who after reach

/-- Which contexts are cancelled. -/
def flags (w : ScopeWorld) : List Bool := w.contexts.map w.cancellation.isCancelled

end ScopeWorld

/-- A task that is run by itself. -/
inductive TaskCommand (α : Type)
  /-- Adds up the numbers to `n`, or crashes. -/
  | sum (n : Nat) (crash : Option String)
  /-- Waits for a task that takes some time and gives a value. -/
  | await (millis : Nat) (value : α)
  /-- Gives a task up that would take some time, after another time. -/
  | drop (millis after : Nat)

/-- What a task answers. -/
inductive TaskAnswer (α : Type)
  | number (n : Nat)
  | awaited (value : α) (now : Instant)
  /-- Whether the task had ended when it was given up, and the time a good while later. -/
  | dropped (ended : Bool) (now : Instant)

/-- Runs a task; the answer and the time after it, unless it crashes. -/
def TaskCommand.run {α : Type} (now : Instant) :
    TaskCommand α → Except String (TaskAnswer α × Instant)
  | .sum _ (some message) => .error message
  | .sum n none => .ok (.number (n * (n + 1) / 2), now)
  | .await millis value => .ok (.awaited value (now + millis), now + millis)
  | .drop millis after =>
    let later := now + after + 100000
    .ok (.dropped (millis < after) later, later)

end ChainNode.Sim

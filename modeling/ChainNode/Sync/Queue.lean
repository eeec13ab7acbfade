/-!
# The three queues

Blocks come in through three queues: they are fetched on the first, attached on the second and
executed on the third. `PerQueue` holds something for each of them.
-/

namespace ChainNode

/-- A queue of the pipeline. -/
inductive Queue
  /-- Single announced blocks are fetched. -/
  | fetch
  /-- Blocks are validated and attached to the chain. -/
  | attach
  /-- Attached blocks are executed. -/
  | update
  deriving DecidableEq, Repr

namespace Queue

/-- The queues in the order in which a block passes them. -/
def all : List Queue := [.fetch, .attach, .update]

/-- The name of a queue in messages. -/
def title : Queue → String
  | fetch => "BlockFetchQueue"
  | attach => "BlockSyncAttachQueue"
  | update => "UpdateChainQueue"

theorem mem_all (q : Queue) : q ∈ all := by cases q <;> decide

end Queue

/-- One `α` for each queue. -/
structure PerQueue (α : Type) where
  fetch : α
  attach : α
  update : α
  deriving DecidableEq, Repr

namespace PerQueue

variable {α : Type}

/-- The same for each queue. -/
def replicate (a : α) : PerQueue α := ⟨a, a, a⟩

/-- What is held for a queue. -/
def get (p : PerQueue α) : Queue → α
  | .fetch => p.fetch
  | .attach => p.attach
  | .update => p.update

/-- Holds something else for a queue. -/
def set (p : PerQueue α) (q : Queue) (a : α) : PerQueue α :=
  match q with
  | .fetch => { p with fetch := a }
  | .attach => { p with attach := a }
  | .update => { p with update := a }

/-- What is held for the three queues, in order. -/
def toList (p : PerQueue α) : List α := [p.fetch, p.attach, p.update]

@[simp] theorem get_replicate (a : α) (q : Queue) : (replicate a).get q = a := by cases q <;> rfl

@[simp] theorem get_set (p : PerQueue α) (q r : Queue) (a : α) :
    (p.set q a).get r = if q = r then a else p.get r := by
  cases q <;> cases r <;> rfl

end PerQueue

end ChainNode

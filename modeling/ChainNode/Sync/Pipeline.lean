import ChainNode.Sync.Clock
import ChainNode.Sync.Queue
import ChainNode.Sync.Settings

/-!
# Serial queues

Each queue runs its work one piece at a time, in the order in which it was enqueued. A lane is one
queue: the messages that wait, the piece of work that is running, as far as it has come, and the
number of pieces enqueued that have not ended. While a piece of work runs, the time at which it was
enqueued is shown to everyone; a queue whose current work has waited too long counts as busy. A
barrier is a message that does nothing but get answered, when everything before it has ended.

What a piece of work is stays open: `τ` says what is left of it to do.
-/

namespace ChainNode

/-- What waits in a queue. -/
inductive Message (τ : Type)
  | work (enqueued : Instant) (w : τ)
  /-- Gets the ticket answered. -/
  | barrier (ticket : Nat)
  deriving DecidableEq, Repr

/-- One queue. -/
structure Lane (τ : Type) where
  inbox : List (Message τ)
  /-- What is left of the work that is running. -/
  running : Option τ
  /-- The number of pieces of work enqueued that have not ended. -/
  pending : Nat
  deriving DecidableEq, Repr

/-- The three queues. -/
structure Pipeline (τ : Type) where
  lanes : PerQueue (Lane τ)
  /-- When the running work was enqueued. -/
  times : PerQueue (Option Instant)
  /-- The tickets answered so far. -/
  answered : List Nat
  /-- The first ticket that is not in use. -/
  nextTicket : Nat
  deriving DecidableEq, Repr

namespace Pipeline

variable {τ : Type}

/-- Nothing enqueued yet. -/
def empty : Pipeline τ := ⟨.replicate ⟨[], none, 0⟩, .replicate none, [], 0⟩

/-- A queue. -/
def lane (p : Pipeline τ) (q : Queue) : Lane τ := p.lanes.get q

/-- The number of pieces of work enqueued on a queue that have not ended. -/
def pending (p : Pipeline τ) (q : Queue) : Nat := (p.lane q).pending

/-- When the running work of a queue was enqueued. -/
def time (p : Pipeline τ) (q : Queue) : Option Instant := p.times.get q

/-- Exchanges a queue. -/
def setLane (p : Pipeline τ) (q : Queue) (l : Lane τ) : Pipeline τ :=
  { p with lanes := p.lanes.set q l }

/-- Shows another time for a queue. -/
def setTime (p : Pipeline τ) (q : Queue) (t : Option Instant) : Pipeline τ :=
  { p with times := p.times.set q t }

/-- Puts work at the end of a queue. -/
def enqueue (p : Pipeline τ) (now : Instant) (q : Queue) (w : τ) : Pipeline τ :=
  let l := p.lane q
  p.setLane q { l with inbox := l.inbox ++ [.work now w], pending := l.pending + 1 }

/-- Puts a barrier at the end of a queue; its ticket. -/
def post (p : Pipeline τ) (q : Queue) : Nat × Pipeline τ :=
  let l := p.lane q
  (p.nextTicket,
    { p.setLane q { l with inbox := l.inbox ++ [.barrier p.nextTicket] } with
      nextTicket := p.nextTicket + 1 })

/-- The next message of a queue that runs nothing: work starts to run, a barrier is answered. -/
def receive (p : Pipeline τ) (q : Queue) : Option (Pipeline τ) :=
  let l := p.lane q
  match l.running, l.inbox with
  | none, .work enqueued w :: rest =>
    some ((p.setLane q { l with inbox := rest, running := some w }).setTime q (some enqueued))
  | none, .barrier ticket :: rest =>
    some { p.setLane q { l with inbox := rest } with answered := ticket :: p.answered }
  | _, _ => none

/-- The running work of a queue has come further. -/
def advance (p : Pipeline τ) (q : Queue) (w : τ) : Pipeline τ :=
  p.setLane q { p.lane q with running := some w }

/-- The running work of a queue has ended, however it did. -/
def finish (p : Pipeline τ) (q : Queue) : Pipeline τ :=
  let l := p.lane q
  (p.setLane q { l with running := none, pending := l.pending - 1 }).setTime q none

/-- A message waits in a queue that runs nothing. -/
def hasNews (p : Pipeline τ) (q : Queue) : Bool :=
  (p.lane q).running.isNone && !(p.lane q).inbox.isEmpty

/-- A barrier was answered. -/
def isAnswered (p : Pipeline τ) (ticket : Nat) : Bool := p.answered.contains ticket

/-- The running work of a queue has not waited longer than the queue's limit. -/
def available (p : Pipeline τ) (limits : PerQueue Duration) (now : Instant) (q : Queue) : Bool :=
  match p.time q with
  | none => true
  | some t => now.since t ≤ (limits.get q).millis

end Pipeline

/-- The ages at which queues count as busy. -/
def SyncSettings.ageLimits (s : SyncSettings) : PerQueue Duration :=
  ⟨s.fetchAge, s.attachAge, s.updateAge⟩

end ChainNode

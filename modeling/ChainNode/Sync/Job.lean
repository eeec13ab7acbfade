import ChainNode.Chain.Heads
import ChainNode.Sync.Clock
import ChainNode.Sync.Error
import Std.Data.ExtTreeMap

/-!
# Download jobs

A job is the order to download blocks until a target block is reached. The store keeps a bounded
number of jobs, at most one per identity, in the order in which they came. The board is the store
together with the targets: the last blocks of downloaded batches, each with a mark that tells
whether it is part of the chain by now. A job that is taken off the board takes its target along.
-/

namespace ChainNode

/-- The order to download blocks up to a target. -/
structure Job where
  /-- The identity, which is the hash of the target. -/
  id : Hash
  target : Tip
  /-- The number of blocks to ask for at a time. -/
  batch : Nat
  /-- The peer to ask. -/
  peer : Option Peer
  /-- The last block downloaded so far; at height zero there is none. -/
  current : Tip
  deadline : Instant
  created : Instant
  /-- The target has been downloaded. -/
  finished : Bool
  deriving DecidableEq, Repr

/-- Something has been downloaded. -/
def Job.started (j : Job) : Bool := j.current.height ≠ 0

/-- A bounded store of jobs. -/
structure JobStore where
  capacity : Nat
  jobs : Std.ExtTreeMap Hash Job
  /-- The identities of the jobs, the oldest first. -/
  order : List Hash

namespace JobStore

/-- No jobs. -/
def empty (capacity : Nat) : JobStore := ⟨capacity, ∅, []⟩

/-- The number of jobs. -/
def size (s : JobStore) : Nat := s.jobs.size

/-- Adds a job at the end, if there is room and its identity is new. -/
def add (s : JobStore) (j : Job) : Bool × JobStore :=
  if s.capacity ≤ s.size ∨ j.id ∈ s.jobs then (false, s)
  else (true, { s with jobs := s.jobs.insert j.id j, order := s.order ++ [j.id] })

/-- The oldest job. -/
def first? (s : JobStore) : Option Job := s.order.head?.bind fun id => s.jobs[id]?

/-- Exchanges a stored job with the same identity, which keeps its place. -/
def update (s : JobStore) (j : Job) : Bool × JobStore :=
  if j.id ∈ s.jobs then (true, { s with jobs := s.jobs.insert j.id j }) else (false, s)

/-- Takes a job out. -/
def remove (s : JobStore) (id : Hash) : Option Job × JobStore :=
  match s.jobs[id]? with
  | none => (none, s)
  | some j => (some j, { s with jobs := s.jobs.erase id, order := s.order.filter (· ≠ id) })

end JobStore

/-- Last blocks of downloaded batches; marked once they are part of the chain. -/
abbrev Targets := Std.ExtTreeMap Hash Bool

/-- Marks a target, if it is one; tells whether it is. -/
def Targets.mark (ts : Targets) (hash : Hash) (attached : Bool) : Bool × Targets :=
  if hash ∈ ts then (true, ts.insert hash attached) else (false, ts)

/-- The stored jobs and the targets of what was downloaded for them. -/
structure JobBoard where
  store : JobStore
  targets : Targets
  /-- The time a new job has for its first download. -/
  timeout : Duration

namespace JobBoard

/-- No jobs and no targets. -/
def empty (capacity : Nat) (timeout : Duration) : JobBoard := ⟨.empty capacity, ∅, timeout⟩

/-- A job that has not started. -/
def freshJob (now deadline : Instant) (target : Tip) (batch : Nat) (peer : Option Peer) : Job where
  id := target.hash
  target := target
  batch := batch
  peer := peer
  current := ⟨.zero, 0⟩
  deadline := deadline
  created := now
  finished := false

/-- Adds a job that has not started; its identity, if it was stored. -/
def enqueue (b : JobBoard) (now : Instant) (target : Tip) (batch : Nat) (peer : Option Peer) :
    Except Panic (Option Hash) × JobBoard :=
  match now.plus b.timeout with
  | .error p => (.error p, b)
  | .ok deadline => match b.store.add (freshJob now deadline target batch peer) with
    | (true, store) => (.ok (some target.hash), { b with store })
    | (false, store) => (.ok none, { b with store })

/-- Exchanges a stored job with the same identity. -/
def update (b : JobBoard) (j : Job) : Bool × JobBoard :=
  let (found, store) := b.store.update j
  (found, { b with store })

/-- Takes a job off the board, and with it the target of what was last downloaded for it. -/
def remove (b : JobBoard) (id : Hash) : Option Job × JobBoard :=
  match b.store.remove id with
  | (none, store) => (none, { b with store })
  | (some j, store) =>
    (some j, { b with
      store := store
      targets := if j.started then b.targets.erase j.current.hash else b.targets })

/-- The oldest job whose target the best chain does not cover; the jobs before it, at most so many,
are taken off the board. -/
def pruneFirst (b : JobBoard) (best : UInt64) : Nat → Option Job × JobBoard
  | 0 => (none, b)
  | fuel + 1 => match b.store.first? with
    | none => (none, b)
    | some j => if best < j.target.height then (some j, b) else (b.remove j.id).2.pruneFirst best fuel

/-- The oldest job whose target the best chain does not cover. Covered jobs before it are taken off
the board. -/
def firstWaiting (b : JobBoard) (heads : Heads) : Option Job × JobBoard :=
  b.pruneFirst heads.best.height (b.store.order.length + 1)

end JobBoard

end ChainNode

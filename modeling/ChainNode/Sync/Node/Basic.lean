import ChainNode.Sync.Announcements
import ChainNode.Sync.BlockTree
import ChainNode.Sync.Download
import ChainNode.Sync.Job
import ChainNode.Sync.Pipeline

/-!
# The state of a synchronising node

A node holds a chain, the announcements it remembers, its download jobs, and the three queues with
the work in them. Work is described by what is left to do: each constructor of `Work` is a place at
which others may act before it goes on. A piece of work never acts on two shared things at once
unless the code between them cannot be interrupted.

The chain is any type with a `ChainService`.
-/

namespace ChainNode

/-- What to do once a block is part of the chain. -/
inductive Completion
  /-- Marks a download target. -/
  | markTarget (hash : Hash)
  /-- Leaves a note. -/
  | note (label : String)
  deriving DecidableEq, Repr

/-- A block to be attached. -/
structure Attachment where
  block : Block
  sender : Option Peer
  completion : Option Completion
  deriving DecidableEq, Repr

/-- A block known by an announcement, and the peer to ask for it. -/
structure Wanted where
  block : Tip
  peer : Option Peer
  deriving DecidableEq, Repr

/-- What is left of a piece of work. -/
inductive Work
  /-- A block is to be fetched, with so many more attempts at the same peer. -/
  | fetch (wanted : Wanted) (retries : Nat)
  /-- The peer was asked. -/
  | fetching (wanted : Wanted) (retries : Nat)
  /-- A block is to be attached: is it known already? -/
  | attach (a : Attachment)
  /-- It is not known: is it valid? -/
  | judge (a : Attachment)
  /-- It is valid, being above the irreversible height that was read. -/
  | store (a : Attachment) (irreversible : UInt64)
  /-- It is attached. -/
  | handOver (a : Attachment)
  /-- An attached block is to be executed. -/
  | update (hash : Hash) (completion : Option Completion)
  /-- It is executed. -/
  | report (completion : Option Completion)
  /-- Nothing is left. -/
  | ended (e : Ending)

/-- A download for a job. -/
structure JobDownload where
  /-- The job, as it stands on the board. -/
  job : Job
  download : Download
  /-- Where else to start if nothing comes. -/
  origins : List Tip
  deriving DecidableEq, Repr

/-- Where a call of the worker stands. -/
inductive Call
  /-- It is about to read the heads. -/
  | round
  /-- It has read the heads and is about to look for a job. -/
  | looking (heads : Heads)
  /-- It waits for the answer to the download's request. -/
  | asking (d : JobDownload)
  deriving DecidableEq, Repr

/-- A synchronising node. -/
structure Node (χ : Type) where
  settings : SyncSettings
  now : Instant
  chain : χ
  announcements : AnnouncementCache
  board : JobBoard
  pipeline : Pipeline Work
  /-- The call of the worker that is in progress. -/
  call : Option Call
  /-- The notes of completions, the latest first. -/
  notes : List (Instant × String)

namespace Node

variable {χ : Type}

/-- A node that has not done anything yet. -/
def new (settings : SyncSettings) (now : Instant) (chain : χ) : Node χ where
  settings := settings
  now := now
  chain := chain
  announcements := .empty settings.announcementTtl
  board := .empty settings.maxJobs settings.jobTimeout
  pipeline := .empty
  call := none
  notes := []

/-- A queue does not count as busy. -/
def available (n : Node χ) (q : Queue) : Bool :=
  n.pipeline.available n.settings.ageLimits n.now q

/-- Neither attaching nor executing counts as busy. -/
def attachAvailable (n : Node χ) : Bool := n.available .attach && n.available .update

/-- Puts work at the end of a queue. -/
def enqueue (n : Node χ) (q : Queue) (w : Work) : Node χ :=
  { n with pipeline := n.pipeline.enqueue n.now q w }

/-- Enqueues a block to be attached. -/
def enqueueAttach (n : Node χ) (a : Attachment) : Node χ := n.enqueue .attach (.attach a)

/-- Enqueues a block to be fetched. -/
def enqueueFetch (n : Node χ) (w : Wanted) (retries : Nat) : Node χ :=
  n.enqueue .fetch (.fetch w retries)

/-- Exchanges the download targets. -/
def setTargets (n : Node χ) (ts : Targets) : Node χ :=
  { n with board := { n.board with targets := ts } }

/-- Does what is to be done once a block is part of the chain. -/
def complete (n : Node χ) : Option Completion → Node χ
  | none => n
  | some (.markTarget hash) => n.setTargets (n.board.targets.mark hash true).2
  | some (.note label) => { n with notes := (n.now, label) :: n.notes }

section Chain

variable [ChainService χ]

/-- Reads the heads of the chain. -/
def heads (n : Node χ) : Except ChainError Heads × Node χ :=
  let (answer, chain) := ChainService.heads n.chain
  (answer, { n with chain })

/-- Looks a block up. -/
def lookUp (n : Node χ) (hash : Hash) : Except ChainError (Option Block) × Node χ :=
  let (answer, chain) := ChainService.block? n.chain hash
  (answer, { n with chain })

/-- Attaches a block. -/
def attachBlock (n : Node χ) (b : Block) : Except ChainError Unit × Node χ :=
  let (answer, chain) := ChainService.attach n.chain b
  (answer, { n with chain })

/-- Executes the branch that ends at a block. -/
def updateChain (n : Node χ) (hash : Hash) : Except ChainError Unit × Node χ :=
  let (answer, chain) := ChainService.update n.chain hash
  (answer, { n with chain })

end Chain

end Node

end ChainNode

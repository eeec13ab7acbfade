import ChainNode.Sync.Node.Work

/-!
# Announcements and pushed blocks

Where blocks enter: a peer announces one or pushes one. If it is not far above the longest chain it
is fetched or attached by itself, unless the queues are busy, in which case it is dropped. A block
further up becomes the target of a download job.
-/

namespace ChainNode.Node

variable {χ : Type}

/-- A height is not far above the longest chain. -/
def isNear (n : Node χ) (heads : Heads) (height : UInt64) : Except Panic Bool := do
  return height ≤ (← n.settings.overflow.sum heads.longest.height n.settings.gap)

/-- Makes a block the target of a download job; its identity, if it was stored. -/
def enqueueJob (n : Node χ) (target : Tip) (batch : Nat) (peer : Option Peer) :
    Except Panic (Option Hash) × Node χ :=
  let (id, board) := n.board.enqueue n.now target batch peer
  (id, { n with board })

/-- Makes a block the target of a download job, stored or not. -/
def orderJob (n : Node χ) (target : Tip) (batch : Nat) (peer : Option Peer) :
    Except Panic Unit × Node χ :=
  let (id, n) := n.enqueueJob target batch peer
  (id.map fun _ => (), n)

/-- Brings in an announced block. -/
def syncAnnounced (n : Node χ) (heads : Heads) (wanted : Wanted) (batch : Nat) :
    Except Panic Unit × Node χ :=
  match n.isNear heads wanted.block.height with
  | .ok true =>
    (.ok (), if n.available .fetch then n.enqueueFetch wanted n.settings.retries else n)
  | .ok false => n.orderJob wanted.block batch wanted.peer
  | .error p => (.error p, n)

/-- Brings in a pushed block. -/
def syncBlock (n : Node χ) (heads : Heads) (b : Block) (batch : Nat) (peer : Option Peer) :
    Except Panic Unit × Node χ :=
  match n.isNear heads b.height with
  | .ok true => (.ok (), if n.attachAvailable then n.enqueueAttach ⟨b, peer, none⟩ else n)
  | .ok false => n.orderJob b.tip batch peer
  | .error p => (.error p, n)

/-- Takes note of an announcement and checks it against heads of the chain; it is worth some work. -/
def screen (n : Node χ) (heads : Heads) (block : Tip) (sender : Peer) :
    Except Panic Bool × Node χ :=
  let (fresh, announcements) := Validation.announcement n.announcements n.now heads block sender
  (fresh, { n with announcements })

/-- A peer announces a block, and these are the heads. -/
def announceUnder (n : Node χ) (heads : Heads) (block : Tip) (sender : Peer) :
    Except Panic Unit × Node χ :=
  match n.screen heads block sender with
  | (.ok true, n) => n.syncAnnounced heads ⟨block, some sender⟩ n.settings.batch
  | (.ok false, n) => (.ok (), n)
  | (.error p, n) => (.error p, n)

/-- A peer pushes a block, and these are the heads. -/
def pushUnder (n : Node χ) (heads : Heads) (b : Block) (sender : Peer) :
    Except Panic Unit × Node χ :=
  match n.screen heads b.tip sender with
  | (.ok true, n) => n.syncBlock heads b n.settings.batch (some sender)
  | (.ok false, n) => (.ok (), n)
  | (.error p, n) => (.error p, n)

variable [ChainService χ]

/-- A peer announces a block. -/
def announce (n : Node χ) (block : Tip) (sender : Peer) : Ending × Node χ :=
  match n.heads with
  | (.error e, n) => (.returned (.error (.chain e)), n)
  | (.ok heads, n) =>
    let (answer, n) := n.announceUnder heads block sender
    (.of answer, n)

/-- A peer pushes a block. -/
def push (n : Node χ) (b : Block) (sender : Peer) : Ending × Node χ :=
  match n.heads with
  | (.error e, n) => (.returned (.error (.chain e)), n)
  | (.ok heads, n) =>
    let (answer, n) := n.pushUnder heads b sender
    (.of answer, n)

end ChainNode.Node

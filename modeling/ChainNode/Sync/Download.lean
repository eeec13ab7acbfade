import ChainNode.Chain.Heads
import ChainNode.Sync.Network

/-!
# Downloading consecutive blocks

A download asks a peer for the blocks after a given one, batch by batch, until a number of blocks has
come, or a batch is shorter than asked for. Each batch has to continue what came before: its blocks
are checked link by link before any of them is used. Heights are taken as the blocks give them.
-/

namespace ChainNode

/-- A download, as far as it has come. -/
structure Download where
  peer : Option Peer
  /-- The number of blocks to ask for at a time, at least one. -/
  batch : Nat
  /-- The number of blocks at which no more are asked for. -/
  cap : Nat
  /-- The number of blocks that came. -/
  count : Nat
  /-- The last of them, or the block that all follow. -/
  last : Tip
  /-- The target that stands for the last batch. -/
  registered : Option Hash
  /-- A batch was shorter than asked for. -/
  ended : Bool
  deriving DecidableEq, Repr

namespace Download

/-- A download of the blocks after a given one. -/
def start (after : Tip) (batch cap : Nat) (peer : Option Peer) : Download where
  peer := peer
  batch := max batch 1
  cap := cap
  count := 0
  last := after
  registered := none
  ended := false

/-- The number of blocks to ask for next. -/
def wanted (d : Download) : Nat := min d.batch (d.cap - d.count)

/-- The next request, if the download is not over. -/
def request? (d : Download) : Option Request :=
  if d.ended ∨ d.cap ≤ d.count then none else some (.following d.last.hash d.wanted d.peer)

/-- The first place where blocks do not follow each other: the block that was expected there, and the
one that is followed instead. -/
def firstBreak (parent : Hash) : List Block → Option (Hash × Hash)
  | [] => none
  | b :: rest => if b.previous = parent then firstBreak b.hash rest else some (parent, b.previous)

/-- Takes in an answer: the download after it, and the blocks that came. -/
def receive (d : Download) : BatchAnswer → Except SyncError (Download × List Block)
  | .error e => .error (.network e)
  | .ok blocks => match blocks.getLast? with
    | none => .ok ({ d with ended := true }, [])
    | some b => match firstBreak d.last.hash blocks with
      | some (expected, actual) => .error (.brokenSequence expected actual)
      | none =>
        .ok ({ d with
          count := d.count + blocks.length
          last := ⟨b.hash, b.height⟩
          registered := some b.hash
          ended := blocks.length < d.wanted }, blocks)

end Download

end ChainNode

import ChainNode.Chain.Block
import ChainNode.Sync.Error
import Std.Data.ExtTreeMap

/-!
# Asking peers

The two requests to a peer, and a peer that serves a set of blocks: for each block it knows at most
one that follows. A few peers, known by name, always fail.
-/

namespace ChainNode

/-- A request to a peer, or to any peer. -/
inductive Request
  /-- The blocks that follow a block, at most so many. -/
  | following (previous : Hash) (count : Nat) (peer : Option Peer)
  /-- One block. -/
  | single (hash : Hash) (peer : Option Peer)
  deriving DecidableEq, Repr

/-- The peer that is asked. -/
def Request.peer : Request → Option Peer
  | following _ _ peer => peer
  | single _ peer => peer

/-- An answer to a request for following blocks. -/
abbrev BatchAnswer := Except NetworkError (List Block)

/-- An answer to a request for one block. -/
abbrev BlockAnswer := Except NetworkError (Option Block)

/-- Blocks that are served. -/
structure BlockServer where
  blocks : Std.ExtTreeMap Hash Block
  /-- The block after each block. -/
  next : Std.ExtTreeMap Hash Hash

namespace BlockServer

/-- No blocks. -/
def empty : BlockServer := ⟨∅, ∅⟩

/-- Serves one more block; it is now the one that follows its parent. -/
def serve (s : BlockServer) (b : Block) : BlockServer where
  blocks := s.blocks.insert b.hash b
  next := s.next.insert b.previous b.hash

/-- Serves some blocks, one after the other. -/
def ofBlocks (blocks : List Block) : BlockServer := blocks.foldl serve empty

/-- Why a peer fails, if it is one of those that always do. -/
def refusal? : Option Peer → Option NetworkError
  | some "AbnormalPeer" => some (.abnormal "AbnormalPeer" "Malformed response")
  | some "UnreachablePeer" => some (.unreachable "UnreachablePeer")
  | _ => none

/-- The blocks after a block, at most so many. -/
def following (s : BlockServer) : Nat → Hash → List Block
  | 0, _ => []
  | count + 1, hash => match s.next[hash]?.bind fun h => s.blocks[h]? with
    | none => []
    | some b => b :: s.following count b.hash

/-- Answers a request for following blocks. -/
def answerBatch (s : BlockServer) (previous : Hash) (count : Nat) (peer : Option Peer) :
    BatchAnswer :=
  match refusal? peer with
  | some e => .error e
  | none => .ok (s.following count previous)

/-- Answers a request for one block. -/
def answerBlock (s : BlockServer) (hash : Hash) (peer : Option Peer) : BlockAnswer :=
  match refusal? peer with
  | some e => .error e
  | none => .ok s.blocks[hash]?

end BlockServer

end ChainNode

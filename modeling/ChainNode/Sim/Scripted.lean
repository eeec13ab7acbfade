import ChainNode.Sync.Network
import ChainNode.Sync.BlockTree
import ChainNode.Sync.Clock

/-!
# A chain and peers that do as told

A tree of blocks whose calls fail where a script says so, and which takes down the blocks it was
given to attach and to execute; and peers whose answers a script can delay or replace.
-/

namespace ChainNode.Sim

/-- A call of the chain. -/
inductive ChainCall
  | heads
  | block
  | attach
  | update
  deriving DecidableEq, Repr

/-- A tree of blocks with scripted failures. -/
structure ScriptedChain where
  tree : BlockTree
  now : Instant
  /-- The failures to come, each for the next call of its kind that has none before it; `none` lets
  a call pass. -/
  failures : List (ChainCall × Option ChainError)
  /-- The blocks that were given to attach, with success, the latest first. -/
  attached : List (Instant × Tip × Bool)
  /-- The blocks that were given to execute, with success, the latest first. -/
  updated : List (Instant × Hash × Bool)

namespace ScriptedChain

/-- A tree without failures. -/
def ofTree (tree : BlockTree) : ScriptedChain := ⟨tree, 0, [], [], []⟩

/-- Takes the next entry for a kind of call out of a script. -/
def takeFailure (call : ChainCall) : List (ChainCall × Option ChainError) →
    Option ChainError × List (ChainCall × Option ChainError)
  | [] => (none, [])
  | (c, e) :: rest =>
    if c = call then (e, rest)
    else
      let (found, rest) := takeFailure call rest
      (found, (c, e) :: rest)

/-- Calls the tree, unless the script has a failure. -/
def call {α : Type} (c : ScriptedChain) (kind : ChainCall)
    (f : BlockTree → Except ChainError α × BlockTree) : Except ChainError α × ScriptedChain :=
  match takeFailure kind c.failures with
  | (some e, failures) => (.error e, { c with failures })
  | (none, failures) =>
    let (answer, tree) := f c.tree
    (answer, { c with tree, failures })

/-- A call succeeded. -/
def succeeded {α : Type} : Except ChainError α → Bool
  | .ok _ => true
  | .error _ => false

instance : ChainService ScriptedChain where
  heads c := c.call .heads fun t => (.ok t.heads, t)
  block? c hash := c.call .block fun t => (.ok t.blocks[hash]?, t)
  attach c b :=
    let (answer, c) := c.call .attach (·.attach b)
    (answer, { c with attached := (c.now, b.tip, succeeded answer) :: c.attached })
  update c hash :=
    let (answer, c) := c.call .update (·.update hash)
    (answer, { c with updated := (c.now, hash, succeeded answer) :: c.updated })

end ScriptedChain

/-- What a script says of one request: how long the answer takes, and what it is if it is not what
the server has. -/
structure NetworkEntry where
  delay : Nat
  answer : Option (Except NetworkError (List Block))

namespace NetworkEntry

/-- An answer at once, with what the server has. -/
def plain : NetworkEntry := ⟨0, none⟩

/-- The answer to a request for following blocks. -/
def batch (e : NetworkEntry) (server : BlockServer) : Request → BatchAnswer
  | .following previous count peer => e.answer.getD (server.answerBatch previous count peer)
  | .single _ _ => e.answer.getD (.ok [])

/-- The answer to a request for one block. -/
def block (e : NetworkEntry) (server : BlockServer) (r : Request) : BlockAnswer :=
  match e.answer, r with
  | some answer, _ => answer.map List.head?
  | none, .single hash peer => server.answerBlock hash peer
  | none, .following _ _ _ => .ok none

end NetworkEntry

end ChainNode.Sim

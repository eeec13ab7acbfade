import ChainNode.Chain.Block
import ChainNode.Chain.Heads
import ChainNode.Sync.Error
import Std.Data.ExtTreeMap
import Std.Data.ExtTreeSet

/-!
# The tree of blocks

All known blocks by hash, those that were executed, and the three heads. A block is attached below a
known parent, and moves the longest chain if it is higher. Executing a block executes its ancestors
too, down to one that was executed before, and moves the best chain if the block is higher. Heights
are taken as the blocks give them.

`ChainService` is what synchronisation needs of a chain. Its calls can fail, and a call that fails
may still have changed something, so each returns the chain after it in any case.
-/

namespace ChainNode

/-- Known blocks with the heads of the chain. -/
structure BlockTree where
  blocks : Std.ExtTreeMap Hash Block
  executed : Std.ExtTreeSet Hash
  heads : Heads

/-- The tip of a block. -/
def Block.tip (b : Block) : Tip := ⟨b.hash, b.height⟩

namespace BlockTree

/-- Nothing but a first block, which is executed and final. -/
def new (genesis : Block) : BlockTree where
  blocks := Std.ExtTreeMap.ofList [(genesis.hash, genesis)]
  executed := Std.ExtTreeSet.ofList [genesis.hash]
  heads := ⟨genesis.tip, genesis.tip, genesis.tip⟩

/-- The block is known. -/
def contains (t : BlockTree) (hash : Hash) : Bool := t.blocks.contains hash

/-- Adds a block whose parent is known. -/
def attach (t : BlockTree) (b : Block) : Except ChainError Unit × BlockTree :=
  if t.contains b.previous then
    (.ok (), { t with
      blocks := t.blocks.insert b.hash b
      heads := if t.heads.longest.height < b.height then { t.heads with longest := b.tip }
        else t.heads })
  else (.error (.unknownParent b.previous), t)

/-- Marks a block and its ancestors executed, down to one that is, at most so many. -/
def executeBranch (t : BlockTree) : Nat → Hash → Except ChainError Unit × BlockTree
  | 0, _ => (.ok (), t)
  | fuel + 1, hash =>
    if hash ∈ t.executed then (.ok (), t)
    else match t.blocks[hash]? with
      | none => (.error (.unknownBlock hash), t)
      | some b => { t with executed := t.executed.insert hash }.executeBranch fuel b.previous

/-- Executes the branch that ends at a known block. Every step marks one more block, so there are no
more steps than blocks. -/
def update (t : BlockTree) (hash : Hash) : Except ChainError Unit × BlockTree :=
  match t.blocks[hash]? with
  | none => (.error (.unknownBlock hash), t)
  | some b => match t.executeBranch (t.blocks.size + 1) hash with
    | (.error e, t) => (.error e, t)
    | (.ok (), t) =>
      (.ok (), { t with
        heads := if t.heads.best.height < b.height then { t.heads with best := ⟨hash, b.height⟩ }
          else t.heads })

/-- Attaches a block and executes it. -/
def grow (t : BlockTree) (b : Block) : Except ChainError BlockTree :=
  match t.attach b with
  | (.error e, _) => .error e
  | (.ok (), t) => match t.update b.hash with
    | (.error e, _) => .error e
    | (.ok (), t) => .ok t

/-- A first block and further ones, each attached and executed before the next. -/
def ofBlocks (genesis : Block) (blocks : List Block) : Except ChainError BlockTree :=
  blocks.foldlM grow (new genesis)

/-- Makes a known block the last irreversible one. -/
def setIrreversible (t : BlockTree) (hash : Hash) : Except ChainError Unit × BlockTree :=
  match t.blocks[hash]? with
  | none => (.error (.unknownBlock hash), t)
  | some b => (.ok (), { t with heads := { t.heads with irreversible := ⟨hash, b.height⟩ } })

/-- The tree after somebody asked to make a block the last irreversible one. -/
def askIrreversible (hash : Hash) (t : BlockTree) : BlockTree := (t.setIrreversible hash).2

end BlockTree

/-- What synchronisation needs of a chain. -/
class ChainService (χ : Type) where
  /-- Reads the heads. -/
  heads : χ → Except ChainError Heads × χ
  /-- Looks up a block. -/
  block? : χ → Hash → Except ChainError (Option Block) × χ
  /-- Stores a block. -/
  attach : χ → Block → Except ChainError Unit × χ
  /-- Executes the branch that ends at a block. -/
  update : χ → Hash → Except ChainError Unit × χ

instance : ChainService BlockTree where
  heads t := (.ok t.heads, t)
  block? t hash := (.ok t.blocks[hash]?, t)
  attach := BlockTree.attach
  update := BlockTree.update

end ChainNode

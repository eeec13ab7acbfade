import ChainNode.Chain.Block

/-!
# Generated chains

Chains of blocks that are made up: each block carries one transaction, which tells its height and the
branch it belongs to, so different branches have different blocks at the same heights. A book keeps
such blocks by name: `genesis`, and `name:height` for the blocks of the chain `name`.
-/

namespace ChainNode.Sim

/-- So many blocks of a branch on top of a block. -/
def generate (branch : String) : Block → Nat → List Block
  | _, 0 => []
  | parent, count + 1 =>
    let height := parent.height + 1
    let block := Block.make parent.hash height (height * 4000) [{
      sender := "miner"
      contract := "consensus"
      refHeight := parent.height
      method := branch
      params := littleEndian 8 height.toNat }]
    block :: generate branch block count

/-- A chain to generate. -/
structure ChainSpec where
  name : String
  /-- The name of the block it starts on. -/
  parent : String
  count : Nat
  branch : String

/-- Blocks by name. -/
structure Book where
  genesis : Block
  /-- The named blocks, the latest first. -/
  blocks : List (String × Block)

namespace Book

/-- The block with a name. -/
def find? (b : Book) (name : String) : Option Block :=
  if name = "genesis" then some b.genesis else b.blocks.lookup name

/-- The block with a name, or the first block. -/
def find (b : Book) (name : String) : Block := (b.find? name).getD b.genesis

/-- The name of a block of a chain. -/
def blockName (chain : String) (height : Nat) : String := chain ++ ":" ++ toString height

/-- Generates one more chain. -/
def add (b : Book) (spec : ChainSpec) : Book :=
  let blocks := (generate spec.branch (b.find spec.parent) spec.count).map fun block =>
    (blockName spec.name block.height.toNat, block)
  { b with blocks := blocks.reverse ++ b.blocks }

/-- The book of some chains. -/
def ofSpecs (genesis : Block) (specs : List ChainSpec) : Book := specs.foldl add ⟨genesis, []⟩

/-- The blocks of a chain between two heights, both included. -/
def range (b : Book) (chain : String) (first last : Nat) : List Block :=
  (List.range (last + 1 - first)).filterMap fun i => b.find? (blockName chain (first + i))

end Book

end ChainNode.Sim

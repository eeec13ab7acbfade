import ChainNode.Chain.Transaction

/-!
# Blocks

A header names the block before it, its own height and time, and the transactions of the block by
their identities. A block is a header with the transactions themselves; its hash is that of the
header, so the transactions are covered through their identities alone and a body can be exchanged
without changing the hash: `Block.matchesHeader` tells whether it was.
-/

namespace ChainNode

/-- What a block's hash covers. -/
structure Header where
  /-- The hash of the block before. -/
  previous : Hash
  height : UInt64
  /-- Milliseconds since the epoch. -/
  time : UInt64
  transactionIds : List Hash
  deriving DecidableEq, Repr, Inhabited

/-- A header with its transactions. -/
structure Block where
  header : Header
  transactions : List Transaction
  deriving DecidableEq, Repr, Inhabited

instance : Binary Header where
  encode h := encode h.previous ++ encode h.height ++ encode h.time ++ encode h.transactionIds
  decode := do
    return {
      previous := ← Binary.decode
      height := ← Binary.decode
      time := ← Binary.decode
      transactionIds := ← Binary.decode }

instance : Binary Block where
  encode b := encode b.header ++ encode b.transactions
  decode := do return { header := ← Binary.decode, transactions := ← Binary.decode }

namespace Header

/-- The height of the first block of a chain. -/
def genesisHeight : UInt64 := 1

/-- The identity of the block. -/
def hash (h : Header) : Hash := Hash.ofValue h

/-- The header of a first block. -/
def isGenesis (h : Header) : Bool := h.height == genesisHeight && h.previous == Hash.zero

end Header

namespace Block

/-- A block on top of another, its header naming its transactions. -/
def make (previous : Hash) (height time : UInt64) (transactions : List Transaction) : Block where
  header := { previous, height, time, transactionIds := transactions.map Transaction.id }
  transactions := transactions

/-- The first block of a chain. -/
def genesis (time : UInt64) : Block := make .zero Header.genesisHeight time []

/-- The identity of a block. -/
def hash (b : Block) : Hash := b.header.hash

/-- The height of a block. -/
def height (b : Block) : UInt64 := b.header.height

/-- The hash of the block before. -/
def previous (b : Block) : Hash := b.header.previous

/-- The header names exactly the transactions of the block, in order. -/
def matchesHeader (b : Block) : Bool := b.header.transactionIds == b.transactions.map Transaction.id

/-- A block that was made from its transactions matches its header. -/
@[simp] theorem matchesHeader_make (previous : Hash) (height time : UInt64)
    (transactions : List Transaction) :
    (make previous height time transactions).matchesHeader = true := by
  simp [make, matchesHeader]

end Block

end ChainNode

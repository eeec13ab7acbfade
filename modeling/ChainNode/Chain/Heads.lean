import ChainNode.Hash.Basic

/-!
# Tips and heads

A tip is a place in the tree of blocks, by hash and height. The heads of a chain are three of them:
the end of the best chain, which is the highest branch with every block executed; the end of the
longest chain, the highest branch that is attached, executed or not; and the last irreversible
block, at or below whose height nothing can be replaced.
-/

namespace ChainNode

/-- A block by its hash and height. -/
structure Tip where
  hash : Hash
  height : UInt64
  deriving DecidableEq, Repr, Inhabited

/-- The three heads of a chain at one moment. -/
structure Heads where
  best : Tip
  longest : Tip
  irreversible : Tip
  deriving DecidableEq, Repr, Inhabited

instance : Binary Tip where
  encode t := encode t.hash ++ encode t.height
  decode := do return { hash := ← Binary.decode, height := ← Binary.decode }

instance : Binary Heads where
  encode h := encode h.best ++ encode h.longest ++ encode h.irreversible
  decode := do
    return {
      best := ← Binary.decode
      longest := ← Binary.decode
      irreversible := ← Binary.decode }

end ChainNode

import ChainNode.Hash.Basic

/-!
# Transactions

A call of a contract method. Signatures are checked before a transaction comes this far, so none is
kept. A transaction is known by the hash of its binary form, which covers every field.
-/

namespace ChainNode

/-- A call of a contract method. -/
structure Transaction where
  /-- Who calls. -/
  sender : String
  /-- The address of the contract that is called. -/
  contract : String
  /-- The height of the block the caller referred to. -/
  refHeight : UInt64
  /-- The method that is called. -/
  method : String
  /-- The arguments, in the contract's own encoding. -/
  params : Bytes
  deriving DecidableEq, Repr, Inhabited

namespace Transaction

instance : Binary Transaction where
  encode tx :=
    encode tx.sender ++ encode tx.contract ++ encode tx.refHeight ++ encode tx.method
      ++ encode tx.params
  decode := do
    return {
      sender := ← Binary.decode
      contract := ← Binary.decode
      refHeight := ← Binary.decode
      method := ← Binary.decode
      params := ← Binary.decode }

/-- The identity of a transaction. -/
def id (tx : Transaction) : Hash := Hash.ofValue tx

end Transaction

end ChainNode

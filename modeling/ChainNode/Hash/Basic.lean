import ChainNode.Codec.Basic
import ChainNode.Hash.Sha3
import ChainNode.Text.Hex

/-!
# Hashes

A block or a transaction is known by a hash of 32 bytes: the SHA3-256 digest of its binary form.
Hashes are ordered by their bytes. The short form, for messages, shows the first four bytes.
-/

namespace ChainNode

/-- The name of a block or a transaction. -/
structure Hash where
  bytes : Vector UInt8 32
  deriving DecidableEq

namespace Hash

/-- The hash of all zeros, which no block has for its own. -/
def zero : Hash := ⟨Vector.replicate 32 0⟩

instance : Inhabited Hash := ⟨zero⟩

/-- The bytes of a hash. -/
def toBytes (h : Hash) : Bytes := h.bytes.toList

/-- The hash with the given bytes, if there are 32. -/
def ofBytes? (bytes : Bytes) : Option Hash :=
  if h : bytes.length = 32 then some ⟨bytes.toArray, by simpa using h⟩ else none

/-- The hash of a byte string. -/
def digest (bytes : Bytes) : Hash := ⟨Sha3.digest bytes⟩

/-- The hash of the binary form of a value. -/
def ofValue {α : Type} [Binary α] (a : α) : Hash := digest (encode a)

/-- All 64 digits. -/
def full (h : Hash) : String := Hex.encode h.toBytes

/-- The first four bytes, for messages. -/
def short (h : Hash) : String := Hex.encode (h.toBytes.take 4) ++ ".."

/-- The short form, marked as a hash. -/
def debug (h : Hash) : String := "Hash(" ++ h.short ++ ")"

instance : Repr Hash := ⟨fun h _ => h.debug⟩

instance : Ord Hash := ⟨fun a b => compare a.bytes b.bytes⟩

instance : Std.TransOrd Hash where
  eq_swap {a b} := Std.OrientedOrd.eq_swap (a := a.bytes) (b := b.bytes)
  isLE_trans {a b c} := Std.TransOrd.isLE_trans (a := a.bytes) (b := b.bytes) (c := c.bytes)

instance : Std.LawfulEqOrd Hash where
  compare_self {a} := Std.ReflOrd.compare_self (a := a.bytes)
  eq_of_compare {a b} h := by
    have hf : a.bytes = b.bytes := Std.LawfulEqOrd.eq_of_compare h
    cases a
    cases b
    exact congrArg Hash.mk hf

instance : Binary Hash where
  encode h := h.toBytes
  decode := do
    match Hash.ofBytes? (← Decoder.bytes 32) with
    | some h => return h
    | none => throw .endOfInput

end Hash

end ChainNode

import ChainNode.Bytes
import Std.Data.ExtTreeSet

/-!
# Binary encoding

Every number has a fixed width and is written little-endian; a text, a list or a set is its length
in eight bytes and then its elements; a structure is its fields in order, with nothing between
them. A decoder takes a value from the front of a byte string and leaves the rest, so the decoders
of the parts of a structure run one after the other. What follows the value is not looked at.
-/

namespace ChainNode

/-- Why bytes cannot be decoded. -/
inductive DecodeError
  /-- The bytes end inside the value. -/
  | endOfInput
  /-- The bytes of a text are no UTF-8. -/
  | invalidText
  /-- A choice is not among those there are. -/
  | unknownVariant (index : Nat)
  deriving DecidableEq, Repr

/-- Takes a value from the front of a byte string. -/
abbrev Decoder (α : Type) := StateT Bytes (Except DecodeError) α

/-- Takes so many bytes. -/
def Decoder.bytes (n : Nat) : Decoder Bytes := fun input =>
  if n ≤ input.length then .ok (input.take n, input.drop n) else .error .endOfInput

/-- Takes a little-endian number of so many bytes. -/
def Decoder.number (width : Nat) : Decoder Nat := do
  return ofLittleEndian (← Decoder.bytes width)

/-- Takes so many values. -/
def Decoder.replicate {α : Type} (d : Decoder α) : Nat → Decoder (List α)
  | 0 => return []
  | n + 1 => do
    let a ← d
    let rest ← Decoder.replicate d n
    return a :: rest

/-- A type whose values have a binary form. -/
class Binary (α : Type) where
  /-- The binary form. -/
  encode : α → Bytes
  /-- Takes a binary form. -/
  decode : Decoder α

export Binary (encode)

namespace Binary

/-- The value at the front of a byte string, and the rest. -/
def decodeFrom (α : Type) [Binary α] (input : Bytes) : Except DecodeError (α × Bytes) :=
  (decode : Decoder α).run input

instance : Binary UInt8 where
  encode b := [b]
  decode := do return UInt8.ofNat (← Decoder.number 1)

instance : Binary UInt32 where
  encode n := littleEndian 4 n.toNat
  decode := do return UInt32.ofNat (← Decoder.number 4)

instance : Binary UInt64 where
  encode n := littleEndian 8 n.toNat
  decode := do return UInt64.ofNat (← Decoder.number 8)

/-- The length in front of a text, a list or a set. -/
def encodeLength (n : Nat) : Bytes :=
  littleEndian 8 n

instance : Binary String where
  encode s := encodeLength s.utf8ByteSize ++ s.toUTF8.toList
  decode := do
    let bytes ← Decoder.bytes (← Decoder.number 8)
    match String.fromUTF8? ⟨bytes.toArray⟩ with
    | some s => return s
    | none => throw .invalidText

instance {α : Type} [Binary α] : Binary (List α) where
  encode as := encodeLength as.length ++ as.flatMap encode
  decode := do Decoder.replicate decode (← Decoder.number 8)

instance {α : Type} [Binary α] [Ord α] [Std.TransOrd α] : Binary (Std.ExtTreeSet α) where
  encode s := encode s.toList
  decode := do
    let as ← (decode : Decoder (List α))
    return Std.ExtTreeSet.ofList as

end Binary

end ChainNode

import ChainNode.Bytes

/-!
# Hexadecimal text

A byte is written as two lower-case digits, the high half first. Reading takes an even number of
digits and nothing else; the letters among them may be of either case.
-/

namespace ChainNode.Hex

/-- The two digits of one byte. -/
def pair (b : UInt8) : List Char :=
  [Nat.digitChar (b.toNat / 16), Nat.digitChar (b.toNat % 16)]

/-- The digits of a byte string. -/
def encode (bytes : Bytes) : String :=
  String.ofList (bytes.flatMap pair)

/-- The value of one digit. -/
def digit? (c : Char) : Option Nat :=
  if '0' ≤ c ∧ c ≤ '9' then some (c.toNat - '0'.toNat)
  else if 'a' ≤ c ∧ c ≤ 'f' then some (c.toNat - 'a'.toNat + 10)
  else if 'A' ≤ c ∧ c ≤ 'F' then some (c.toNat - 'A'.toNat + 10)
  else none

/-- The bytes written by a run of digits. -/
def decodeDigits : List Char → Option Bytes
  | [] => some []
  | [_] => none
  | hi :: lo :: rest => do
    let h ← digit? hi
    let l ← digit? lo
    let bytes ← decodeDigits rest
    return UInt8.ofNat (16 * h + l) :: bytes

/-- The bytes written by a text. -/
def decode? (s : String) : Option Bytes :=
  decodeDigits s.toList

end ChainNode.Hex

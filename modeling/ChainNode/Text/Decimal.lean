/-!
# Decimal numbers

The value of a run of ASCII digits, leading zeros allowed, and two readings of a number: with an
optional plus sign, and with either sign.
-/

namespace ChainNode.Decimal

/-- The number written by digits, the highest first. -/
def value (digits : List Char) : Nat :=
  digits.foldl (fun n c => 10 * n + (c.toNat - '0'.toNat)) 0

/-- A number below `bound`: at least one ASCII digit, after an optional plus sign. -/
def read? (bound : Nat) (s : String) : Option Nat :=
  let digits := match s.toList with
    | '+' :: rest => rest
    | whole => whole
  if digits ≠ [] ∧ digits.all Char.isDigit ∧ value digits < bound then some (value digits) else none

/-- A number below `bound` after an optional sign; after a minus sign that is zero alone. -/
def readSigned? (bound : Nat) (s : String) : Option Nat :=
  match s.toList with
  | '-' :: digits =>
    if digits ≠ [] ∧ digits.all Char.isDigit ∧ value digits = 0 then some 0 else none
  | _ => read? bound s

end ChainNode.Decimal

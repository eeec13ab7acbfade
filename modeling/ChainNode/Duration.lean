import ChainNode.Text.Blank
import ChainNode.Text.Decimal
import ChainNode.Text.Quoted

/-!
# Durations

A duration is a number of whole milliseconds. Its text is a number, then a unit: `ms`, `s`, `m`
or `h`, or none, which means milliseconds. Blanks may stand around the text and before the unit.
The value, and the seconds it amounts to, are below `2 ^ 64`.
-/

namespace ChainNode

/-- A span of time in whole milliseconds. -/
structure Duration where
  millis : Nat
  deriving DecidableEq, Repr

namespace Duration

/-- What values and whole seconds stay below. -/
def bound : Nat := UInt64.size

/-- The span of so many seconds. -/
def ofSeconds (s : Nat) : Duration := ⟨s * 1000⟩

/-- The whole seconds of a span. -/
def seconds (d : Duration) : Nat := d.millis / 1000

/-- The rest of a span beyond its whole seconds, in nanoseconds. -/
def nanos (d : Duration) : Nat := d.millis % 1000 * 1000000

/-- A unit of time. -/
inductive TimeUnit
  | millisecond
  | second
  | minute
  | hour
  deriving DecidableEq, Repr

/-- The unit with the given name; no name means milliseconds. -/
def TimeUnit.ofName? (name : List Char) : Option TimeUnit :=
  if name = [] ∨ name = ['m', 's'] then some .millisecond
  else if name = ['s'] then some .second
  else if name = ['m'] then some .minute
  else if name = ['h'] then some .hour
  else none

/-- So many units of time, unless the seconds leave their range. -/
def TimeUnit.times? (v : Nat) : TimeUnit → Option Duration
  | .millisecond => some ⟨v⟩
  | .second => seconds? v
  | .minute => seconds? (v * 60)
  | .hour => seconds? (v * 3600)
where
  seconds? (s : Nat) : Option Duration := if s < bound then some (ofSeconds s) else none

/-- Why a text is no duration. -/
inductive ParseError
  /-- Nothing but blanks. -/
  | empty
  /-- The text starts with no digit. -/
  | noValue (text : List Char)
  /-- The number does not fit. -/
  | valueTooLarge (text : List Char)
  /-- The number is followed by no known unit. -/
  | unknownUnit (name : List Char)
  /-- The seconds do not fit. -/
  | tooLarge (text : List Char)
  deriving DecidableEq, Repr

/-- The wording of a parse error. -/
def ParseError.message : ParseError → String
  | empty => "Empty duration"
  | noValue s =>
    "Invalid duration value in " ++ Text.quoted s ++ ": cannot parse integer from empty string"
  | valueTooLarge s =>
    "Invalid duration value in " ++ Text.quoted s ++ ": number too large to fit in target type"
  | unknownUnit u =>
    "Invalid duration unit " ++ Text.quoted u ++ ", expected one of ms, s, m, h"
  | tooLarge s => "Duration " ++ Text.quoted s ++ " is too large"

/-- Reads a text without blanks at its ends. -/
def parseTrimmed (text : List Char) : Except ParseError Duration :=
  let digits := text.takeWhile Char.isDigit
  let name := Text.trim (text.dropWhile Char.isDigit)
  if text = [] then .error .empty
  else if digits = [] then .error (.noValue text)
  else if bound ≤ Decimal.value digits then .error (.valueTooLarge text)
  else match TimeUnit.ofName? name with
    | none => .error (.unknownUnit name)
    | some u => match u.times? (Decimal.value digits) with
      | none => .error (.tooLarge text)
      | some d => .ok d

/-- Reads a duration. -/
def parse (s : String) : Except ParseError Duration :=
  parseTrimmed (Text.trim s.toList)

end Duration

end ChainNode

/-!
# Panics

Machine numbers, instants and durations have bounds. Whatever computes beyond them panics: it ends
where it stands, and what it has done so far stays done. Only a sum of machine numbers may wrap around
instead; the build decides. A lock that is held during a panic is poisoned, and whoever wants it later
panics too.
-/

namespace ChainNode

/-- Why something ends in its middle. -/
inductive Panic
  /-- The sum of an instant and a duration is no instant. -/
  | instantOverflow
  /-- A multiple of a duration is no duration. -/
  | durationOverflow
  /-- A sum of machine numbers is no machine number. -/
  | sumOverflow
  /-- A lock was held during a panic. -/
  | poisonedLock
  deriving DecidableEq, Repr

/-- The wording of a panic. -/
def Panic.message : Panic → String
  | instantOverflow => "overflow when adding duration to instant"
  | durationOverflow => "overflow when multiplying duration by scalar"
  | sumOverflow => "attempt to add with overflow"
  | poisonedLock => "Poisoned lock: PoisonError \x7b .. \x7d"

/-- What becomes of a sum of machine numbers that does not fit. -/
inductive Overflow
  | panics
  | wraps
  deriving DecidableEq, Repr

namespace Overflow

/-- The sum of two machine numbers. -/
def sum (o : Overflow) (a b : UInt64) : Except Panic UInt64 :=
  if a.toNat + b.toNat < UInt64.size then .ok (a + b)
  else match o with
    | panics => .error .sumOverflow
    | wraps => .ok (a + b)

theorem sum_eq_ok {a b : UInt64} (h : a.toNat + b.toNat < UInt64.size) (o : Overflow) :
    o.sum a b = .ok (a + b) :=
  if_pos h

theorem sum_of_size_le {a b : UInt64} (h : UInt64.size ≤ a.toNat + b.toNat) (o : Overflow) :
    o.sum a b = match o with
      | panics => .error .sumOverflow
      | wraps => .ok (a + b) :=
  if_neg (Nat.not_lt.mpr h)

end Overflow

end ChainNode

import ChainNode.Duration
import ChainNode.Sync.Panic

/-!
# Instants

An instant is a number of milliseconds from the origin of the clock, before or after it. The clock
has a last instant: its seconds are 64-bit numbers with a sign. Durations end too, where their seconds
are no 64-bit numbers any more.
-/

namespace ChainNode

/-- A moment, in milliseconds from the origin of the clock. -/
abbrev Instant := Int

namespace Instant

/-- The last moment that the clock knows, at the end of 2^63 seconds. -/
def last : Instant := 9223372036854775808 * 1000 - 1

/-- The moment so much later, be there such an instant or not. -/
def after (t : Instant) (d : Duration) : Instant := t + d.millis

/-- The instant so much later; computing it panics if there is none. -/
def plus (t : Instant) (d : Duration) : Except Panic Instant :=
  if t.after d ≤ last then .ok (t.after d) else .error .instantOverflow

/-- The milliseconds since an earlier moment; none since a later one. -/
def since (now t : Instant) : Nat := (now - t).toNat

end Instant

/-- A multiple of a span; computing it panics if it is no span of the clock. -/
def Duration.times (d : Duration) (n : Nat) : Except Panic Duration :=
  if d.millis * n < Duration.bound * 1000 then .ok ⟨d.millis * n⟩ else .error .durationOverflow

end ChainNode

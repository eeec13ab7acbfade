import ChainNode.Sync.Pipeline

/-!
# Waiting until all queues are empty

The queues are looked at in the order in which a block passes them. As long as one has work that has
not ended, a barrier is posted there and waited for. Once a whole round has found nothing anywhere,
the wait is over; otherwise another round begins.

A wait looks at the queues, posts and waits in steps of their own: whatever else happens to the queues
can happen between any two of them.
-/

namespace ChainNode

/-- A wait for all queues. -/
inductive Drain
  /-- It looks at the queues that are left in this round, and has found nothing in the round so far, or
  something. -/
  | looking (rest : List Queue) (idle : Bool)
  /-- It has found work on a queue, and is to post a barrier there. -/
  | posting (q : Queue) (rest : List Queue)
  /-- It waits for its barrier on a queue, at which it will then look again. -/
  | awaiting (ticket : Nat) (q : Queue) (rest : List Queue)
  deriving DecidableEq, Repr

namespace Drain

/-- The start of a wait. -/
def start : Drain := looking Queue.all true

/-- The barrier that is waited for. -/
def ticket? : Drain → Option Nat
  | awaiting k _ _ => some k
  | _ => none

/-- How a wait goes on. -/
inductive Turn (τ : Type)
  /-- It is over. -/
  | done
  /-- It can do nothing before its barrier is answered. -/
  | blocked
  | next (d : Drain) (p : Pipeline τ)

/-- One step of a wait. -/
def step {τ : Type} (p : Pipeline τ) : Drain → Turn τ
  | looking [] idle => if idle then .done else .next start p
  | looking (q :: rest) idle =>
    if p.pending q = 0 then .next (looking rest idle) p else .next (posting q rest) p
  | posting q rest =>
    let (k, p) := p.post q
    .next (awaiting k q rest) p
  | awaiting k q rest => if p.isAnswered k then .next (looking (q :: rest) false) p else .blocked

end Drain

end ChainNode

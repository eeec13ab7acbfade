/-!
# Cancellation scopes

Long-running work carries a scope. What is cancelled are tokens: a token stands by itself or below
another one, and it is cancelled once it or a token above it has been, no matter which of them came
first. A scope holds the token of its whole tree and, unless it is the root of the tree, one of its own,
which stands below that of the scope it was derived from. A scope can be cancelled by itself, which
also stops everything below it, or together with all of its tree. `Cancellation` says which tokens were
cancelled and which numbers are still free.
-/

namespace ChainNode

/-- What can be cancelled; the numbers tell tokens apart. -/
inductive Token
  | root (id : Nat)
  /-- A token below another one. -/
  | child (id : Nat) (parent : Token)
  deriving DecidableEq, Repr, Inhabited

/-- The number of a token. -/
def Token.id : Token → Nat
  | root id => id
  | child id _ => id

/-- A place in a tree of scopes. -/
structure Scope where
  /-- The token of the whole tree. -/
  tree : Token
  /-- The token that covers this place and what is derived from it; for the root of a tree that is the
  token of the tree. -/
  part : Option Token
  deriving DecidableEq, Repr, Inhabited

/-- The tokens cancelled so far; the numbers from `fresh` on are not in use yet. -/
structure Cancellation where
  fresh : Nat
  cancelled : List Nat
  deriving DecidableEq, Repr

namespace Scope

/-- The token of the scope that a place belongs to itself. -/
def own (s : Scope) : Token := s.part.getD s.tree

end Scope

namespace Cancellation

/-- No scopes yet. -/
def empty : Cancellation := ⟨0, []⟩

instance : Inhabited Cancellation := ⟨empty⟩

/-- A new tree. -/
def newRoot (c : Cancellation) : Scope × Cancellation :=
  (⟨.root c.fresh, none⟩, { c with fresh := c.fresh + 1 })

/-- A scope below another. -/
def newChild (c : Cancellation) (s : Scope) : Scope × Cancellation :=
  (⟨s.tree, some (.child c.fresh s.own)⟩, { c with fresh := c.fresh + 1 })

/-- Cancels the scope a place belongs to, and with it everything below. -/
def cancelLocal (c : Cancellation) (s : Scope) : Cancellation :=
  { c with cancelled := s.own.id :: c.cancelled }

/-- Cancels the whole tree of a place. -/
def cancelGlobal (c : Cancellation) (s : Scope) : Cancellation :=
  { c with cancelled := s.tree.id :: c.cancelled }

/-- A token is cancelled: it was, or one above it. -/
def stops (c : Cancellation) : Token → Bool
  | .root id => c.cancelled.contains id
  | .child id parent => c.cancelled.contains id || c.stops parent

/-- A place is cancelled: its tree is, or the scope it belongs to. -/
def isCancelled (c : Cancellation) (s : Scope) : Bool := c.stops s.tree || s.part.any c.stops

/-- A wait for the cancellation of a place is over. -/
def endsWait (c : Cancellation) (s : Scope) : Bool := c.stops s.tree || c.stops s.own

/-- How far a cancellation reaches. -/
inductive Reach
  | ownScope
  | wholeTree
  deriving DecidableEq, Repr

/-- Cancels as far as told. -/
def cancel (c : Cancellation) (s : Scope) : Reach → Cancellation
  | .ownScope => c.cancelLocal s
  | .wholeTree => c.cancelGlobal s

end Cancellation

end ChainNode

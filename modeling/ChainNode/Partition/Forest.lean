/-!
# Disjoint-set forests

The sets of a partition of `0, …, n - 1` as trees: each node points to its parent, a root to
itself. `find` walks to the root and then points every node on the way at it; `union` joins two
trees by hanging the root of lower rank under the other, and only when both have the same rank does
the surviving root's rank grow. Nodes are numbers; a number that is not below `n` belongs to some
other forest, and every call that takes it fails with `UnknownNode`.
-/

namespace ChainNode

/-- A node does not belong to the forest. -/
structure UnknownNode where
  node : Nat
  deriving DecidableEq, Repr

/-- The wording of the error. -/
def UnknownNode.message (e : UnknownNode) : String :=
  "Node NodeId(" ++ toString e.node ++ ") does not belong to this union-find"

/-- The parent and the rank of each node. -/
structure Forest where
  parents : Array Nat
  ranks : Array Nat
  deriving DecidableEq, Repr

namespace Forest

/-- No nodes. -/
def empty : Forest := ⟨#[], #[]⟩

instance : Inhabited Forest := ⟨empty⟩

/-- The number of nodes. -/
def size (f : Forest) : Nat := f.parents.size

/-- The node that a node points to. -/
def parent (f : Forest) (x : Nat) : Nat := f.parents.getD x x

/-- The rank of a node. -/
def rank (f : Forest) (x : Nat) : Nat := f.ranks.getD x 0

/-- The forest with a node pointed at another. -/
def setParent (f : Forest) (x y : Nat) : Forest :=
  { f with parents := f.parents.setIfInBounds x y }

/-- The forest with the rank of a node one higher. -/
def raiseRank (f : Forest) (x : Nat) : Forest :=
  { f with ranks := f.ranks.setIfInBounds x (f.rank x + 1) }

/-- Adds a node that is a set of its own. -/
def make (f : Forest) : Nat × Forest :=
  (f.size, ⟨f.parents.push f.size, f.ranks.push 0⟩)

/-- The end of the chain of parents, at most so many steps away. -/
def walk (f : Forest) : Nat → Nat → Nat
  | 0, x => x
  | fuel + 1, x => if f.parent x = x then x else f.walk fuel (f.parent x)

/-- The root of a node's tree; no chain of parents is longer than there are nodes. -/
def root (f : Forest) (x : Nat) : Nat := f.walk f.size x

/-- Points a node and those above it at `r`, up to the first that points there already. -/
def compress (f : Forest) (r : Nat) : Nat → Nat → Forest
  | 0, _ => f
  | fuel + 1, x =>
    if f.parent x = r then f else (f.setParent x r).compress r fuel (f.parent x)

/-- The root of a node's tree, and the forest with the way to it made short. -/
def find (f : Forest) (x : Nat) : Except UnknownNode (Nat × Forest) :=
  if x < f.size then
    let r := f.root x
    .ok (r, f.compress r f.size x)
  else .error ⟨x⟩

/-- Hangs one of two roots under the other. -/
def link (f : Forest) (r s : Nat) : Forest :=
  if f.rank r < f.rank s then f.setParent r s
  else if f.rank s < f.rank r then f.setParent s r
  else (f.setParent s r).raiseRank r

/-- Joins the sets of two nodes; tells whether they were different. The forest keeps what the
search for the first node did even when the second is unknown. -/
def union (f : Forest) (a b : Nat) : Except UnknownNode Bool × Forest :=
  match f.find a with
  | .error e => (.error e, f)
  | .ok (r, f) => match f.find b with
    | .error e => (.error e, f)
    | .ok (s, f) => if r = s then (.ok false, f) else (.ok true, f.link r s)

/-- Two nodes are in the same set. -/
def same (f : Forest) (a b : Nat) : Except UnknownNode Bool × Forest :=
  match f.find a with
  | .error e => (.error e, f)
  | .ok (r, f) => match f.find b with
    | .error e => (.error e, f)
    | .ok (s, f) => (.ok (r == s), f)

end Forest

end ChainNode

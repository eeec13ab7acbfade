import ChainNode.State.View

/-!
# Deltas and layers

A delta is what one unit of work, a transaction or a whole group, did to a view it did not own: the
paths it read and the changes it made. A second delta on top of a first one adds a read only where
the first had not written, since such a read sees nothing from outside. A layer is a view with the
delta of the work done on it so far.
-/

namespace ChainNode

/-- What a unit of work read and changed. -/
structure Delta where
  writes : Changes
  reads : PathSet
  deriving DecidableEq

namespace Delta

/-- Nothing read, nothing changed. -/
def empty : Delta := ⟨∅, ∅⟩

instance : Inhabited Delta := ⟨empty⟩

/-- The delta of two units of work, one after the other. -/
def extend (first second : Delta) : Delta where
  writes := first.writes.extend second.writes
  reads := first.reads ∪ second.reads.filter fun p => !first.writes.contains p

/-- The paths that were written, then those that were read only, each in order. -/
def touched (d : Delta) : List Path :=
  d.writes.keys ++ (d.reads.filter fun p => !d.writes.contains p).toList

end Delta

/-- A view with the delta of the work done on it. -/
structure Layered where
  base : View
  delta : Delta

namespace Layered

/-- No work done yet. -/
def new (base : View) : Layered := ⟨base, .empty⟩

/-- What is stored at each path, the work's own changes included. -/
def view (l : Layered) : View := l.delta.writes.onto l.base

/-- Adds the delta of a further unit of work. -/
def commit (l : Layered) (delta : Delta) : Layered :=
  { l with delta := l.delta.extend delta }

@[simp] theorem view_new (base : View) : (new base).view = base := Changes.onto_empty base

/-- What is committed lies over everything before. -/
@[simp] theorem view_commit (l : Layered) (delta : Delta) :
    (l.commit delta).view = delta.writes.onto l.view :=
  Changes.onto_extend l.delta.writes delta.writes l.base

end Layered

end ChainNode

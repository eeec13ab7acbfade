import ChainNode.State.View

/-!
# Overlays

Changes that are still pending, on top of a view that is shared and never written. Reading looks at
the changes first.
-/

namespace ChainNode

/-- Pending changes on top of a view. -/
structure Overlay where
  base : View
  changes : Changes

namespace Overlay

/-- No changes yet. -/
def new (base : View) : Overlay := ⟨base, ∅⟩

/-- What is stored at each path, changes included. -/
def view (o : Overlay) : View := o.changes.onto o.base

/-- Adds changes, which win over those before. -/
def apply (o : Overlay) (changes : Changes) : Overlay :=
  { o with changes := o.changes.extend changes }

@[simp] theorem view_new (base : View) : (new base).view = base := Changes.onto_empty base

/-- Applied changes lie over everything before. -/
@[simp] theorem view_apply (o : Overlay) (changes : Changes) :
    (o.apply changes).view = changes.onto o.view :=
  Changes.onto_extend o.changes changes o.base

end Overlay

end ChainNode

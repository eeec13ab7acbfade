import ChainNode.State.Path
import Std.Data.ExtTreeMap

/-!
# Views and changes

A view answers what is stored at a path. Changes say, for finitely many paths, what is stored there
instead, or that nothing is: laid over a view they give the view after the changes. Later changes
win over earlier ones, so laying two sets of changes over a view one after the other is laying
their union (`Changes.onto_extend`).
-/

namespace ChainNode

/-- What is stored in one slot. -/
abbrev Value := Bytes

/-- What is stored at each path; `none` where nothing is. -/
abbrev View := Path → Option Value

/-- New contents for finitely many paths; `none` empties the slot. -/
abbrev Changes := Std.ExtTreeMap Path (Option Value)

instance : DecidableEq Changes := inferInstance

namespace Changes

/-- The changes of a list; a later entry for a path replaces an earlier one. -/
def ofList (entries : List (Path × Option Value)) : Changes :=
  Std.ExtTreeMap.ofList entries

/-- Changes followed by others, which win where both speak of a path. -/
def extend (first second : Changes) : Changes := first ∪ second

/-- A view after changes. -/
def onto (changes : Changes) (view : View) : View := fun p =>
  match changes[p]? with
  | some content => content
  | none => view p

@[simp] theorem onto_empty (view : View) : (∅ : Changes).onto view = view := by
  funext p
  simp [onto]

/-- Laying changes one after the other is laying them together. -/
theorem onto_extend (first second : Changes) (view : View) :
    (first.extend second).onto view = second.onto (first.onto view) := by
  funext p
  simp only [onto, extend, Std.ExtTreeMap.getElem?_union]
  cases second[p]? <;> rfl

end Changes

end ChainNode

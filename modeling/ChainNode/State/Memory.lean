import ChainNode.State.View

/-!
# Stored state

A finite map from paths to values. Applying changes overwrites, adds and removes entries, so that
afterwards the view of the map is the changes laid over the view it had.
-/

namespace ChainNode

/-- State as a finite map. -/
structure Memory where
  values : Std.ExtTreeMap Path Value
  deriving DecidableEq

namespace Memory

instance : Inhabited Memory := ⟨⟨∅⟩⟩

/-- The state of a list of entries; a later entry for a path replaces an earlier one. -/
def ofList (entries : List (Path × Value)) : Memory := ⟨Std.ExtTreeMap.ofList entries⟩

/-- What is stored at each path. -/
def view (m : Memory) : View := fun p => m.values[p]?

/-- Stores a value at a path. -/
def insert (m : Memory) (p : Path) (v : Value) : Memory := ⟨m.values.insert p v⟩

/-- Stores a value at a path, or empties the slot. -/
def put (m : Memory) (p : Path) : Option Value → Memory
  | some v => m.insert p v
  | none => ⟨m.values.erase p⟩

/-- Makes changes part of the state. -/
def apply (m : Memory) (changes : Changes) : Memory :=
  changes.foldl Memory.put m

/-- The number of entries. -/
def size (m : Memory) : Nat := m.values.size

/-- There is no entry. -/
def isEmpty (m : Memory) : Bool := m.values.isEmpty

@[simp] theorem view_insert (m : Memory) (p q : Path) (v : Value) :
    (m.insert p v).view q = if p = q then some v else m.view q := by
  simp [view, insert, Std.ExtTreeMap.getElem?_insert]

theorem view_put (m : Memory) (p q : Path) (content : Option Value) :
    (m.put p content).view q = if p = q then content else m.view q := by
  cases content with
  | some v => exact view_insert m p q v
  | none => simp [put, view, Std.ExtTreeMap.getElem?_erase]

end Memory

end ChainNode

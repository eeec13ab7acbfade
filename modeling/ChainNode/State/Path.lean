import ChainNode.Codec.Basic

/-!
# Paths

The key of one slot of contract state: a list of segments such as the contract, the table and the
account. Paths are ordered segment by segment, and segments by their characters; a path comes
before those that continue it.
-/

namespace ChainNode

/-- The key of one slot of contract state. -/
structure Path where
  segments : List String
  deriving DecidableEq, Repr, Inhabited

namespace Path

/-- The segments with a slash between them. -/
def display (p : Path) : String := "/".intercalate p.segments

instance : Ord Path := ⟨fun a b => compare a.segments b.segments⟩

instance : Std.TransOrd Path where
  eq_swap {a b} := Std.OrientedOrd.eq_swap (a := a.segments) (b := b.segments)
  isLE_trans {a b c} := Std.TransOrd.isLE_trans (a := a.segments) (b := b.segments) (c := c.segments)

instance : Std.LawfulEqOrd Path where
  compare_self {a} := Std.ReflOrd.compare_self (a := a.segments)
  eq_of_compare {a b} h := by
    have hf : a.segments = b.segments := Std.LawfulEqOrd.eq_of_compare h
    cases a
    cases b
    exact congrArg Path.mk hf

instance : Binary Path where
  encode p := encode p.segments
  decode := do return { segments := ← Binary.decode }

end Path

/-- A finite set of paths. -/
abbrev PathSet := Std.ExtTreeSet Path

end ChainNode

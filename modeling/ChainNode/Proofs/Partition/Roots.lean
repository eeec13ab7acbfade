import ChainNode.Partition.Forest
import Mathlib.Data.Finset.Card
import Mathlib.Data.Finset.Range
import Mathlib.Logic.Function.Iterate

/-!
# Roots of a disjoint-set forest

A forest is valid when ranks grow along the way to the root. Then each walk ends, `Forest.root` is
the only function that is constant along parents and fixes the nodes that are their own parents
(`Forest.Valid.root_unique`), and every operation is described by what it does to roots: `make` and
`find` leave them alone, `union` gives the two sets it joins one of their two roots. The partition
that a forest stands for is equality of roots.
-/

namespace ChainNode.Forest

/-- Ranks grow along parents, and parents stay inside the forest. -/
structure Valid (f : Forest) : Prop where
  size_ranks : f.ranks.size = f.size
  parent_lt : ∀ x < f.size, f.parent x < f.size
  rank_lt : ∀ x, f.parent x ≠ x → f.rank x < f.rank (f.parent x)

/-! ## Parents and ranks after each change -/

theorem parent_of_size_le {f : Forest} {x : Nat} (h : f.size ≤ x) : f.parent x = x := by
  rw [parent, Array.getD_eq_getD_getElem?, Array.getElem?_eq_none h, Option.getD_none]

/-- Only nodes of the forest point elsewhere. -/
theorem lt_size_of_parent_ne {f : Forest} {x : Nat} (h : f.parent x ≠ x) : x < f.size := by
  by_contra hx
  exact h (parent_of_size_le (Nat.le_of_not_lt hx))

@[simp] theorem size_setParent (f : Forest) (x y : Nat) : (f.setParent x y).size = f.size := by
  simp [size, setParent]

@[simp] theorem rank_setParent (f : Forest) (x y z : Nat) : (f.setParent x y).rank z = f.rank z :=
  rfl

theorem parent_setParent {f : Forest} {x : Nat} (hx : x < f.size) (y z : Nat) :
    (f.setParent x y).parent z = if z = x then y else f.parent z := by
  simp only [parent, setParent, Array.getD_eq_getD_getElem?, Array.getElem?_setIfInBounds]
  by_cases hz : z = x
  · subst z
    simp [show x < f.parents.size from hx]
  · simp [hz, Ne.symm hz]

@[simp] theorem size_raiseRank (f : Forest) (x : Nat) : (f.raiseRank x).size = f.size := rfl

@[simp] theorem parent_raiseRank (f : Forest) (x z : Nat) :
    (f.raiseRank x).parent z = f.parent z := rfl

theorem rank_raiseRank {f : Forest} {x : Nat} (hx : x < f.ranks.size) (z : Nat) :
    (f.raiseRank x).rank z = if z = x then f.rank x + 1 else f.rank z := by
  simp only [rank, raiseRank, Array.getD_eq_getD_getElem?, Array.getElem?_setIfInBounds]
  by_cases hz : z = x
  · subst z
    simp [hx]
  · simp [hz, Ne.symm hz]

@[simp] theorem size_make (f : Forest) : f.make.2.size = f.size + 1 := by
  simp [size, make]

@[simp] theorem fst_make (f : Forest) : f.make.1 = f.size := rfl

/-- A new node points to itself, as does every number that is no node yet. -/
@[simp] theorem parent_make (f : Forest) (x : Nat) : f.make.2.parent x = f.parent x := by
  simp only [parent, make, Array.getD_eq_getD_getElem?, Array.getElem?_push, size]
  by_cases hx : x = f.parents.size
  · subst x
    simp
  · simp [hx]

@[simp] theorem rank_make (f : Forest) (x : Nat) : f.make.2.rank x = f.rank x := by
  simp only [rank, make, Array.getD_eq_getD_getElem?, Array.getElem?_push]
  by_cases hx : x = f.ranks.size
  · subst x
    simp
  · simp [hx]

/-! ## Walks end -/

theorem walk_eq_iterate (f : Forest) (n x : Nat) : f.walk n x = f.parent^[n] x := by
  induction n generalizing x with
  | zero => rfl
  | succ n ih =>
    rw [walk, Function.iterate_succ_apply]
    by_cases hx : f.parent x = x
    · rw [if_pos hx, hx, Function.iterate_fixed hx]
    · rw [if_neg hx, ih]

/-- The number of nodes of higher rank: it falls with each step towards the root. -/
def above (f : Forest) (x : Nat) : Nat := {y ∈ Finset.range f.size | f.rank x < f.rank y}.card

theorem above_le_size (f : Forest) (x : Nat) : f.above x ≤ f.size := by
  calc f.above x ≤ (Finset.range f.size).card := Finset.card_filter_le _ _
    _ = f.size := Finset.card_range _

namespace Valid
variable {f : Forest}

theorem above_parent_lt (h : f.Valid) {x : Nat} (hx : f.parent x ≠ x) :
    f.above (f.parent x) < f.above x := by
  have hrank := h.rank_lt x hx
  have hlt := h.parent_lt x (lt_size_of_parent_ne hx)
  apply Finset.card_lt_card
  rw [Finset.ssubset_iff_of_subset]
  · refine ⟨f.parent x, ?_, ?_⟩
    · rw [Finset.mem_filter, Finset.mem_range]
      exact ⟨hlt, hrank⟩
    · rw [Finset.mem_filter]
      exact fun hm => Nat.lt_irrefl _ hm.2
  · intro y hy
    rw [Finset.mem_filter] at hy ⊢
    exact ⟨hy.1, Nat.lt_trans hrank hy.2⟩

/-- Induction along the way to the root. -/
theorem induction (h : f.Valid) {P : Nat → Prop} (root : ∀ x, f.parent x = x → P x)
    (step : ∀ x, f.parent x ≠ x → P (f.parent x) → P x) (x : Nat) : P x := by
  induction hn : f.above x using Nat.strongRecOn generalizing x with
  | ind n ih =>
    by_cases hx : f.parent x = x
    · exact root x hx
    · exact step x hx (ih _ (hn ▸ h.above_parent_lt hx) _ rfl)

/-- Enough steps lead to a node that is its own parent. -/
theorem parent_iterate (h : f.Valid) {n x : Nat} (hn : f.above x ≤ n) :
    f.parent (f.parent^[n] x) = f.parent^[n] x := by
  induction n generalizing x with
  | zero =>
    by_contra hx
    have := h.above_parent_lt hx
    simp only [Function.iterate_zero, id] at this
    omega
  | succ n ih =>
    rw [Function.iterate_succ_apply]
    by_cases hx : f.parent x = x
    · rw [hx, Function.iterate_fixed hx, hx]
    · have := h.above_parent_lt hx
      exact ih (by omega)

/-! ## Roots -/

theorem parent_root (h : f.Valid) (x : Nat) : f.parent (f.root x) = f.root x := by
  rw [root, walk_eq_iterate]
  exact h.parent_iterate (f.above_le_size x)

end Valid

theorem root_of_parent_eq {f : Forest} {x : Nat} (hx : f.parent x = x) : f.root x = x := by
  rw [root, walk_eq_iterate, Function.iterate_fixed hx]

/-- A node that does not point at its root is none itself. -/
theorem parent_ne_of_ne_root {f : Forest} {x : Nat} (hx : f.parent x ≠ f.root x) :
    f.parent x ≠ x :=
  fun hself => hx (hself.trans (root_of_parent_eq hself).symm)

namespace Valid
variable {f : Forest}

theorem root_parent (h : f.Valid) (x : Nat) : f.root (f.parent x) = f.root x := by
  have hr := h.parent_root x
  rw [root, walk_eq_iterate] at hr ⊢
  rw [root, walk_eq_iterate, ← Function.iterate_succ_apply, Function.iterate_succ_apply', hr]

theorem root_root (h : f.Valid) (x : Nat) : f.root (f.root x) = f.root x :=
  root_of_parent_eq (h.parent_root x)

/-- A function that is constant along parents and fixes the roots gives the roots. -/
theorem root_unique (h : f.Valid) {ρ : Nat → Nat} (fix : ∀ x, f.parent x = x → ρ x = x)
    (const : ∀ x, f.parent x ≠ x → ρ x = ρ (f.parent x)) (x : Nat) : f.root x = ρ x := by
  induction x using h.induction with
  | root x hx => rw [root_of_parent_eq hx, fix x hx]
  | step x hx ih => rw [← h.root_parent, ih, const x hx]

theorem root_lt (h : f.Valid) {x : Nat} (hx : x < f.size) : f.root x < f.size := by
  induction x using h.induction with
  | root x hr => rwa [root_of_parent_eq hr]
  | step x _ ih =>
    rw [← h.root_parent]
    exact ih (h.parent_lt x hx)

theorem rank_le_root (h : f.Valid) (x : Nat) : f.rank x ≤ f.rank (f.root x) := by
  induction x using h.induction with
  | root x hx => rw [root_of_parent_eq hx]
  | step x hx ih =>
    rw [← h.root_parent]
    exact Nat.le_trans (Nat.le_of_lt (h.rank_lt x hx)) ih

theorem rank_lt_root (h : f.Valid) {x : Nat} (hx : f.root x ≠ x) :
    f.rank x < f.rank (f.root x) := by
  have hp : f.parent x ≠ x := fun hp => hx (root_of_parent_eq hp)
  calc f.rank x < f.rank (f.parent x) := h.rank_lt x hp
    _ ≤ f.rank (f.root (f.parent x)) := h.rank_le_root _
    _ = f.rank (f.root x) := by rw [h.root_parent]

end Valid

end ChainNode.Forest

import ChainNode.Proofs.Partition.Closure
import Mathlib.Data.Nat.Find

/-!
# Ways to roots

A node's way follows parents (`Forest.Passes`) until it ends in the node's root (`Forest.EndsIn`);
the number of steps that this takes is the node's depth (`Forest.depth`). A search walks the way a
second time and changes the very parents that it follows. But it changes only what it has left
behind, and ranks grow along the way, so nothing left behind comes up again: the nodes on the way
are pointed at the root, and no other parent is touched (`Forest.Straightened`).

A node whose parent changes points at its own root from then on. This is why no way gets longer, and
why a second search finds nothing left to do (`Forest.find_straightens`).
-/

namespace ChainNode.Forest

variable {f g : Forest} {x y : Nat}

/-- The way of `x`, which begins with `x` itself, passes `y`. -/
def Passes (f : Forest) (x y : Nat) : Prop := ∃ k, f.parent^[k] x = y

/-- The way of `x` leads to `y` and no further. -/
def EndsIn (f : Forest) (x y : Nat) : Prop := f.Passes x y ∧ f.parent y = y

theorem passes_self (f : Forest) (x : Nat) : f.Passes x x := ⟨0, rfl⟩

theorem passes_root (f : Forest) (x : Nat) : f.Passes x (f.root x) :=
  ⟨f.size, (f.walk_eq_iterate f.size x).symm⟩

/-- The least number of steps that lead to the root. -/
def depth (f : Forest) (x : Nat) : Nat := Nat.find (f.passes_root x)

theorem iterate_depth (f : Forest) (x : Nat) : f.parent^[f.depth x] x = f.root x :=
  Nat.find_spec (f.passes_root x)

theorem depth_le {k : Nat} (h : f.parent^[k] x = f.root x) : f.depth x ≤ k :=
  Nat.find_min' (f.passes_root x) h

/-! ## Nodes on a way -/

theorem passes_iff : f.Passes x y ↔ y = x ∨ f.Passes (f.parent x) y := by
  constructor
  · rintro ⟨_ | k, hk⟩
    · exact .inl hk.symm
    · exact .inr ⟨k, by rwa [← Function.iterate_succ_apply]⟩
  · rintro (rfl | ⟨k, hk⟩)
    · exact f.passes_self y
    · exact ⟨k + 1, by rwa [Function.iterate_succ_apply]⟩

/-- The way of a root stays where it is. -/
theorem passes_iff_of_parent_eq (hx : f.parent x = x) : f.Passes x y ↔ y = x := by
  constructor
  · rintro ⟨k, rfl⟩
    exact Function.iterate_fixed hx k
  · rintro rfl
    exact f.passes_self y

/-- A way depends on the parents of the nodes on it, and on nothing else. -/
theorem passes_congr (h : ∀ z, f.Passes x z → g.parent z = f.parent z) :
    g.Passes x y ↔ f.Passes x y := by
  have hsteps (k : Nat) : g.parent^[k] x = f.parent^[k] x := by
    induction k with
    | zero => rfl
    | succ k ih =>
      rw [Function.iterate_succ_apply', Function.iterate_succ_apply', ih, h _ ⟨k, rfl⟩]
  simp only [Passes, hsteps]

namespace Valid

theorem root_of_passes (h : f.Valid) (hy : f.Passes x y) : f.root y = f.root x := by
  obtain ⟨k, rfl⟩ := hy
  induction k with
  | zero => rfl
  | succ k ih => rw [Function.iterate_succ_apply', h.root_parent, ih]

/-- A way ends in the root and nowhere else. -/
theorem endsIn_iff (h : f.Valid) : f.EndsIn x y ↔ f.root x = y := by
  constructor
  · rintro ⟨hy, hend⟩
    rw [← h.root_of_passes hy, root_of_parent_eq hend]
  · rintro rfl
    exact ⟨f.passes_root x, h.parent_root x⟩

theorem rank_le_of_passes (h : f.Valid) (hy : f.Passes x y) : f.rank x ≤ f.rank y := by
  obtain ⟨k, rfl⟩ := hy
  induction k with
  | zero => exact Nat.le_refl _
  | succ k ih =>
    rw [Function.iterate_succ_apply']
    by_cases hroot : f.parent (f.parent^[k] x) = f.parent^[k] x
    · rwa [hroot]
    · exact ih.trans (Nat.le_of_lt (h.rank_lt _ hroot))

/-- A way does not come back to where it began. -/
theorem not_passes_back (h : f.Valid) (hx : f.parent x ≠ x) : ¬ f.Passes (f.parent x) x :=
  fun hback => Nat.not_lt_of_le (h.rank_le_of_passes hback) (h.rank_lt x hx)

/-- What is left of a way after a node that points at the root points there too. -/
theorem parent_of_passes (h : f.Valid) (hx : f.parent x = f.root x) (hy : f.Passes x y) :
    f.parent y = f.root x := by
  obtain rfl | hy := passes_iff.mp hy
  · exact hx
  · rw [hx, passes_iff_of_parent_eq (h.parent_root x)] at hy
    rw [hy, h.parent_root]

end Valid

/-! ## The second walk of a search -/

theorem above_setParent (f : Forest) (x y z : Nat) : (f.setParent x y).above z = f.above z := by
  simp only [above, size_setParent, rank_setParent]

theorem ranks_compress (f : Forest) (r fuel x : Nat) : (f.compress r fuel x).ranks = f.ranks := by
  induction fuel generalizing f x with
  | zero => rfl
  | succ fuel ih =>
    rw [compress]
    split
    · rfl
    · rw [ih]
      rfl

/-- What lies ahead in a round is the way of the parent, in the changed forest as in the old one. -/
theorem Valid.passes_ahead (h : f.Valid) (hx : f.parent x ≠ x) (r : Nat) :
    (f.setParent x r).Passes (f.parent x) y ↔ f.Passes (f.parent x) y := by
  refine passes_congr fun z hz => ?_
  have hzx : z ≠ x := by
    rintro rfl
    exact h.not_passes_back hx hz
  rw [parent_setParent (lt_size_of_parent_ne hx), if_neg hzx]

open Classical in
/-- Where the walk stops, it has no more to do. -/
theorem Valid.parent_eq_ite (h : f.Valid) (hx : f.parent x = f.root x) (y : Nat) :
    f.parent y = if f.Passes x y then f.root x else f.parent y := by
  split
  case isTrue hy => exact h.parent_of_passes hx hy
  case isFalse => rfl

open Classical in
/-- The walk points the nodes on the way at the root and leaves all others alone. -/
theorem Valid.parent_compress {r fuel : Nat} (h : f.Valid) (hx : x < f.size) (hr : f.root x = r)
    (hfuel : f.above x ≤ fuel) (y : Nat) :
    (f.compress r fuel x).parent y = if f.Passes x y then r else f.parent y := by
  induction fuel generalizing f x with
  | zero =>
    -- No rank is above that of `x`, so it is the root.
    have hp : f.parent x = f.root x := by
      by_contra hp
      have := h.above_parent_lt (parent_ne_of_ne_root hp)
      omega
    rw [compress, ← hr]
    exact h.parent_eq_ite hp y
  | succ fuel ih =>
    by_cases hp : f.parent x = r
    · rw [compress_of_parent_eq hp, ← hr]
      exact h.parent_eq_ite (hp.trans hr.symm) y
    · have hne : f.parent x ≠ x := parent_ne_of_ne_root (hr ▸ hp)
      have hup := h.above_parent_lt hne
      obtain ⟨hnext, hlt, hroot⟩ := h.compressed_round hx hr
      have hrest := ih hnext.valid hlt hroot (by rw [above_setParent]; omega)
      rw [compress, if_neg hp, hrest, h.passes_ahead hne, parent_setParent hx]
      rw [passes_iff (x := x)]
      by_cases hyx : y = x <;> simp [hyx]

/-! ## What a search leaves -/

open Classical in
/-- A forest that is the same but for the nodes on the way of `x`, which all point at its end. -/
structure Straightened (f : Forest) (x : Nat) (g : Forest) : Prop extends f.Compressed g where
  ranks_eq : g.ranks = f.ranks
  parent_eq : ∀ y, g.parent y = if f.Passes x y then f.root x else f.parent y

theorem Valid.find_straightened (h : f.Valid) (hx : x < f.size) :
    ∃ g, f.find x = .ok (f.root x, g) ∧ f.Straightened x g := by
  refine ⟨f.compress (f.root x) f.size x, by rw [find, if_pos hx], ?_⟩
  exact ⟨h.compressed_compress _ hx rfl, f.ranks_compress _ _ _,
    h.parent_compress hx rfl (f.above_le_size x)⟩

namespace Straightened

theorem parent_passed (hg : f.Straightened x g) (hy : f.Passes x y) : g.parent y = f.root x := by
  rw [hg.parent_eq, if_pos hy]

theorem parent_aside (hg : f.Straightened x g) (hy : ¬ f.Passes x y) :
    g.parent y = f.parent y := by
  rw [hg.parent_eq, if_neg hy]

/-- No node is pointed at the root of another. -/
theorem parent_cases (hg : f.Straightened x g) (h : f.Valid) (y : Nat) :
    g.parent y = f.root y ∨ g.parent y = f.parent y := by
  by_cases hy : f.Passes x y
  · exact .inl (by rw [hg.parent_passed hy, h.root_of_passes hy])
  · exact .inr (hg.parent_aside hy)

/-- Steps that led to the root still do. -/
theorem iterate_eq_root {k : Nat} (hg : f.Straightened x g) (h : f.Valid)
    (hk : f.parent^[k] y = f.root y) : g.parent^[k] y = g.root y := by
  induction k generalizing y with
  | zero =>
    rw [hg.root_eq, ← hk]
    rfl
  | succ k ih =>
    rw [Function.iterate_succ_apply] at hk ⊢
    rcases hg.parent_cases h y with hy | hy
    · rw [hy, ← hg.root_eq, Function.iterate_fixed (hg.valid.parent_root y)]
    · rw [hy, ih (by rw [hk, h.root_parent]), hg.root_eq, hg.root_eq, h.root_parent]

/-- Ways end where they did. -/
theorem endsIn_iff (hg : f.Straightened x g) (h : f.Valid) (y z : Nat) :
    g.EndsIn y z ↔ f.EndsIn y z := by
  rw [hg.valid.endsIn_iff, h.endsIn_iff, hg.root_eq]

theorem depth_le (hg : f.Straightened x g) (h : f.Valid) (y : Nat) : g.depth y ≤ f.depth y :=
  Forest.depth_le (hg.iterate_eq_root h (f.iterate_depth y))

/-- The second walk of a second search stops where it begins. -/
theorem find_again (hg : f.Straightened x g) (hx : x < f.size) : g.find x = .ok (f.root x, g) := by
  have hp : g.parent x = f.root x := hg.parent_passed (f.passes_self x)
  rw [find, if_pos (hg.size_eq.symm ▸ hx)]
  simp only [hg.root_eq, compress_of_parent_eq hp]

end Straightened

/-- **A search straightens one way.** After any calls on a forest that starts without nodes, a
search for one of its nodes finds the root at the end of the node's way. From then on the nodes on
that way point at this root; all other nodes point where they did, and the ranks are what they were.
Each way ends where it did and is no longer than before, and the same search once more finds the
same root and changes nothing. -/
theorem find_straightens (calls : List ForestCall) :
    let f := (empty.performAll calls).2
    ∀ x < f.size, ∃ r g, f.find x = .ok (r, g) ∧ f.EndsIn x r ∧
      (∀ y, f.Passes x y → g.parent y = r) ∧
      (∀ y, ¬ f.Passes x y → g.parent y = f.parent y) ∧
      g.size = f.size ∧ g.ranks = f.ranks ∧
      (∀ y s, g.EndsIn y s ↔ f.EndsIn y s) ∧
      (∀ y, g.depth y ≤ f.depth y) ∧
      g.find x = .ok (r, g) := by
  intro f x hx
  have h : f.Valid := (represents_empty.performAll calls).valid
  obtain ⟨g, hfind, hg⟩ := h.find_straightened hx
  refine ⟨f.root x, g, hfind, h.endsIn_iff.mpr rfl, ?_, ?_, hg.size_eq, hg.ranks_eq,
    hg.endsIn_iff h, hg.depth_le h, hg.find_again hx⟩
  · exact fun y hy => hg.parent_passed hy
  · exact fun y hy => hg.parent_aside hy

/-- The way of node 7 in a tree of eight passes 6 and 4 and ends in 0. A search for 7 points 6 at
the root, too, but not 5, which hangs under 4 as before. -/
theorem find_straightens_eight :
    let calls : List ForestCall := List.replicate 8 .make ++
      [.union 0 1, .union 2 3, .union 4 5, .union 6 7, .union 0 2, .union 4 6, .union 0 4]
    let f := (empty.performAll calls).2
    7 < f.size ∧ f.depth 7 = 3 ∧ f.Passes 7 6 ∧ f.parent 6 = 4 ∧ ¬ f.Passes 7 5 ∧ f.parent 5 = 4 ∧
      ∃ g, f.find 7 = .ok (0, g) ∧ g.parent 7 = 0 ∧ g.parent 6 = 0 ∧ g.parent 5 = 4 ∧
        g.ranks = f.ranks ∧ g.EndsIn 5 0 ∧ g.depth 7 ≤ f.depth 7 ∧ g.find 7 = .ok (0, g) := by
  intro calls f
  have hx : 7 < f.size := by decide +kernel
  have h6 : f.Passes 7 6 := ⟨1, by decide +kernel⟩
  have h5 : ¬ f.Passes 7 5 := by
    rw [passes_iff, passes_iff, passes_iff, passes_iff_of_parent_eq (by decide +kernel)]
    decide +kernel
  have hparent5 : f.parent 5 = 4 := by decide +kernel
  have hend5 : f.EndsIn 5 0 := ⟨⟨2, by decide +kernel⟩, by decide +kernel⟩
  have hanswer : (f.find 7).map (·.1) = .ok 0 := by decide +kernel
  obtain ⟨r, g, hfind, -, hpassed, haside, -, hranks, hends, hdepth, hagain⟩ :=
    find_straightens calls 7 hx
  obtain rfl : r = 0 := by
    rw [hfind] at hanswer
    cases hanswer
    rfl
  exact ⟨hx, by decide +kernel, h6, by decide +kernel, h5, hparent5, g, hfind,
    hpassed 7 (f.passes_self 7), hpassed 6 h6, (haside 5 h5).trans hparent5, hranks,
    (hends 5 0).mpr hend5, hdepth 7, hagain⟩

end ChainNode.Forest

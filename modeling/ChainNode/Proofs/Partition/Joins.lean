import ChainNode.Proofs.Partition.Roots

/-!
# Searching and joining

What the operations of a forest do to its roots. A search changes parents but neither roots nor
ranks (`Forest.Compressed`), so it leaves the partition alone. A union hangs one root under the other
(`Forest.Hangs`), so it relates exactly what a single new pair relates (`Forest.Valid.union_spec`):
two nodes are together afterwards when they were before, or when one was with the first argument and
the other with the second.
-/

namespace ChainNode.Forest

/-! ## New nodes -/

theorem valid_empty : empty.Valid where
  size_ranks := rfl
  parent_lt := fun _ hx => absurd hx (Nat.not_lt_zero _)
  rank_lt := fun _ hx => absurd (parent_of_size_le (Nat.zero_le _)) hx

theorem Valid.make {f : Forest} (h : f.Valid) : f.make.2.Valid where
  size_ranks := by
    have := h.size_ranks
    simp only [ChainNode.Forest.make, size, Array.size_push] at this ⊢
    omega
  parent_lt x hx := by
    rw [size_make] at hx ⊢
    rw [parent_make]
    by_cases hlt : x < f.size
    · exact Nat.lt_succ_of_lt (h.parent_lt x hlt)
    · rwa [parent_of_size_le (Nat.le_of_not_lt hlt)]
  rank_lt x hx := by
    rw [parent_make] at hx ⊢
    rw [rank_make, rank_make]
    exact h.rank_lt x hx

theorem Valid.root_make {f : Forest} (h : f.Valid) (x : Nat) : f.make.2.root x = f.root x := by
  apply h.make.root_unique
  · intro y hy
    exact root_of_parent_eq (by rwa [parent_make] at hy)
  · intro y _
    rw [parent_make, h.root_parent]

/-- A new node is the root of a tree of its own. -/
theorem root_size (f : Forest) : f.root f.size = f.size :=
  root_of_parent_eq (parent_of_size_le (Nat.le_refl _))

/-! ## Searching -/

/-- A forest with the same nodes, roots and ranks, and possibly shorter ways to the roots. -/
structure Compressed (f g : Forest) : Prop where
  valid : g.Valid
  size_eq : g.size = f.size
  root_eq : ∀ x, g.root x = f.root x
  rank_eq : ∀ x, g.rank x = f.rank x

namespace Compressed

theorem refl {f : Forest} (h : f.Valid) : f.Compressed f := ⟨h, rfl, fun _ => rfl, fun _ => rfl⟩

theorem trans {f g k : Forest} (h : f.Compressed g) (h' : g.Compressed k) : f.Compressed k where
  valid := h'.valid
  size_eq := h'.size_eq.trans h.size_eq
  root_eq x := (h'.root_eq x).trans (h.root_eq x)
  rank_eq x := (h'.rank_eq x).trans (h.rank_eq x)

end Compressed

/-- A node that points at `r` already ends the second walk. -/
theorem compress_of_parent_eq {f : Forest} {r x fuel : Nat} (hp : f.parent x = r) :
    f.compress r fuel x = f := by
  cases fuel with
  | zero => rfl
  | succ fuel => rw [compress, if_pos hp]

namespace Valid
variable {f : Forest}

/-- Pointing a node at its root changes no root. -/
theorem compressed_setParent (h : f.Valid) {x : Nat} (hx : x < f.size) :
    f.Compressed (f.setParent x (f.root x)) := by
  have hp : ∀ z, (f.setParent x (f.root x)).parent z = if z = x then f.root x else f.parent z :=
    parent_setParent hx _
  have valid : (f.setParent x (f.root x)).Valid := by
    refine ⟨?_, ?_, ?_⟩
    · rw [size_setParent]
      exact h.size_ranks
    · intro y hy
      rw [size_setParent] at hy ⊢
      rw [hp]
      split
      · exact h.root_lt hx
      · exact h.parent_lt y hy
    · intro y hy
      rw [hp] at hy ⊢
      rw [rank_setParent, rank_setParent]
      by_cases hyx : y = x
      · rw [if_pos hyx] at hy ⊢
        subst y
        exact h.rank_lt_root hy
      · rw [if_neg hyx] at hy ⊢
        exact h.rank_lt y hy
  refine ⟨valid, size_setParent _ _ _, valid.root_unique ?_ ?_, fun _ => rfl⟩
  · intro y hy
    rw [hp] at hy
    by_cases hyx : y = x
    · rwa [if_pos hyx, ← hyx] at hy
    · rw [if_neg hyx] at hy
      exact root_of_parent_eq hy
  · intro y _
    rw [hp]
    by_cases hyx : y = x
    · rw [if_pos hyx, h.root_root, hyx]
    · rw [if_neg hyx, h.root_parent]

/-- A round of the second walk changes no root, and what lies ahead still ends in `r`. -/
theorem compressed_round (h : f.Valid) {x r : Nat} (hx : x < f.size) (hr : f.root x = r) :
    f.Compressed (f.setParent x r) ∧ f.parent x < (f.setParent x r).size ∧
      (f.setParent x r).root (f.parent x) = r := by
  subst hr
  have hstep := h.compressed_setParent hx
  refine ⟨hstep, ?_, ?_⟩
  · rw [size_setParent]
    exact h.parent_lt x hx
  · rw [hstep.root_eq, h.root_parent]

/-- Pointing every node on the way at the root changes no root, however far it is carried. -/
theorem compressed_compress (h : f.Valid) (fuel : Nat) {x r : Nat} (hx : x < f.size)
    (hr : f.root x = r) : f.Compressed (f.compress r fuel x) := by
  induction fuel generalizing f x with
  | zero => exact .refl h
  | succ fuel ih =>
    rw [compress]
    by_cases hp : f.parent x = r
    · rw [if_pos hp]
      exact .refl h
    · rw [if_neg hp]
      obtain ⟨hstep, hlt, hroot⟩ := h.compressed_round hx hr
      exact hstep.trans (ih hstep.valid hlt hroot)

/-- A search of a node of the forest gives its root. -/
theorem find_eq (h : f.Valid) {x : Nat} (hx : x < f.size) :
    ∃ g, f.find x = .ok (f.root x, g) ∧ f.Compressed g := by
  refine ⟨f.compress (f.root x) f.size x, ?_, h.compressed_compress _ hx rfl⟩
  rw [find, if_pos hx]

end Valid

/-! ## Joining -/

/-- A forest in which `s` was hung under `r`, whose rank may have grown to stay above that of `s`. -/
structure Hangs (f g : Forest) (r s : Nat) : Prop where
  size_ranks : g.ranks.size = f.ranks.size
  size_eq : g.size = f.size
  parent_eq : ∀ z, g.parent z = if z = s then r else f.parent z
  rank_eq : ∀ z, z ≠ r → g.rank z = f.rank z
  rank_le : f.rank r ≤ g.rank r
  rank_lt : f.rank s < g.rank r

theorem hangs_setParent {f : Forest} {r s : Nat} (hs : s < f.size) (hrank : f.rank s < f.rank r) :
    f.Hangs (f.setParent s r) r s where
  size_ranks := rfl
  size_eq := size_setParent f s r
  parent_eq := parent_setParent hs r
  rank_eq _ _ := rfl
  rank_le := Nat.le_refl _
  rank_lt := hrank

/-- Hanging a root under another moves its tree there and nothing else. -/
theorem Hangs.spec {f g : Forest} {r s : Nat} (hg : f.Hangs g r s) (h : f.Valid)
    (hr : f.root r = r) (hs : f.root s = s) (hrs : r ≠ s) (hlt : r < f.size) :
    g.Valid ∧ ∀ z, g.root z = if f.root z = s then r else f.root z := by
  have valid : g.Valid := by
    refine ⟨?_, ?_, ?_⟩
    · rw [hg.size_ranks, hg.size_eq]
      exact h.size_ranks
    · intro z hz
      rw [hg.size_eq] at hz ⊢
      rw [hg.parent_eq]
      split
      · exact hlt
      · exact h.parent_lt z hz
    · intro z hz
      rw [hg.parent_eq] at hz ⊢
      by_cases hzs : z = s
      · rw [if_pos hzs, hzs, hg.rank_eq s hrs.symm]
        exact hg.rank_lt
      · rw [if_neg hzs] at hz ⊢
        have hzr : z ≠ r := fun hzr => hz (by rw [hzr, ← hr, h.parent_root])
        rw [hg.rank_eq z hzr]
        by_cases hpr : f.parent z = r
        · have hup := h.rank_lt z hz
          have hgrown := hg.rank_le
          rw [hpr] at hup ⊢
          omega
        · rw [hg.rank_eq _ hpr]
          exact h.rank_lt z hz
  refine ⟨valid, valid.root_unique ?_ ?_⟩
  · intro z hz
    rw [hg.parent_eq] at hz
    by_cases hzs : z = s
    · rw [if_pos hzs] at hz
      exact absurd (hz.trans hzs) hrs
    · rw [if_neg hzs] at hz
      rw [root_of_parent_eq hz, if_neg hzs]
  · intro z _
    rw [hg.parent_eq]
    by_cases hzs : z = s
    · rw [if_pos hzs, hzs, hs, if_pos rfl, hr, if_neg hrs]
    · rw [if_neg hzs, h.root_parent]

namespace Valid
variable {f : Forest}

theorem hangs_raiseRank (h : f.Valid) {r s : Nat} (hr : r < f.size) (hs : s < f.size)
    (hrank : f.rank s = f.rank r) : f.Hangs ((f.setParent s r).raiseRank r) r s := by
  have hlt : r < (f.setParent s r).ranks.size := by
    show r < f.ranks.size
    rw [h.size_ranks]
    exact hr
  have hraised : ∀ z, ((f.setParent s r).raiseRank r).rank z =
      if z = r then f.rank r + 1 else f.rank z := rank_raiseRank hlt
  refine ⟨by simp [raiseRank, setParent], by simp, parent_setParent hs r, ?_, ?_, ?_⟩
  · intro z hz
    rw [hraised, if_neg hz]
  · rw [hraised, if_pos rfl]
    omega
  · rw [hraised, if_pos rfl]
    omega

/-- A link hangs the node of lower rank under the other, and the second under the first if their
ranks are equal. -/
theorem link_hangs (h : f.Valid) {r s : Nat} (hr : r < f.size) (hs : s < f.size) :
    f.Hangs (f.link r s) s r ∨ f.Hangs (f.link r s) r s := by
  rw [link]
  by_cases hless : f.rank r < f.rank s
  · rw [if_pos hless]
    exact .inl (hangs_setParent hr hless)
  · rw [if_neg hless]
    by_cases hgreater : f.rank s < f.rank r
    · rw [if_pos hgreater]
      exact .inr (hangs_setParent hs hgreater)
    · rw [if_neg hgreater]
      exact .inr (h.hangs_raiseRank hr hs (by omega))

/-- Of two roots that are linked, one takes over the other's tree, and no other node moves. -/
theorem link_spec (h : f.Valid) {r s : Nat} (hr : f.root r = r) (hs : f.root s = s) (hrs : r ≠ s)
    (hlr : r < f.size) (hls : s < f.size) :
    (f.link r s).Valid ∧ (f.link r s).size = f.size ∧
      ∃ w, (w = r ∨ w = s) ∧
        ∀ z, (f.link r s).root z = if f.root z = r ∨ f.root z = s then w else f.root z := by
  rcases h.link_hangs hlr hls with hg | hg
  · obtain ⟨hv, hroot⟩ := hg.spec h hs hr hrs.symm hls
    refine ⟨hv, hg.size_eq, s, .inr rfl, fun z => ?_⟩
    rw [hroot]
    by_cases hzs : f.root z = s <;> simp [hzs]
  · obtain ⟨hv, hroot⟩ := hg.spec h hr hs hrs hlr
    refine ⟨hv, hg.size_eq, r, .inl rfl, fun z => ?_⟩
    rw [hroot]
    by_cases hzr : f.root z = r <;> simp [hzr]

/-- A union leaves a valid forest with the same nodes, in which two nodes have one root when they
had one before or the pair that was joined connects them. -/
theorem union_spec (h : f.Valid) {a b : Nat} (ha : a < f.size) (hb : b < f.size) :
    (f.union a b).2.Valid ∧ (f.union a b).2.size = f.size ∧
      ∀ x y, (f.union a b).2.root x = (f.union a b).2.root y ↔
        f.root x = f.root y ∨ f.root x = f.root a ∧ f.root y = f.root b ∨
          f.root x = f.root b ∧ f.root y = f.root a := by
  obtain ⟨g, hfind, hg⟩ := h.find_eq ha
  obtain ⟨k, hfind', hk⟩ := hg.valid.find_eq (hg.size_eq ▸ hb)
  have hfk := hg.trans hk
  rw [union, hfind]
  simp only [hfind', hg.root_eq]
  by_cases hab : f.root a = f.root b
  · rw [if_pos hab]
    refine ⟨hfk.valid, hfk.size_eq, ?_⟩
    intro x y
    rw [hfk.root_eq, hfk.root_eq, hab]
    constructor
    · exact .inl
    · rintro (hxy | ⟨hx, hy⟩ | ⟨hx, hy⟩)
      · exact hxy
      · rw [hx, hy]
      · rw [hx, hy]
  · rw [if_neg hab]
    obtain ⟨hv, hsize, w, hw, hroot⟩ := hfk.valid.link_spec (r := f.root a) (s := f.root b)
      (by rw [hfk.root_eq, h.root_root]) (by rw [hfk.root_eq, h.root_root]) hab
      (by rw [hfk.size_eq]; exact h.root_lt ha) (by rw [hfk.size_eq]; exact h.root_lt hb)
    refine ⟨hv, hsize.trans hfk.size_eq, ?_⟩
    intro x y
    rw [hroot, hroot, hfk.root_eq, hfk.root_eq]
    grind

end Valid

end ChainNode.Forest

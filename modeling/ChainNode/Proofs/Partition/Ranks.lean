import ChainNode.Proofs.Partition.Closure
import Mathlib.Algebra.Group.Nat.Defs
import Mathlib.Data.Nat.Log

/-!
# Ranks bound depth

The tree of a root of rank `k` has at least `2 ^ k` nodes (`Forest.Weighted`): a rank grows only when
two trees of the same rank are joined. A search takes nodes away from below other nodes, so nothing of
the kind holds for nodes that are no roots; but it changes neither ranks nor the nodes of a tree.

Ranks grow on the way to a root, so with `n` nodes no way is longer than `Nat.log 2 n`. The two loops
of a search, here without a bound on their rounds (`Loops`), come to an end within as many rounds, and
no rank outgrows a byte (`Forest.ranks_bound_depth`).
-/

namespace ChainNode

/-- A loop is left in a state, after so many rounds. In each state `next` either makes a round or
finds that there is nothing left to do. -/
inductive Loops {σ : Type} (next : σ → Option σ) : σ → Nat → σ → Prop
  | leave {s : σ} (h : next s = none) : Loops next s 0 s
  | round {s s' t : σ} {k : Nat} (h : next s = some s') (rest : Loops next s' k t) :
    Loops next s (k + 1) t

namespace Forest

variable {f g : Forest}

/-- A round of the walk to the root. -/
def climb? (f : Forest) (x : Nat) : Option Nat :=
  if f.parent x = x then none else some (f.parent x)

/-- A round of the second walk, which points what it passes at `r`. -/
def repoint? (r : Nat) : Forest × Nat → Option (Forest × Nat)
  | (f, x) => if f.parent x = r then none else some (f.setParent x r, f.parent x)

/-- The nodes of the tree of a root. -/
def members (f : Forest) (r : Nat) : Finset Nat := {x ∈ Finset.range f.size | f.root x = r}

theorem mem_members {r x : Nat} : x ∈ f.members r ↔ x < f.size ∧ f.root x = r := by
  rw [members, Finset.mem_filter, Finset.mem_range]

theorem card_members_le (f : Forest) (r : Nat) : (f.members r).card ≤ f.size :=
  calc (f.members r).card ≤ (Finset.range f.size).card := Finset.card_filter_le _ _
    _ = f.size := Finset.card_range _

theorem rank_of_size_le (h : f.Valid) {x : Nat} (hx : f.size ≤ x) : f.rank x = 0 := by
  rw [rank, Array.getD_eq_getD_getElem?, Array.getElem?_eq_none (h.size_ranks ▸ hx), Option.getD_none]

/-! ## The weight of trees -/

/-- A valid forest in which the trees of roots are as large as the ranks of the roots demand. -/
structure Weighted (f : Forest) : Prop where
  valid : f.Valid
  two_pow_le : ∀ r < f.size, f.parent r = r → 2 ^ f.rank r ≤ (f.members r).card

theorem weighted_empty : empty.Weighted where
  valid := valid_empty
  two_pow_le _ hr := absurd hr (Nat.not_lt_zero _)

/-- A new node is a tree of its own, of rank 0; the other trees stay. -/
theorem Weighted.make (h : f.Weighted) : f.make.2.Weighted where
  valid := h.valid.make
  two_pow_le r hr hroot := by
    rw [parent_make] at hroot
    rw [rank_make]
    by_cases hlt : r < f.size
    · have hsub : f.members r ⊆ f.make.2.members r := fun x hx => by
        rw [mem_members] at hx ⊢
        rw [size_make, h.valid.root_make]
        exact ⟨Nat.lt_succ_of_lt hx.1, hx.2⟩
      exact (h.two_pow_le r hlt hroot).trans (Finset.card_le_card hsub)
    · have hself : r ∈ f.make.2.members r := by
        rw [mem_members, h.valid.root_make]
        exact ⟨hr, root_of_parent_eq hroot⟩
      rw [rank_of_size_le h.valid (Nat.le_of_not_lt hlt), Nat.pow_zero]
      exact Finset.card_pos.mpr ⟨r, hself⟩

theorem Compressed.members_eq (hg : f.Compressed g) (r : Nat) : g.members r = f.members r := by
  ext x
  rw [mem_members, mem_members, hg.size_eq, hg.root_eq]

/-- A search takes no node out of its tree. -/
theorem Weighted.compressed (h : f.Weighted) (hg : f.Compressed g) : g.Weighted where
  valid := hg.valid
  two_pow_le r hr hroot := by
    have hfix : f.root r = r := by rw [← hg.root_eq, root_of_parent_eq hroot]
    rw [hg.rank_eq, hg.members_eq]
    exact h.two_pow_le r (hg.size_eq ▸ hr) (hfix ▸ h.valid.parent_root r)

/-- A root that takes over a tree has the nodes of both from then on. -/
theorem Hangs.card_members {r s : Nat} (hg : f.Hangs g r s) (h : f.Valid) (hr : f.root r = r)
    (hs : f.root s = s) (hrs : r ≠ s) (hlt : r < f.size) :
    (g.members r).card = (f.members r).card + (f.members s).card := by
  obtain ⟨-, hroot⟩ := hg.spec h hr hs hrs hlt
  have hunion : g.members r = f.members r ∪ f.members s := by
    ext x
    rw [Finset.mem_union, mem_members, mem_members, mem_members, hg.size_eq, hroot]
    split
    case isTrue hx => simp [hx, hrs.symm]
    case isFalse hx => simp [hx]
  have hapart : Disjoint (f.members r) (f.members s) := Finset.disjoint_left.mpr fun x hx hx' =>
    hrs ((mem_members.mp hx).2.symm.trans (mem_members.mp hx').2)
  rw [hunion, Finset.card_union_of_disjoint hapart]

/-- Taking over a tree keeps the weights if the new rank is not too high for the two together. -/
theorem Weighted.hangs {r s : Nat} (h : f.Weighted) (hg : f.Hangs g r s) (hr : f.root r = r)
    (hs : f.root s = s) (hrs : r ≠ s) (hlr : r < f.size) (hls : s < f.size)
    (hrank : 2 ^ g.rank r ≤ 2 ^ f.rank r + 2 ^ f.rank s) : g.Weighted := by
  obtain ⟨hvalid, hroot⟩ := hg.spec h.valid hr hs hrs hlr
  have hweight {t : Nat} (ht : f.root t = t) (hlt : t < f.size) :
      2 ^ f.rank t ≤ (f.members t).card := h.two_pow_le t hlt (ht ▸ h.valid.parent_root t)
  refine ⟨hvalid, fun t ht hparent => ?_⟩
  rw [hg.size_eq] at ht
  by_cases htr : t = r
  · subst htr
    rw [hg.card_members h.valid hr hs hrs hlr]
    exact hrank.trans (Nat.add_le_add (hweight hr hlr) (hweight hs hls))
  · have hts : t ≠ s := by
      rintro rfl
      rw [hg.parent_eq, if_pos rfl] at hparent
      exact hrs hparent
    rw [hg.parent_eq, if_neg hts] at hparent
    have hsub : f.members t ⊆ g.members t := fun x hx => by
      rw [mem_members] at hx ⊢
      rw [hg.size_eq, hroot, if_neg (hx.2 ▸ hts)]
      exact hx
    rw [hg.rank_eq t htr]
    exact (h.two_pow_le t ht hparent).trans (Finset.card_le_card hsub)

/-- Of two ranks the surviving root has the higher one afterwards, or one more if they were equal. -/
theorem Weighted.link {r s : Nat} (h : f.Weighted) (hr : f.root r = r) (hs : f.root s = s)
    (hrs : r ≠ s) (hlr : r < f.size) (hls : s < f.size) : (f.link r s).Weighted := by
  rw [Forest.link]
  by_cases hless : f.rank r < f.rank s
  · rw [if_pos hless]
    refine h.hangs (hangs_setParent hlr hless) hs hr hrs.symm hls hlr ?_
    rw [rank_setParent]
    exact Nat.le_add_right _ _
  · rw [if_neg hless]
    by_cases hgreater : f.rank s < f.rank r
    · rw [if_pos hgreater]
      refine h.hangs (hangs_setParent hls hgreater) hr hs hrs hlr hls ?_
      rw [rank_setParent]
      exact Nat.le_add_right _ _
    · rw [if_neg hgreater]
      have heq : f.rank s = f.rank r := by omega
      refine h.hangs (h.valid.hangs_raiseRank hlr hls heq) hr hs hrs hlr hls ?_
      have hranks : r < (f.setParent s r).ranks.size :=
        (show (f.setParent s r).ranks.size = f.size from h.valid.size_ranks) ▸ hlr
      rw [rank_raiseRank hranks, if_pos rfl, rank_setParent, heq, Nat.pow_succ]
      omega

/-- A union searches twice, and links what it finds unless that is one root. -/
theorem Valid.union_cases (h : f.Valid) {a b : Nat} (ha : a < f.size) (hb : b < f.size) :
    ∃ k, f.Compressed k ∧ (f.union a b).2 =
      if f.root a = f.root b then k else k.link (f.root a) (f.root b) := by
  obtain ⟨g, k, hfirst, hsecond, hk⟩ := h.find_pair ha hb
  refine ⟨k, hk, ?_⟩
  simp only [union, hfirst, hsecond]
  split <;> rfl

theorem Weighted.union (h : f.Weighted) {a b : Nat} (ha : a < f.size) (hb : b < f.size) :
    (f.union a b).2.Weighted := by
  obtain ⟨k, hk, hunion⟩ := h.valid.union_cases ha hb
  have hroots : ∀ x < f.size, k.root (f.root x) = f.root x ∧ f.root x < k.size := fun x hx =>
    ⟨by rw [hk.root_eq, h.valid.root_root], hk.size_eq ▸ h.valid.root_lt hx⟩
  rw [hunion]
  split
  case isTrue => exact h.compressed hk
  case isFalse hne =>
    exact (h.compressed hk).link (hroots a ha).1 (hroots b hb).1 hne (hroots a ha).2 (hroots b hb).2

theorem Weighted.perform (h : f.Weighted) (call : ForestCall) : (f.perform call).2.Weighted := by
  have hperformed := h.valid.performed call
  generalize f.perform call = result at hperformed ⊢
  cases hperformed with
  | failed _ hg | find _ hg | same _ _ hg => exact h.compressed hg
  | make => exact h.make
  | union ha hb => exact h.union ha hb

theorem Valid.size_perform_union (h : f.Valid) (a b : Nat) :
    (f.perform (.union a b)).2.size = f.size := by
  have hperformed := h.performed (.union a b)
  generalize f.perform (.union a b) = result at hperformed ⊢
  cases hperformed with
  | failed _ hg => exact hg.size_eq
  | union ha hb => exact (h.union_spec ha hb).2.1

theorem Weighted.performAll (h : f.Weighted) (calls : List ForestCall) :
    (f.performAll calls).2.Weighted := by
  induction calls generalizing f with
  | nil => exact h
  | cons call rest ih => exact ih (h.perform call)

/-! ## The length of ways -/

/-- No rank is above the logarithm of the number of nodes. -/
theorem Weighted.rank_le_log (h : f.Weighted) (x : Nat) : f.rank x ≤ Nat.log 2 f.size := by
  by_cases hx : x < f.size
  · have hpow : 2 ^ f.rank (f.root x) ≤ f.size :=
      (h.two_pow_le _ (h.valid.root_lt hx) (h.valid.parent_root x)).trans (f.card_members_le _)
    exact (h.valid.rank_le_root x).trans (Nat.le_log_of_pow_le Nat.one_lt_two hpow)
  · rw [rank_of_size_le h.valid (Nat.le_of_not_lt hx)]
    exact Nat.zero_le _

namespace Valid

/-- Each step on the way to a root climbs at least one rank. -/
theorem rank_add_le (h : f.Valid) {k x : Nat} (hx : f.parent (f.parent^[k] x) ≠ f.parent^[k] x) :
    f.rank x + k ≤ f.rank (f.parent^[k] x) := by
  induction k generalizing x with
  | zero => exact Nat.le_refl _
  | succ k ih =>
    rw [Function.iterate_succ_apply] at hx ⊢
    have hne : f.parent x ≠ x := fun he => hx (by rw [he, Function.iterate_fixed he, he])
    have hup := h.rank_lt x hne
    have hrest := ih hx
    omega

/-- A node that comes up again on its way is a root. -/
theorem acyclic (h : f.Valid) {i j x : Nat} (hij : i < j) (heq : f.parent^[i] x = f.parent^[j] x) :
    f.parent (f.parent^[i] x) = f.parent^[i] x := by
  by_contra hne
  obtain ⟨d, rfl⟩ := Nat.exists_eq_add_of_lt hij
  have hback : f.parent^[d + 1] (f.parent^[i] x) = f.parent^[i] x := by
    rw [← Function.iterate_add_apply, Nat.add_comm, ← Nat.add_assoc, ← heq]
  have hclimb := h.rank_add_le (k := d + 1) (x := f.parent^[i] x) (by rwa [hback])
  rw [hback] at hclimb
  omega

/-! ## The loops of a search -/

/-- The first loop climbs to the root, in no more rounds than there are ranks on the way. -/
theorem loops_climb (h : f.Valid) (x : Nat) :
    ∃ k ≤ f.rank (f.root x) - f.rank x, Loops f.climb? x k (f.root x) := by
  induction x using h.induction with
  | root x hx =>
    refine ⟨0, Nat.zero_le _, ?_⟩
    rw [root_of_parent_eq hx]
    exact .leave (if_pos hx)
  | step x hx ih =>
    obtain ⟨k, hk, hloop⟩ := ih
    rw [h.root_parent] at hk hloop
    have hup := h.rank_lt x hx
    have hle := h.rank_le_root (f.parent x)
    rw [h.root_parent] at hle
    exact ⟨k + 1, by omega, .round (if_neg hx) hloop⟩

/-- The second loop ends in no more rounds than there are ranks on the way, with the forest that
`compress` gives when it may make so many. -/
theorem loops_repoint (h : f.Valid) {x r d fuel : Nat} (hx : x < f.size) (hr : f.root x = r)
    (hd : f.rank r - f.rank x ≤ d) (hfuel : d ≤ fuel) :
    ∃ k ≤ d, ∃ y, Loops (repoint? r) (f, x) k (f.compress r fuel x, y) := by
  have hstop {d fuel : Nat} {f : Forest} {x : Nat} (hp : f.parent x = r) :
      ∃ k ≤ d, ∃ y, Loops (repoint? r) (f, x) k (f.compress r fuel x, y) := by
    rw [compress_of_parent_eq hp]
    exact ⟨0, Nat.zero_le _, x, .leave (if_pos hp)⟩
  -- The forest changes with every round, but neither its roots nor its ranks do.
  induction d generalizing f x fuel with
  | zero =>
    refine hstop ?_
    by_cases hxr : f.root x = x
    · rw [← hr, hxr, ← hxr, h.parent_root]
    · have := h.rank_lt_root hxr
      rw [hr] at this
      omega
  | succ d ih =>
    by_cases hp : f.parent x = r
    · exact hstop hp
    · have hup := h.rank_lt x (parent_ne_of_ne_root (hr ▸ hp))
      obtain ⟨hnext, hlt, hroot⟩ := h.compressed_round hx hr
      obtain ⟨fuel, rfl⟩ : ∃ m, fuel = m + 1 := ⟨fuel - 1, by omega⟩
      obtain ⟨k, hk, y, hloop⟩ := ih hnext.valid hlt hroot
        (by rw [hnext.rank_eq, hnext.rank_eq]; omega) (Nat.le_of_succ_le_succ hfuel)
      rw [compress, if_neg hp]
      exact ⟨k + 1, by omega, y, .round (if_neg hp) hloop⟩

end Valid

/-- Both loops of a search end, within the logarithm of the number of nodes, and what they end with is
what the search gives. -/
theorem Weighted.find_loops (h : f.Weighted) {x : Nat} (hx : x < f.size) :
    ∃ g, f.find x = .ok (f.root x, g) ∧
      (∃ k ≤ Nat.log 2 f.size, Loops f.climb? x k (f.root x)) ∧
      ∃ k ≤ Nat.log 2 f.size, ∃ y, Loops (repoint? (f.root x)) (f, x) k (g, y) := by
  refine ⟨f.compress (f.root x) f.size x, by rw [find, if_pos hx], ?_, ?_⟩
  · obtain ⟨k, hk, hloop⟩ := h.valid.loops_climb x
    exact ⟨k, (hk.trans (Nat.sub_le _ _)).trans (h.rank_le_log _), hloop⟩
  · exact h.valid.loops_repoint hx rfl ((Nat.sub_le _ _).trans (h.rank_le_log _))
      (Nat.log_le_self 2 f.size)

/-- **Ranks bound depth.** After any calls on a forest that starts without nodes, when it has `n`
nodes: ranks grow along parents; the tree of a root has at least as many nodes as two to its rank; no
node comes up again above itself; every way ends in a root within `Nat.log 2 n` steps, and so does each
of the two loops of a search; and as long as `n` fits into 64 bits, no union lets a rank reach 64. -/
theorem ranks_bound_depth (calls : List ForestCall) :
    let f := (empty.performAll calls).2
    let n := f.size
    (∀ x, f.parent x ≠ x → f.rank x < f.rank (f.parent x)) ∧
    (∀ r < n, f.parent r = r → 2 ^ f.rank r ≤ (f.members r).card) ∧
    (∀ x i j, i < j → f.parent^[i] x = f.parent^[j] x →
      f.parent (f.parent^[i] x) = f.parent^[i] x) ∧
    (∀ x, f.parent (f.parent^[Nat.log 2 n] x) = f.parent^[Nat.log 2 n] x) ∧
    (∀ x < n, ∃ g, f.find x = .ok (f.root x, g) ∧
      (∃ k ≤ Nat.log 2 n, Loops f.climb? x k (f.root x)) ∧
      ∃ k ≤ Nat.log 2 n, ∃ y, Loops (repoint? (f.root x)) (f, x) k (g, y)) ∧
    (n < 2 ^ 64 → ∀ a b x, (f.perform (.union a b)).2.rank x < 64) := by
  intro f n
  have h : f.Weighted := weighted_empty.performAll calls
  refine ⟨h.valid.rank_lt, h.two_pow_le, fun x i j hij heq => h.valid.acyclic hij heq, fun x => ?_,
    fun x hx => h.find_loops hx, fun hn a b x => ?_⟩
  · by_contra hne
    -- A step more would climb above the highest rank that there can be.
    have hend := h.valid.rank_lt _ hne
    have hclimb := h.valid.rank_add_le hne
    have hmax : _ ≤ Nat.log 2 n := h.rank_le_log (f.parent (f.parent^[Nat.log 2 n] x))
    omega
  · have hafter := (h.perform (.union a b)).rank_le_log x
    rw [h.valid.size_perform_union] at hafter
    exact hafter.trans_lt (Nat.log_lt_of_lt_pow' (by decide) hn)

/-- Eight nodes joined in pairs, the pairs in pairs and those in turn: the root has rank 3, and from
node 7 both loops make as many rounds as the bound allows, or one less. -/
theorem ranks_bound_depth_eight :
    let calls : List ForestCall := List.replicate 8 .make ++
      [.union 0 1, .union 2 3, .union 4 5, .union 6 7, .union 0 2, .union 4 6, .union 0 4]
    let f := (empty.performAll calls).2
    f.size = 8 ∧ f.rank 0 = 3 ∧ f.parent^[2] 7 ≠ 0 ∧ f.parent^[3] 7 = 0 ∧
      2 ^ f.rank 0 ≤ (f.members 0).card ∧
      (∃ g, f.find 7 = .ok (f.root 7, g) ∧
        (∃ k ≤ Nat.log 2 f.size, Loops f.climb? 7 k (f.root 7)) ∧
        ∃ k ≤ Nat.log 2 f.size, ∃ y, Loops (repoint? (f.root 7)) (f, 7) k (g, y)) ∧
      ∀ a b x, (f.perform (.union a b)).2.rank x < 64 := by
  intro calls f
  obtain ⟨-, hweight, -, -, hloops, hbyte⟩ := ranks_bound_depth calls
  have hsize : f.size = 8 := by decide +kernel
  exact ⟨hsize, by decide +kernel, by decide +kernel, by decide +kernel,
    hweight 0 (by decide +kernel) (by decide +kernel), hloops 7 (by decide +kernel),
    hbyte (by decide +kernel)⟩

end Forest

end ChainNode

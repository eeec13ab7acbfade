import ChainNode.Execution.Grouping
import ChainNode.Proofs.Partition.Joins

/-!
# Forests of paths

Participants are joined with the nodes of the paths they declare. Two facts about the forest that
results fix its trees. A participant is in the tree of each of its paths (`PathForest.Holds`), so
participants with a common path are in one tree. And a colour that every participant shares with all
its paths is the same throughout a tree (`PathForest.Coloured`), so nothing else is. What is
recorded of the forest for the grouping is one key for each participant, the root of its node.
-/

namespace ChainNode.Grouping

namespace PathForest

/-- The forest is valid, and the nodes of paths belong to it. -/
structure Valid (pf : PathForest) : Prop where
  forest : pf.forest.Valid
  node_lt : ∀ (p : Path) (n : Nat), pf.nodes[p]? = some n → n < pf.forest.size

/-- A later stage of a forest: nodes stay, and what was joined stays joined. -/
structure Extends (pf pg : PathForest) : Prop where
  valid : pg.Valid
  size_le : pf.forest.size ≤ pg.forest.size
  nodes : ∀ (p : Path) (n : Nat), pf.nodes[p]? = some n → pg.nodes[p]? = some n
  root : ∀ x y, pf.forest.root x = pf.forest.root y → pg.forest.root x = pg.forest.root y

/-- A node is in the tree of a path. -/
def Holds (pf : PathForest) (x : Nat) (p : Path) : Prop :=
  ∃ n, pf.nodes[p]? = some n ∧ pf.forest.root x = pf.forest.root n

/-- A colouring of the nodes by which each tree has one colour and the node of a path has the colour
of the path. -/
structure Coloured {κ : Type} (pf : PathForest) (ofPath : Path → κ) (colour : Nat → κ) : Prop where
  tree : ∀ x y, pf.forest.root x = pf.forest.root y → colour x = colour y
  node : ∀ (p : Path) (n : Nat), pf.nodes[p]? = some n → colour n = ofPath p

/-- Colourings that agree on the nodes of a forest. -/
def AgreeBelow {κ : Type} (n : Nat) (colour colour' : Nat → κ) : Prop :=
  ∀ x < n, colour' x = colour x

theorem valid_empty : empty.Valid where
  forest := Forest.valid_empty
  node_lt p n h := by simp [empty] at h

namespace Extends

theorem refl {pf : PathForest} (h : pf.Valid) : pf.Extends pf :=
  ⟨h, Nat.le_refl _, fun _ _ hn => hn, fun _ _ hr => hr⟩

theorem trans {pf pg pk : PathForest} (h : pf.Extends pg) (h' : pg.Extends pk) : pf.Extends pk where
  valid := h'.valid
  size_le := Nat.le_trans h.size_le h'.size_le
  nodes p n hn := h'.nodes p n (h.nodes p n hn)
  root x y hr := h'.root x y (h.root x y hr)

/-- A node stays in the tree of a path. -/
theorem holds {pf pg : PathForest} (h : pf.Extends pg) {x : Nat} {p : Path} (hx : pf.Holds x p) :
    pg.Holds x p := by
  obtain ⟨n, hn, hr⟩ := hx
  exact ⟨n, h.nodes p n hn, h.root x n hr⟩

end Extends

section Coloured
variable {κ : Type} {pf : PathForest} {ofPath : Path → κ} {colour : Nat → κ}

/-- A new node may get any colour. -/
theorem Coloured.make (hv : pf.Valid) (h : pf.Coloured ofPath colour) (k : κ) :
    ∃ colour', Coloured { pf with forest := pf.forest.make.2 } ofPath colour' ∧
      AgreeBelow pf.forest.size colour colour' ∧ colour' pf.forest.size = k := by
  have hold : ∀ x < pf.forest.size, Function.update colour pf.forest.size k x = colour x :=
    fun x hx => Function.update_of_ne (Nat.ne_of_lt hx) _ _
  have hnew : ∀ x, pf.forest.root x = pf.forest.size → x = pf.forest.size := by
    intro x hx
    by_contra hne
    by_cases hlt : x < pf.forest.size
    · exact Nat.lt_irrefl _ (hx ▸ hv.forest.root_lt hlt)
    · rw [Forest.root_of_parent_eq (Forest.parent_of_size_le (Nat.le_of_not_lt hlt))] at hx
      exact hne hx
  refine ⟨Function.update colour pf.forest.size k, ⟨?_, ?_⟩, hold, Function.update_self _ _ _⟩
  · intro x y hr
    rw [hv.forest.root_make, hv.forest.root_make] at hr
    by_cases hx : x = pf.forest.size
    · rw [hx, Forest.root_size] at hr
      rw [hx, hnew y hr.symm]
    by_cases hy : y = pf.forest.size
    · rw [hy, Forest.root_size] at hr
      exact absurd (hnew x hr) hx
    · rw [Function.update_of_ne hx, Function.update_of_ne hy]
      exact h.tree x y hr
  · intro p n hn
    rw [hold n (hv.node_lt p n hn)]
    exact h.node p n hn

end Coloured

theorem Valid.make {pf : PathForest} (h : pf.Valid) :
    pf.Extends { pf with forest := pf.forest.make.2 } where
  valid := by
    refine ⟨h.forest.make, ?_⟩
    intro p n hn
    rw [Forest.size_make]
    exact Nat.lt_succ_of_lt (h.node_lt p n hn)
  size_le := by
    rw [Forest.size_make]
    exact Nat.le_succ _
  nodes _ _ hn := hn
  root x y hr := by rwa [h.forest.root_make, h.forest.root_make]

/-! ## The node of a path -/

section Node
variable {pf : PathForest} (p : Path)

/-- The node of a path is known afterwards, and nothing else changes. -/
theorem Valid.node (h : pf.Valid) :
    pf.Extends (pf.node p).2 ∧ (pf.node p).2.nodes[p]? = some (pf.node p).1 := by
  rw [PathForest.node]
  cases hp : pf.nodes[p]? with
  | some n => exact ⟨.refl h, hp⟩
  | none =>
    have hm := h.make
    refine ⟨⟨⟨hm.valid.forest, ?_⟩, hm.size_le, ?_, hm.root⟩, Std.ExtTreeMap.getElem?_insert_self⟩
    · intro q n hn
      rw [Std.ExtTreeMap.getElem?_insert] at hn
      split at hn
      · rw [← Option.some_inj.mp hn, Forest.fst_make, Forest.size_make]
        exact Nat.lt_succ_self _
      · exact hm.valid.node_lt q n hn
    · intro q n hn
      rw [Std.ExtTreeMap.getElem?_insert]
      split
      · next heq =>
          rw [Std.LawfulEqCmp.eq_of_compare heq, hn] at hp
          cases hp
      · exact hn

/-- Making the node of a path keeps a colouring, with the path's colour for a new node. -/
theorem Coloured.ofNode {κ : Type} {ofPath : Path → κ} {colour : Nat → κ} (hv : pf.Valid)
    (h : pf.Coloured ofPath colour) :
    ∃ colour', (pf.node p).2.Coloured ofPath colour' ∧
      AgreeBelow pf.forest.size colour colour' := by
  rw [PathForest.node]
  cases hp : pf.nodes[p]? with
  | some n => exact ⟨colour, h, fun _ _ => rfl⟩
  | none =>
    obtain ⟨colour', hc, hold, hk⟩ := h.make hv (ofPath p)
    refine ⟨colour', ⟨hc.tree, ?_⟩, hold⟩
    intro q n hn
    rw [Std.ExtTreeMap.getElem?_insert] at hn
    split at hn
    · next heq =>
        rw [← Option.some_inj.mp hn, Forest.fst_make, hk, Std.LawfulEqCmp.eq_of_compare heq]
    · exact hc.node q n hn

end Node

/-! ## Joining a node with paths -/

section Join
variable {pf : PathForest} {x : Nat}

theorem Valid.join (h : pf.Valid) (hx : x < pf.forest.size) (p : Path) :
    pf.Extends (pf.join x p) ∧ (pf.join x p).Holds x p := by
  obtain ⟨hext, hnode⟩ := h.node p
  obtain ⟨hvalid, hsize, hroot⟩ := hext.valid.forest.union_spec (Nat.lt_of_lt_of_le hx hext.size_le)
    (hext.valid.node_lt p _ hnode)
  have hjoin : (pf.node p).2.Extends (pf.join x p) := by
    refine ⟨⟨hvalid, ?_⟩, Nat.le_of_eq hsize.symm, fun _ _ hn => hn, ?_⟩
    · intro q n hn
      exact hsize ▸ hext.valid.node_lt q n hn
    · intro y z hr
      exact (hroot y z).mpr (.inl hr)
  exact ⟨hext.trans hjoin, (pf.node p).1, hnode, (hroot _ _).mpr (.inr (.inl ⟨rfl, rfl⟩))⟩

/-- Joining a node with a path of its colour keeps a colouring. -/
theorem Coloured.join {κ : Type} {ofPath : Path → κ} {colour : Nat → κ} (hv : pf.Valid)
    (h : pf.Coloured ofPath colour) (hx : x < pf.forest.size) {p : Path}
    (hp : colour x = ofPath p) :
    ∃ colour', (pf.join x p).Coloured ofPath colour' ∧
      AgreeBelow pf.forest.size colour colour' := by
  obtain ⟨hext, hnode⟩ := hv.node p
  obtain ⟨colour', hc, hold⟩ := h.ofNode p hv
  obtain ⟨_, _, hroot⟩ := hext.valid.forest.union_spec (Nat.lt_of_lt_of_le hx hext.size_le)
    (hext.valid.node_lt p _ hnode)
  have hsame : colour' x = colour' (pf.node p).1 := by
    rw [hold x hx, hp, hc.node p _ hnode]
  refine ⟨colour', ⟨?_, hc.node⟩, hold⟩
  intro y z hr
  rcases (hroot y z).mp hr with hyz | ⟨hy, hz⟩ | ⟨hy, hz⟩
  · exact hc.tree y z hyz
  · rw [hc.tree _ _ hy, hc.tree _ _ hz, hsame]
  · rw [hc.tree _ _ hy, hc.tree _ _ hz, hsame]

theorem Valid.joinAll (h : pf.Valid) (hx : x < pf.forest.size) (paths : List Path) :
    pf.Extends (paths.foldl (fun pf p => pf.join x p) pf) ∧
      ∀ p ∈ paths, (paths.foldl (fun pf p => pf.join x p) pf).Holds x p := by
  induction paths generalizing pf with
  | nil => exact ⟨.refl h, fun _ hp => absurd hp List.not_mem_nil⟩
  | cons p paths ih =>
    obtain ⟨hext, hp⟩ := h.join hx p
    obtain ⟨hrest, hall⟩ := ih hext.valid (Nat.lt_of_lt_of_le hx hext.size_le)
    refine ⟨hext.trans hrest, ?_⟩
    intro q hq
    rcases List.mem_cons.mp hq with rfl | hq
    · exact hrest.holds hp
    · exact hall q hq

theorem Coloured.joinAll {κ : Type} {ofPath : Path → κ} {colour : Nat → κ} (hv : pf.Valid)
    (h : pf.Coloured ofPath colour) (hx : x < pf.forest.size) (paths : List Path)
    (hp : ∀ p ∈ paths, ofPath p = colour x) :
    ∃ colour', (paths.foldl (fun pf p => pf.join x p) pf).Coloured ofPath colour' ∧
      AgreeBelow pf.forest.size colour colour' := by
  induction paths generalizing pf colour with
  | nil => exact ⟨colour, h, fun _ _ => rfl⟩
  | cons p paths ih =>
    obtain ⟨hext, _⟩ := hv.join hx p
    obtain ⟨colour₁, hc₁, hold₁⟩ := h.join hv hx (hp p List.mem_cons_self).symm
    obtain ⟨colour₂, hc₂, hold₂⟩ := ih hext.valid hc₁ (Nat.lt_of_lt_of_le hx hext.size_le)
      (fun q hq => by rw [hold₁ x hx, hp q (List.mem_cons_of_mem p hq)])
    refine ⟨colour₂, hc₂, ?_⟩
    intro y hy
    rw [hold₂ y (Nat.lt_of_lt_of_le hy hext.size_le), hold₁ y hy]

end Join

/-! ## Participants -/

section Add
variable {pf : PathForest}

theorem Valid.add (h : pf.Valid) (paths : List Path) :
    pf.Extends (pf.add paths).2 ∧ (pf.add paths).1 < (pf.add paths).2.forest.size ∧
      ∀ p ∈ paths, (pf.add paths).2.Holds (pf.add paths).1 p := by
  have hm := h.make
  have hx : pf.forest.make.1 < pf.forest.make.2.size := by
    rw [Forest.fst_make, Forest.size_make]
    exact Nat.lt_succ_self _
  obtain ⟨hall, hholds⟩ := hm.valid.joinAll hx paths
  exact ⟨hm.trans hall, Nat.lt_of_lt_of_le hx hall.size_le, hholds⟩

/-- A new participant may get the colour that all its paths have. -/
theorem Coloured.add {κ : Type} {ofPath : Path → κ} {colour : Nat → κ} (hv : pf.Valid)
    (h : pf.Coloured ofPath colour) {paths : List Path} {k : κ} (hk : ∀ p ∈ paths, ofPath p = k) :
    ∃ colour', (pf.add paths).2.Coloured ofPath colour' ∧
      AgreeBelow pf.forest.size colour colour' ∧ colour' (pf.add paths).1 = k := by
  have hx : pf.forest.size < pf.forest.make.2.size := by
    rw [Forest.size_make]
    exact Nat.lt_succ_self _
  obtain ⟨colour₁, hc₁, hold₁, hk₁⟩ := h.make hv k
  obtain ⟨colour₂, hc₂, hold₂⟩ := hc₁.joinAll hv.make.valid (x := pf.forest.size) hx paths
    (fun p hp => by rw [hk₁, hk p hp])
  refine ⟨colour₂, hc₂, ?_, ?_⟩
  · intro y hy
    rw [hold₂ y (Nat.lt_trans hy hx), hold₁ y hy]
  · rw [← hk₁]
    exact hold₂ _ hx

/-- Each participant gets a node in the tree of each of its paths. -/
theorem Valid.addAll (h : pf.Valid) (pathLists : List (List Path)) :
    pf.Extends (pf.addAll pathLists).2 ∧
      List.Forall₂ (fun x paths => x < (pf.addAll pathLists).2.forest.size ∧
        ∀ p ∈ paths, (pf.addAll pathLists).2.Holds x p) (pf.addAll pathLists).1 pathLists := by
  induction pathLists generalizing pf with
  | nil => exact ⟨.refl h, .nil⟩
  | cons paths rest ih =>
    obtain ⟨hext, hx, hholds⟩ := h.add paths
    obtain ⟨hrest, hall⟩ := ih hext.valid
    exact ⟨hext.trans hrest,
      .cons ⟨Nat.lt_of_lt_of_le hx hrest.size_le, fun p hp => hrest.holds (hholds p hp)⟩ hall⟩

/-- Each participant gets the colour that all its paths have. -/
theorem Coloured.addAll {κ : Type} {ofPath : Path → κ} {colour : Nat → κ} (hv : pf.Valid)
    (h : pf.Coloured ofPath colour) {pathLists : List (List Path)} {colours : List κ}
    (hk : List.Forall₂ (fun k paths => ∀ p ∈ paths, ofPath p = k) colours pathLists) :
    ∃ colour', (pf.addAll pathLists).2.Coloured ofPath colour' ∧
      AgreeBelow pf.forest.size colour colour' ∧
      (pf.addAll pathLists).1.map colour' = colours := by
  induction hk generalizing pf colour with
  | nil => exact ⟨colour, h, fun _ _ => rfl, rfl⟩
  | @cons k paths colours rest hk _ ih =>
    obtain ⟨hext, hx, _⟩ := hv.add paths
    obtain ⟨colour₁, hc₁, hold₁, hk₁⟩ := h.add hv hk
    obtain ⟨colour₂, hc₂, hold₂, hmap⟩ := ih hext.valid hc₁
    refine ⟨colour₂, hc₂, ?_, ?_⟩
    · intro y hy
      rw [hold₂ y (Nat.lt_of_lt_of_le hy hext.size_le), hold₁ y hy]
    · show colour₂ (pf.add paths).1 :: ((pf.add paths).2.addAll rest).1.map colour₂ = k :: colours
      rw [hold₂ _ hx, hk₁, hmap]

end Add

end PathForest

end ChainNode.Grouping

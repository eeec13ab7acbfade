import ChainNode.Proofs.Execution.Buckets
import ChainNode.Proofs.Execution.PathForest
import Mathlib.Logic.Relation

/-!
# Groups are components

Two participants share a path when both declare it, and they are linked when a chain of sharing
participants leads from one to the other. The key that a participant gets from the forest of paths
tells exactly this: keys are equal for linked participants and for no others
(`Grouping.key_eq_iff_linked`). Items with equal keys make up one group, so groups are the classes of
linked participants. Participants are told apart by position, since one item may occur twice.
-/

namespace ChainNode

/-- A path is among those that are read or written. -/
def Footprint.Declares (f : Footprint) (p : Path) : Prop := p ∈ f.reads ∨ p ∈ f.writes

theorem Footprint.mem_paths {f : Footprint} {p : Path} : p ∈ f.paths ↔ f.Declares p := by
  simp only [paths, Declares, List.mem_append, Std.ExtTreeSet.mem_toList,
    Std.ExtTreeSet.mem_filter, exists_prop, Std.ExtTreeSet.get_eq, Bool.not_eq_true',
    ← Bool.not_eq_true, Std.ExtTreeSet.contains_iff_mem]
  by_cases h : p ∈ f.writes <;> simp [h]

namespace Grouping
variable {α β : Type}

/-- The footprints at two positions declare a common path. -/
def Shares (footprints : List Footprint) (i j : Nat) : Prop :=
  ∃ f g p, footprints[i]? = some f ∧ footprints[j]? = some g ∧ f.Declares p ∧ g.Declares p

/-- A finite chain of footprints, each sharing a path with the next, leads from one position to
another. -/
def Linked (footprints : List Footprint) : Nat → Nat → Prop :=
  Relation.ReflTransGen (Shares footprints)

/-! ## Keys -/

/-- The key of each participant: the root of its node. -/
def keys (pathLists : List (List Path)) : List Nat :=
  roots (PathForest.empty.addAll pathLists).2.forest (PathForest.empty.addAll pathLists).1

theorem roots_eq_map {f : Forest} (h : f.Valid) {xs : List Nat} (hxs : ∀ x ∈ xs, x < f.size) :
    roots f xs = xs.map f.root := by
  induction xs generalizing f with
  | nil => rfl
  | cons x xs ih =>
    obtain ⟨g, hfind, hg⟩ := h.find_eq (hxs x List.mem_cons_self)
    rw [roots, hfind]
    simp only [List.map_cons]
    rw [ih hg.valid fun y hy => by rw [hg.size_eq]; exact hxs y (List.mem_cons_of_mem x hy),
      funext hg.root_eq]

theorem keys_eq_map (pathLists : List (List Path)) :
    keys pathLists = (PathForest.empty.addAll pathLists).1.map
      (PathForest.empty.addAll pathLists).2.forest.root := by
  obtain ⟨hext, hall⟩ := PathForest.valid_empty.addAll pathLists
  apply roots_eq_map hext.valid.forest
  intro x hx
  obtain ⟨i, hi, rfl⟩ := List.mem_iff_getElem.mp hx
  exact (hall.get hi (hall.length_eq ▸ hi)).1

@[simp] theorem length_keys (pathLists : List (List Path)) :
    (keys pathLists).length = pathLists.length := by
  rw [keys_eq_map, List.length_map]
  exact (PathForest.valid_empty.addAll pathLists).2.length_eq

/-- Participants with a common path have one key. -/
theorem getElem?_keys_of_mem {pathLists : List (List Path)} {i j : Nat} {P Q : List Path} {p : Path}
    (hi : pathLists[i]? = some P) (hj : pathLists[j]? = some Q) (hp : p ∈ P) (hq : p ∈ Q) :
    (keys pathLists)[i]? = (keys pathLists)[j]? := by
  obtain ⟨_, hall⟩ := PathForest.valid_empty.addAll pathLists
  have node : ∀ {k : Nat} {R : List Path}, pathLists[k]? = some R → p ∈ R →
      ∃ x, (PathForest.empty.addAll pathLists).1[k]? = some x ∧
        (PathForest.empty.addAll pathLists).2.Holds x p := by
    intro k R hk hR
    obtain ⟨hlt, rfl⟩ := List.getElem?_eq_some_iff.mp hk
    have hlt' : k < (PathForest.empty.addAll pathLists).1.length := hall.length_eq ▸ hlt
    exact ⟨_, List.getElem?_eq_getElem hlt', (hall.get hlt' hlt).2 p hR⟩
  obtain ⟨x, hx, n, hn, hxn⟩ := node hi hp
  obtain ⟨y, hy, n', hn', hyn⟩ := node hj hq
  rw [hn] at hn'
  cases hn'
  rw [keys_eq_map, List.getElem?_map, List.getElem?_map, hx, hy, Option.map_some, Option.map_some,
    hxn, hyn]

/-- A path is declared by a participant with a key. -/
def DeclaredUnder (pathLists : List (List Path)) (k : Nat) (p : Path) : Prop :=
  ∃ (i : Nat) (paths : List Path),
    pathLists[i]? = some paths ∧ (keys pathLists)[i]? = some k ∧ p ∈ paths

/-- No path is declared under two keys. -/
theorem DeclaredUnder.unique {pathLists : List (List Path)} {k k' : Nat} {p : Path}
    (h : DeclaredUnder pathLists k p) (h' : DeclaredUnder pathLists k' p) : k = k' := by
  obtain ⟨i, P, hi, hk, hp⟩ := h
  obtain ⟨j, Q, hj, hk', hq⟩ := h'
  rw [getElem?_keys_of_mem hi hj hp hq, hk'] at hk
  exact (Option.some.inj hk).symm

theorem DeclaredUnder.mem_keys {pathLists : List (List Path)} {k : Nat} {p : Path}
    (h : DeclaredUnder pathLists k p) : k ∈ keys pathLists := by
  obtain ⟨_, _, _, hk, _⟩ := h
  exact List.mem_of_getElem? hk

/-- Every path that is declared is declared under a key. -/
theorem exists_declaredUnder {pathLists : List (List Path)} {paths : List Path} {p : Path}
    (hpaths : paths ∈ pathLists) (hp : p ∈ paths) : ∃ k, DeclaredUnder pathLists k p := by
  obtain ⟨i, hi, rfl⟩ := List.mem_iff_getElem.mp hpaths
  have hlt : i < (keys pathLists).length := by
    rw [length_keys]
    exact hi
  exact ⟨_, i, _, List.getElem?_eq_getElem hi, List.getElem?_eq_getElem hlt, hp⟩

/-- A colour that each participant shares with all its paths is the same wherever the key is. -/
theorem getElem?_colours_of_keys {κ : Type} {ofPath : Path → κ} {colours : List κ}
    {pathLists : List (List Path)}
    (hk : List.Forall₂ (fun k paths => ∀ p ∈ paths, ofPath p = k) colours pathLists) {i j : Nat}
    (h : (keys pathLists)[i]? = (keys pathLists)[j]?) : colours[i]? = colours[j]? := by
  cases colours with
  | nil => rfl
  | cons k₀ rest =>
    have start : PathForest.empty.Coloured ofPath fun _ => k₀ :=
      ⟨fun _ _ _ => rfl, fun p n hn => by simp [PathForest.empty] at hn⟩
    obtain ⟨colour, hc, _, hmap⟩ := start.addAll PathForest.valid_empty hk
    rw [keys_eq_map, List.getElem?_map, List.getElem?_map] at h
    rw [← hmap, List.getElem?_map, List.getElem?_map]
    cases hx : (PathForest.empty.addAll pathLists).1[i]? with
    | none =>
      rw [hx] at h
      rw [Option.map_eq_none_iff.mp h.symm]
    | some x =>
      rw [hx, Option.map_some] at h
      obtain ⟨y, hy, hr⟩ := Option.map_eq_some_iff.mp h.symm
      rw [hy, Option.map_some, Option.map_some, hc.tree x y hr.symm]

/-- Positions with one key are linked: the participants that one of them is linked to, and their
paths, make up whole trees. -/
theorem linked_of_key_eq {footprints : List Footprint} {i j : Nat} (hi : i < footprints.length)
    (h : (keys (footprints.map Footprint.paths))[i]? = (keys (footprints.map Footprint.paths))[j]?) :
    Linked footprints i j := by
  -- Colour a participant, and each of its paths, by whether `i` is linked to it.
  let ofPath (p : Path) : Prop := ∃ k g, footprints[k]? = some g ∧ g.Declares p ∧ Linked footprints i k
  let colours : List Prop := (List.range footprints.length).map fun k => Linked footprints i k
  have hcolours : List.Forall₂ (fun k paths => ∀ p ∈ paths, ofPath p = k) colours
      (footprints.map Footprint.paths) := by
    rw [List.forall₂_iff_get]
    refine ⟨by simp [colours], ?_⟩
    intro k hk hk' p hp
    rw [List.length_map] at hk'
    simp only [List.get_eq_getElem, List.getElem_map] at hp
    simp only [colours, List.get_eq_getElem, List.getElem_map, List.getElem_range, eq_iff_iff]
    have hpk := Footprint.mem_paths.mp hp
    constructor
    · rintro ⟨l, g, hl, hg, hlink⟩
      exact hlink.tail ⟨g, _, p, hl, List.getElem?_eq_getElem hk', hg, hpk⟩
    · intro hlink
      exact ⟨k, _, List.getElem?_eq_getElem hk', hpk, hlink⟩
  have hij := getElem?_colours_of_keys hcolours h
  rw [List.getElem?_map, List.getElem?_map, List.getElem?_range hi] at hij
  obtain ⟨k, hk, hlink⟩ := Option.map_eq_some_iff.mp hij.symm
  obtain ⟨_, rfl⟩ := List.getElem?_eq_some_iff.mp hk
  rw [List.getElem_range] at hlink
  rw [hlink]
  exact Relation.ReflTransGen.refl

/-- Along a chain of shared paths the key stays the same. -/
theorem key_eq_of_linked {footprints : List Footprint} {i j : Nat} (h : Linked footprints i j) :
    (keys (footprints.map Footprint.paths))[i]? = (keys (footprints.map Footprint.paths))[j]? := by
  induction h with
  | refl => rfl
  | tail _ hshare ih =>
    obtain ⟨f, g, p, hf, hg, hpf, hpg⟩ := hshare
    rw [ih]
    apply getElem?_keys_of_mem (P := f.paths) (Q := g.paths) (p := p)
    · rw [List.getElem?_map, hf, Option.map_some]
    · rw [List.getElem?_map, hg, Option.map_some]
    · exact Footprint.mem_paths.mpr hpf
    · exact Footprint.mem_paths.mpr hpg

/-- **Keys tell components.** Two positions have one key exactly when they are linked. -/
theorem key_eq_iff_linked {footprints : List Footprint} {i j : Nat} (hi : i < footprints.length) :
    (keys (footprints.map Footprint.paths))[i]? = (keys (footprints.map Footprint.paths))[j]? ↔
      Linked footprints i j :=
  ⟨linked_of_key_eq hi, key_eq_of_linked⟩

/-! ## Groups -/

/-- Each participant with its key. -/
def keyed (participants : List (α × List Path)) : List (Nat × α) :=
  (keys (participants.map Prod.snd)).zip (participants.map Prod.fst)

@[simp] theorem fst_keyed (participants : List (α × List Path)) :
    (keyed participants).map Prod.fst = keys (participants.map Prod.snd) := by
  rw [keyed, List.map_fst_zip]
  simp

@[simp] theorem snd_keyed (participants : List (α × List Path)) :
    (keyed participants).map Prod.snd = participants.map Prod.fst := by
  rw [keyed, List.map_snd_zip]
  simp

/-- An item with a key declares all its paths under this key. -/
theorem exists_of_mem_keyed {participants : List (α × List Path)} {k : Nat} {a : α}
    (h : (k, a) ∈ keyed participants) :
    ∃ paths, (a, paths) ∈ participants ∧
      ∀ p ∈ paths, DeclaredUnder (participants.map Prod.snd) k p := by
  obtain ⟨i, hi⟩ := List.mem_iff_getElem?.mp h
  obtain ⟨hk, ha⟩ := List.getElem?_zip_eq_some.mp hi
  rw [List.getElem?_map, Option.map_eq_some_iff] at ha
  obtain ⟨⟨_, paths⟩, hx, rfl⟩ := ha
  refine ⟨paths, List.mem_of_getElem? hx, fun p hp => ⟨i, paths, ?_, hk, hp⟩⟩
  rw [List.getElem?_map, hx, Option.map_some]

/-- Keys look at the paths alone. -/
theorem keyed_map (f : α → β) (participants : List (α × List Path)) :
    keyed (participants.map (Prod.map f id)) = (keyed participants).map (Prod.map id f) := by
  rw [keyed, keyed, ← List.zip_map_right, List.map_map, List.map_map, List.map_map]
  rfl

/-- A group for each key, in the order in which keys first occur. -/
theorem groupByPaths_eq (participants : List (α × List Path)) :
    groupByPaths participants =
      (keys (participants.map Prod.snd)).eraseDups.map (bucket (keyed participants)) := by
  show (bucketize (keyed participants)).map Prod.snd = _
  rw [bucketize_eq, List.map_map, fst_keyed]
  rfl

/-- Grouping looks at the paths alone. -/
theorem groupByPaths_map (f : α → β) (participants : List (α × List Path)) :
    groupByPaths (participants.map (Prod.map f id)) =
      (groupByPaths participants).map (List.map f) := by
  have hsnd : (participants.map (Prod.map f id)).map Prod.snd = participants.map Prod.snd := by
    rw [List.map_map]
    rfl
  rw [groupByPaths_eq, groupByPaths_eq, hsnd, keyed_map, List.map_map]
  apply List.map_congr_left
  intro k _
  exact bucket_map f _ k

/-- Every participant is in exactly one place of the groups. -/
theorem flatten_groupByPaths_perm (participants : List (α × List Path)) :
    (groupByPaths participants).flatten.Perm (participants.map Prod.fst) := by
  rw [groupByPaths_eq, ← List.flatMap_def, ← snd_keyed]
  apply flatMap_bucket_perm (nodup_eraseDups _)
  intro x hx
  rw [List.mem_eraseDups, ← fst_keyed]
  exact List.mem_map_of_mem hx

/-- Two items are in one group when they have one key. -/
theorem mem_group_iff {participants : List (α × List Path)} {a b : α} :
    (∃ g ∈ groupByPaths participants, a ∈ g ∧ b ∈ g) ↔
      ∃ k, (k, a) ∈ keyed participants ∧ (k, b) ∈ keyed participants := by
  rw [groupByPaths_eq]
  constructor
  · rintro ⟨g, hg, ha, hb⟩
    obtain ⟨k, _, rfl⟩ := List.mem_map.mp hg
    exact ⟨k, mem_bucket.mp ha, mem_bucket.mp hb⟩
  · rintro ⟨k, ha, hb⟩
    refine ⟨bucket (keyed participants) k, ?_, mem_bucket.mpr ha, mem_bucket.mpr hb⟩
    apply List.mem_map_of_mem
    rw [List.mem_eraseDups, ← fst_keyed]
    exact List.mem_map_of_mem ha

/-- The groups of footprints, each given by the positions of its members. -/
def groupPositions (footprints : List Footprint) : List (List Nat) :=
  groupByPaths (footprints.zipIdx.map fun (f, i) => (i, f.paths))

section Positions
variable (footprints : List Footprint)

theorem fst_zipIdx : (footprints.zipIdx.map fun (f, i) => (i, f.paths)).map Prod.fst =
    List.range footprints.length := by
  rw [List.map_map, List.range_eq_range', ← List.zipIdx_map_snd]
  rfl

theorem snd_zipIdx : (footprints.zipIdx.map fun (f, i) => (i, f.paths)).map Prod.snd =
    footprints.map Footprint.paths := by
  rw [List.map_map]
  conv_rhs => rw [← List.zipIdx_map_fst 0 footprints, List.map_map]
  rfl

/-- A position has the key at that position. -/
theorem mem_keyed_positions {k i : Nat} :
    (k, i) ∈ keyed (footprints.zipIdx.map fun (f, i) => (i, f.paths)) ↔
      (keys (footprints.map Footprint.paths))[i]? = some k := by
  rw [keyed, fst_zipIdx, snd_zipIdx, List.mem_iff_getElem?]
  simp only [List.getElem?_zip_eq_some]
  constructor
  · rintro ⟨j, hk, hj⟩
    obtain ⟨_, rfl⟩ := List.getElem?_eq_some_iff.mp hj
    rwa [List.getElem_range]
  · intro hk
    refine ⟨i, hk, List.getElem?_range ?_⟩
    simpa using (List.getElem?_eq_some_iff.mp hk).1

/-- The groups that two positions with one key are in are one group. -/
theorem groupPositions_unique {g g' : List Nat} {i j : Nat} (hg : g ∈ groupPositions footprints)
    (hg' : g' ∈ groupPositions footprints) (hi : i ∈ g) (hj : j ∈ g')
    (h : (keys (footprints.map Footprint.paths))[i]? = (keys (footprints.map Footprint.paths))[j]?) :
    g = g' := by
  rw [groupPositions, groupByPaths_eq] at hg hg'
  obtain ⟨k, _, rfl⟩ := List.mem_map.mp hg
  obtain ⟨k', _, rfl⟩ := List.mem_map.mp hg'
  rw [mem_bucket, mem_keyed_positions] at hi hj
  rw [hi, hj, Option.some_inj] at h
  rw [h]

end Positions

/-- Items are grouped as their positions are. -/
theorem groupByPaths_eq_groupPositions (participants : List (α × Footprint)) :
    (groupByPaths (participants.map fun (a, f) => (a, f.paths))).map (List.map some) =
      (groupPositions (participants.map Prod.snd)).map
        (List.map fun i => (participants.map Prod.fst)[i]?) := by
  rw [groupPositions, ← groupByPaths_map, ← groupByPaths_map, List.map_map, List.map_map]
  congr 1
  apply List.ext_getElem?
  intro i
  simp only [List.getElem?_map, List.getElem?_zipIdx]
  cases h : participants[i]? with
  | none => rfl
  | some x => simp [h]

/-- **Groups are the components of path sharing.** Each position is in exactly one group, two
positions are in the same group exactly when they are linked, and no path is declared in two groups;
whatever the items are, they are grouped by their positions. -/
theorem groups_eq_components (participants : List (α × Footprint)) :
    let footprints := participants.map Prod.snd
    let groups := groupPositions footprints
    (groupByPaths (participants.map fun (a, f) => (a, f.paths))).map (List.map some) =
        groups.map (List.map fun i => (participants.map Prod.fst)[i]?) ∧
      groups.flatten.Perm (List.range participants.length) ∧
      (∀ i j : Fin participants.length,
        (∃ g ∈ groups, i.1 ∈ g ∧ j.1 ∈ g) ↔ Linked footprints i j) ∧
      ∀ g ∈ groups, ∀ g' ∈ groups, ∀ i ∈ g, ∀ j ∈ g', Shares footprints i j → g = g' := by
  intro footprints groups
  have hlen : footprints.length = participants.length := List.length_map _
  refine ⟨groupByPaths_eq_groupPositions participants, ?_, ?_, ?_⟩
  · rw [← hlen, ← fst_zipIdx]
    exact flatten_groupByPaths_perm _
  · intro i j
    have hi : i.1 < footprints.length := by
      rw [hlen]
      exact i.2
    have hj : j.1 < (keys (footprints.map Footprint.paths)).length := by
      rw [length_keys, List.length_map, hlen]
      exact j.2
    rw [← key_eq_iff_linked hi]
    simp only [groups, groupPositions, mem_group_iff, mem_keyed_positions]
    constructor
    · rintro ⟨k, hk, hk'⟩
      rw [hk, hk']
    · intro h
      exact ⟨_, h.trans (List.getElem?_eq_getElem hj), List.getElem?_eq_getElem hj⟩
  · intro g hg g' hg' i hi j hj hshare
    have hlt : i < footprints.length := by
      obtain ⟨f, _, _, hf, _⟩ := hshare
      exact (List.getElem?_eq_some_iff.mp hf).1
    apply groupPositions_unique footprints hg hg' hi hj
    exact key_eq_of_linked (Relation.ReflTransGen.single hshare)

end Grouping

end ChainNode

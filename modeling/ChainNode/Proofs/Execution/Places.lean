import ChainNode.Proofs.Execution.Routing

/-!
# The place of each transaction

Transactions are grouped as their positions are, whatever the order in which their footprints arrive
(`Grouping.Limits.gathered_eq`). A position has one place, which depends on its own footprint alone, and
in each list positions stand in the order of input. Groups are never empty, and the order of their
first positions is the order of the groups.
-/

namespace ChainNode

namespace Grouping
variable {α : Type}

/-! ## Order -/

/-- Items picked from a list keep their order. -/
theorem filterMap_sublist_fst {pick : α × Option Footprint → Option α}
    (hpick : ∀ x a, pick x = some a → a = x.1) (items : List (α × Option Footprint)) :
    (items.filterMap pick).Sublist (items.map Prod.fst) := by
  induction items with
  | nil => exact List.Sublist.refl _
  | cons x rest ih =>
    rw [List.filterMap_cons, List.map_cons]
    cases h : pick x with
    | none => exact ih.cons _
    | some a => exact hpick x a h ▸ ih.cons_cons _

theorem placed_sublist (items : List (α × Option Footprint)) :
    (ofFootprints items).sequential.Sublist (items.map Prod.fst) ∧
      (ofFootprints items).withoutContract.Sublist (items.map Prod.fst) ∧
      ((participants items).map Prod.fst).Sublist (items.map Prod.fst) := by
  rw [participants, List.map_filterMap]
  refine ⟨filterMap_sublist_fst ?_ items, filterMap_sublist_fst ?_ items,
    filterMap_sublist_fst ?_ items⟩
  all_goals
    rintro ⟨b, footprint⟩ a h
    dsimp only at h
    cases hroute : route footprint <;> rw [hroute] at h <;> cases h
    rfl

theorem bucket_sublist (items : List (Nat × α)) (k : Nat) :
    (bucket items k).Sublist (items.map Prod.snd) :=
  List.filter_sublist.map _

theorem bucket_ne_nil {items : List (Nat × α)} {k : Nat} (hk : k ∈ items.map Prod.fst) :
    bucket items k ≠ [] := by
  obtain ⟨⟨_, a⟩, hx, rfl⟩ := List.mem_map.mp hk
  exact List.ne_nil_of_mem (mem_bucket.mpr hx)

/-- The first item of a bucket stays when items are added. -/
theorem head?_bucket_concat {items : List (Nat × α)} {k : Nat} (hk : k ∈ items.map Prod.fst)
    (x : Nat × α) : (bucket (items ++ [x]) k).head? = (bucket items k).head? := by
  rw [bucket_concat]
  split
  · obtain ⟨a, rest, h⟩ := List.exists_cons_of_ne_nil (bucket_ne_nil hk)
    rw [h]
    rfl
  · rfl

/-- Buckets stand in the order of their first items. -/
theorem pairwise_bucket {r : α → α → Prop} {items : List (Nat × α)}
    (h : (items.map Prod.snd).Pairwise r) :
    ((items.map Prod.fst).eraseDups.map (bucket items)).Pairwise fun g g' =>
      ∀ a ∈ g.head?, ∀ b ∈ g'.head?, r a b := by
  induction items using List.reverseRecOn with
  | nil => exact List.Pairwise.nil
  | append_singleton items x ih =>
    rw [List.map_append, List.pairwise_append] at h
    obtain ⟨hitems, -, hlast⟩ := h
    have hold := List.pairwise_map.mp (ih hitems)
    have hhead {k : Nat} (hk : k ∈ (items.map Prod.fst).eraseDups) :=
      head?_bucket_concat (List.mem_eraseDups.mp hk) x
    have hkeep : (items.map Prod.fst).eraseDups.Pairwise fun k k' =>
        ∀ a ∈ (bucket (items ++ [x]) k).head?, ∀ b ∈ (bucket (items ++ [x]) k').head?, r a b := by
      apply hold.imp_of_mem
      intro k k' hk hk' hr
      rwa [hhead hk, hhead hk']
    rw [List.pairwise_map, List.map_append, List.map_singleton, eraseDups_concat]
    by_cases hnew : x.1 ∈ items.map Prod.fst
    · rw [if_pos hnew]
      exact hkeep
    · -- The new bucket holds the last item alone.
      rw [if_neg hnew]
      refine List.pairwise_append.mpr ⟨hkeep, List.pairwise_singleton _ _, ?_⟩
      intro k hk k' hk' a ha b hb
      rw [List.mem_singleton.mp hk', bucket_concat, if_pos rfl, bucket_eq_nil hnew] at hb
      cases hb
      rw [hhead hk] at ha
      exact hlast a ((bucket_sublist items k).subset (List.mem_of_mem_head? ha)) x.2
        (List.mem_singleton_self _)

/-- Groups stand in the order of their first items. -/
theorem pairwise_groupByPaths {r : α → α → Prop} {participants : List (α × List Path)}
    (h : (participants.map Prod.fst).Pairwise r) :
    (groupByPaths participants).Pairwise fun g g' => ∀ a ∈ g.head?, ∀ b ∈ g'.head?, r a b := by
  rw [groupByPaths_eq, ← fst_keyed]
  apply pairwise_bucket
  rwa [snd_keyed]

/-- A group keeps the order of its items, of which there is one. -/
theorem sublist_of_mem_groupByPaths {participants : List (α × List Path)} {g : List α}
    (hg : g ∈ groupByPaths participants) : g ≠ [] ∧ g.Sublist (participants.map Prod.fst) := by
  rw [groupByPaths_eq, ← fst_keyed] at hg
  obtain ⟨k, hk, rfl⟩ := List.mem_map.mp hg
  exact ⟨bucket_ne_nil (List.mem_eraseDups.mp hk), snd_keyed participants ▸ bucket_sublist _ k⟩

/-! ## Routes -/

/-- Those run alone about which nothing is known, those that are not to run beside others, and those
that declare no write. -/
theorem route_eq_sequential_iff {footprint : Option Footprint} :
    route footprint = .sequential ↔ footprint = none ∨ ∃ f, footprint = some f ∧
      (f.parallelism = .nonParallelizable ∨
        f.parallelism = .parallelizable ∧ f.writes.isEmpty = true) := by
  cases footprint with
  | none => simp [route]
  | some f => cases hp : f.parallelism <;> simp [route, hp]

theorem route_eq_withoutContract_iff {footprint : Option Footprint} :
    route footprint = .withoutContract ↔
      ∃ f, footprint = some f ∧ f.parallelism = .withoutContract := by
  cases footprint with
  | none => simp [route]
  | some f => cases hp : f.parallelism <;> simp [route, hp]; split <;> simp

theorem mem_placed_iff {items : List (α × Option Footprint)} {a : α} :
    (a ∈ (ofFootprints items).sequential ↔
        ∃ footprint, (a, footprint) ∈ items ∧ route footprint = .sequential) ∧
      (a ∈ (ofFootprints items).withoutContract ↔
        ∃ footprint, (a, footprint) ∈ items ∧ route footprint = .withoutContract) := by
  simp only [ofFootprints, List.mem_filterMap, Prod.exists]
  refine ⟨⟨?_, ?_⟩, ?_, ?_⟩
  · rintro ⟨b, footprint, hmem, hpick⟩
    cases hroute : route footprint <;> rw [hroute] at hpick <;> cases hpick
    exact ⟨footprint, hmem, hroute⟩
  · rintro ⟨footprint, hmem, hroute⟩
    exact ⟨a, footprint, hmem, by rw [hroute]⟩
  · rintro ⟨b, footprint, hmem, hpick⟩
    cases hroute : route footprint <;> rw [hroute] at hpick <;> cases hpick
    exact ⟨footprint, hmem, hroute⟩
  · rintro ⟨footprint, hmem, hroute⟩
    exact ⟨a, footprint, hmem, by rw [hroute]⟩

theorem mem_groups_iff {items : List (α × Option Footprint)} {a : α} :
    a ∈ (ofFootprints items).groups.flatten ↔ ∃ paths, (a, paths) ∈ participants items := by
  rw [ofFootprints, (flatten_groupByPaths_perm _).mem_iff, List.mem_map]
  constructor
  · rintro ⟨⟨_, paths⟩, hmem, rfl⟩
    exact ⟨paths, hmem⟩
  · rintro ⟨paths, hmem⟩
    exact ⟨_, hmem, rfl⟩

/-! ## What is known of a position -/

/-- The footprint that becomes known of the item at a position. -/
def Limits.known (limits : Limits) (i : Nat) (e : Extraction) : Option Footprint :=
  if i < limits.maxItems then e.resolved limits.timeout else none

theorem Limits.getElem?_footprints (limits : Limits) (items : List (α × Extraction)) (i : Nat) :
    (limits.footprints items)[i]? = items[i]?.map fun x => (x.1, limits.known i x.2) := by
  rw [footprints, List.getElem?_append, List.length_map, List.length_take]
  by_cases hi : i < items.length
  · by_cases hcap : i < limits.maxItems
    · rw [if_pos (Nat.lt_min.mpr ⟨hcap, hi⟩), List.getElem?_map, List.getElem?_take_of_lt hcap]
      simp only [known, if_pos hcap]
    · have hle := Nat.not_lt.mp hcap
      rw [if_neg fun h => hcap (Nat.lt_min.mp h).1, List.getElem?_map, List.getElem?_drop,
        Nat.min_eq_left (hle.trans hi.le), Nat.add_sub_cancel' hle]
      simp only [known, if_neg hcap]
  · have hlen : items.length ≤ i := Nat.not_lt.mp hi
    rw [if_neg fun h => hi (Nat.lt_min.mp h).2, List.getElem?_map, List.getElem?_eq_none hlen,
      List.getElem?_eq_none (by simp; omega)]
    rfl

theorem Limits.known_eq_some_iff {limits : Limits} {i : Nat} {e : Extraction} {f : Footprint} :
    limits.known i e = some f ↔
      i < limits.maxItems ∧ e.delay.millis ≤ limits.timeout.millis ∧ e.answer = some f := by
  rw [known, Extraction.resolved]
  by_cases hcap : i < limits.maxItems
  · by_cases htime : e.delay.millis ≤ limits.timeout.millis <;> simp [hcap, htime]
  · simp [hcap]

theorem Limits.known_eq_none_iff {limits : Limits} {i : Nat} {e : Extraction} :
    limits.known i e = none ↔
      limits.maxItems ≤ i ∨ limits.timeout.millis < e.delay.millis ∨ e.answer = none := by
  rw [known, Extraction.resolved]
  by_cases hcap : i < limits.maxItems
  · by_cases htime : e.delay.millis ≤ limits.timeout.millis
    · simp [hcap, htime, Nat.not_le.mpr hcap, Nat.not_lt.mpr htime]
    · simp [htime, Nat.not_le.mp htime]
  · simp [hcap, Nat.not_lt.mp hcap]

/-- Which items run alone. -/
theorem Limits.route_known_eq_sequential_iff {limits : Limits} {i : Nat} {e : Extraction} :
    route (limits.known i e) = .sequential ↔
      limits.maxItems ≤ i ∨ limits.timeout.millis < e.delay.millis ∨ e.answer = none ∨
        ∃ f, e.answer = some f ∧ (f.parallelism = .nonParallelizable ∨
          f.parallelism = .parallelizable ∧ f.writes.isEmpty = true) := by
  simp only [route_eq_sequential_iff, known_eq_none_iff, known_eq_some_iff]
  constructor
  · rintro ((h | h | h) | ⟨f, ⟨-, -, ha⟩, hf⟩)
    · exact .inl h
    · exact .inr (.inl h)
    · exact .inr (.inr (.inl h))
    · exact .inr (.inr (.inr ⟨f, ha, hf⟩))
  · rintro (h | h | h | ⟨f, ha, hf⟩)
    · exact .inl (.inl h)
    · exact .inl (.inr (.inl h))
    · exact .inl (.inr (.inr h))
    · cases Nat.lt_or_ge i limits.maxItems with
      | inr hcap => exact .inl (.inl hcap)
      | inl hcap =>
        cases Nat.lt_or_ge limits.timeout.millis e.delay.millis with
        | inl htime => exact .inl (.inr (.inl htime))
        | inr htime => exact .inr ⟨f, ⟨hcap, htime, ha⟩, hf⟩

/-! ## Places -/

/-- The positions of extractions, each with its extraction. -/
def positions (asked : List Extraction) : List (Nat × Extraction) :=
  asked.zipIdx.map Prod.swap

/-- Every position has the place that its extraction calls for, in the order of input. -/
structure Routed (limits : Limits) (asked : List Extraction) (places : Grouping Nat) : Prop where
  /-- Each position is in one place. -/
  placed : (places.sequential ++ places.withoutContract ++ places.groups.flatten).Perm
    (List.range asked.length)
  /-- Alone runs what is past the cap, what was not found out or not in time, what is not to run
  beside others, and what declares no write. -/
  mem_sequential : ∀ {i e}, asked[i]? = some e → (i ∈ places.sequential ↔
    limits.maxItems ≤ i ∨ limits.timeout.millis < e.delay.millis ∨ e.answer = none ∨
      ∃ f, e.answer = some f ∧ (f.parallelism = .nonParallelizable ∨
        f.parallelism = .parallelizable ∧ f.writes.isEmpty = true))
  /-- What has no contract does not run. -/
  mem_withoutContract : ∀ {i e}, asked[i]? = some e → (i ∈ places.withoutContract ↔
    i < limits.maxItems ∧ e.delay.millis ≤ limits.timeout.millis ∧
      ∃ f, e.answer = some f ∧ f.parallelism = .withoutContract)
  /-- Groups are formed of all others. -/
  mem_groups : ∀ {i e}, asked[i]? = some e → ((∃ g ∈ places.groups, i ∈ g) ↔
    i < limits.maxItems ∧ e.delay.millis ≤ limits.timeout.millis ∧
      ∃ f, e.answer = some f ∧ f.parallelism = .parallelizable ∧ f.writes.isEmpty = false)
  sequential_sorted : places.sequential.Pairwise (· < ·)
  withoutContract_sorted : places.withoutContract.Pairwise (· < ·)
  group_sorted : ∀ g ∈ places.groups, g ≠ [] ∧ g.Pairwise (· < ·)
  /-- Groups stand in the order of their first positions. -/
  groups_sorted : places.groups.Pairwise fun g g' => ∀ i ∈ g.head?, ∀ j ∈ g'.head?, i < j

section Positions
variable {limits : Limits} {asked : List Extraction}

theorem getElem?_positions (i : Nat) : (positions asked)[i]? = asked[i]?.map fun e => (i, e) := by
  rw [positions, List.getElem?_map, List.getElem?_zipIdx, Option.map_map, Nat.zero_add]
  rfl

theorem fst_positions : (positions asked).map Prod.fst = List.range asked.length := by
  rw [positions, List.map_map, List.range_eq_range', ← List.zipIdx_map_snd]
  rfl

theorem snd_positions : (positions asked).map Prod.snd = asked := by
  conv_rhs => rw [← List.zipIdx_map_fst 0 asked]
  rw [positions, List.map_map]
  rfl

/-- Of a position exactly that is known which becomes known of its extraction. -/
theorem mem_footprints_positions {i : Nat} {e : Extraction} (he : asked[i]? = some e)
    {footprint : Option Footprint} :
    (i, footprint) ∈ limits.footprints (positions asked) ↔ limits.known i e = footprint := by
  simp only [List.mem_iff_getElem?, Limits.getElem?_footprints, getElem?_positions, Option.map_map,
    Option.map_eq_some_iff, Function.comp_apply, Prod.mk.injEq]
  constructor
  · rintro ⟨_, e', he', rfl, hknown⟩
    rw [he] at he'
    cases he'
    exact hknown
  · intro hknown
    exact ⟨i, e, he, rfl, hknown⟩

/-- Positions are routed by what is known of them. -/
theorem routed_footprints (limits : Limits) (asked : List Extraction) :
    Routed limits asked (ofFootprints (limits.footprints (positions asked))) := by
  have hfst : (limits.footprints (positions asked)).map Prod.fst = List.range asked.length := by
    rw [Limits.fst_footprints, fst_positions]
  obtain ⟨hsequential, hwithoutContract, hparticipants⟩ :=
    placed_sublist (limits.footprints (positions asked))
  rw [hfst] at hsequential hwithoutContract hparticipants
  have hsorted : (List.range asked.length).Pairwise (· < ·) := List.pairwise_lt_range
  refine {
    placed := ?placed
    mem_sequential := ?sequential
    mem_withoutContract := ?withoutContract
    mem_groups := ?groups
    sequential_sorted := hsorted.sublist hsequential
    withoutContract_sorted := hsorted.sublist hwithoutContract
    group_sorted := ?group
    groups_sorted := pairwise_groupByPaths (hsorted.sublist hparticipants) }
  case placed =>
    rw [← hfst]
    refine List.Perm.trans ?_ (placed_perm _)
    rw [List.append_assoc, List.append_assoc]
    exact (List.perm_append_comm.trans ((flatten_groupByPaths_perm _).append_right _)).append_left _
  case sequential =>
    intro i e he
    simp only [mem_placed_iff.1, mem_footprints_positions he, exists_eq_left',
      Limits.route_known_eq_sequential_iff]
  case withoutContract =>
    intro i e he
    simp only [mem_placed_iff.2, mem_footprints_positions he, exists_eq_left',
      route_eq_withoutContract_iff, Limits.known_eq_some_iff, and_assoc, exists_and_left]
  case groups =>
    intro i e he
    rw [← List.mem_flatten, mem_groups_iff]
    simp only [mem_participants_iff, mem_footprints_positions he, Limits.known_eq_some_iff]
    constructor
    · rintro ⟨_, f, ⟨hcap, htime, ha⟩, hp, hw, rfl⟩
      exact ⟨hcap, htime, f, ha, hp, hw⟩
    · rintro ⟨hcap, htime, f, ha, hp, hw⟩
      exact ⟨_, f, ⟨hcap, htime, ha⟩, hp, hw, rfl⟩
  case group =>
    intro g hg
    obtain ⟨hne, hsub⟩ := sublist_of_mem_groupByPaths hg
    exact ⟨hne, hsorted.sublist (hsub.trans hparticipants)⟩

end Positions

end Grouping

open Grouping

/-- **Transactions are grouped as their positions are.** In whatever order the extractions end that
end in time, every position has the place that its own extraction calls for, and what is run is what
stands at the positions. -/
theorem groupTransactions_places (limits : Limits) (extract : Extractor) (parent : Tip)
    (transactions : List Transaction) {arrivals : List Nat} :
    let asked := transactions.zipIdx.map fun (tx, i) => extract parent i tx
    let places := ofFootprints (limits.gathered (positions asked) arrivals)
    limits.AllArrived (asked.take limits.maxItems) arrivals →
      (groupTransactions limits extract parent transactions).map some =
          places.map (transactions[·]?) ∧
        Routed limits asked places := by
  intro asked places harrived
  have hplaces : places = ofFootprints (limits.footprints (positions asked)) := by
    have htake : ((positions asked).take limits.maxItems).map Prod.snd =
        asked.take limits.maxItems := by
      rw [List.map_take, snd_positions]
    rw [← Limits.gathered_eq (htake ▸ harrived)]
  refine ⟨?_, hplaces ▸ routed_footprints limits asked⟩
  -- Both sides group the same list of transactions with what is found out of them.
  rw [hplaces, groupTransactions, ofExtractions_eq, ← ofFootprints_map, ← ofFootprints_map,
    ← Limits.footprints_map, ← Limits.footprints_map]
  congr 2
  apply List.ext_getElem?
  intro i
  simp only [List.getElem?_map, getElem?_positions, asked, List.getElem?_zipIdx, Nat.zero_add]
  cases h : transactions[i]? with
  | none => rfl
  | some tx =>
    simp only [Option.map_some, Prod.map, id, h]

/-- The same transaction stands at both ends. The third is found out too late, the fifth is past the
cap, and the first is found out last. -/
theorem groupTransactions_places_five :
    let transactions : List Transaction := [⟨"a", "b", 0, "", []⟩, ⟨"x", "y", 0, "", []⟩,
      ⟨"c", "d", 0, "", []⟩, ⟨"b", "e", 0, "", []⟩, ⟨"a", "b", 0, "", []⟩]
    let extract : Extractor := fun _ i tx =>
      ⟨⟨[9, 3, 11, 5, 1].getD i 0⟩, some ⟨if i = 1 then .withoutContract else .parallelizable, ∅,
        {⟨[tx.sender]⟩, ⟨[tx.contract]⟩}⟩⟩
    let limits : Limits := ⟨⟨10⟩, 4⟩
    let asked := transactions.zipIdx.map fun (tx, i) => extract default i tx
    let places := ofFootprints (limits.gathered (positions asked) [3, 0, 1])
    limits.AllArrived (asked.take limits.maxItems) [3, 0, 1] ∧
      limits.arrivals (asked.take limits.maxItems) = [1, 3, 0] ∧
      places = ⟨[[0, 3]], [2, 4], [1]⟩ ∧
      (groupTransactions limits extract default transactions).map some =
        places.map (transactions[·]?) ∧ Routed limits asked places := by
  intro transactions extract limits asked places
  have horder : limits.arrivals (asked.take limits.maxItems) = [1, 3, 0] := by decide +kernel
  have harrived : limits.AllArrived (asked.take limits.maxItems) [3, 0, 1] := by
    intro i
    rw [← limits.allArrived_arrivals, horder]
    exact (by decide : [3, 0, 1].Perm [1, 3, 0]).mem_iff
  exact ⟨harrived, horder, by decide +kernel,
    groupTransactions_places limits extract default transactions harrived⟩

end ChainNode

import ChainNode.Execution.Grouped
import ChainNode.Proofs.Execution.Arrivals
import ChainNode.Proofs.Execution.Components

/-!
# Where items go

Splitting items by their footprints gives every item exactly one place (`Grouping.placed_perm`), and
it looks at the footprints alone: items may be tagged, split with their tags and stripped of them
again (`Grouping.ofFootprints_map`). Transactions are therefore told apart by tagging each with its
position in the list that is grouped, since a transaction may occur twice.
-/

namespace ChainNode

namespace Grouping
variable {α β : Type}

/-- A grouping of other items, in the same places. -/
def map (f : α → β) (g : Grouping α) : Grouping β where
  groups := g.groups.map (List.map f)
  sequential := g.sequential.map f
  withoutContract := g.withoutContract.map f

/-! ## Tags do not matter -/

/-- Picking by footprint commutes with a change of the items. -/
theorem filterMap_prodMap {γ δ : Type} {f : α → β} {g : γ → δ}
    {pick : α × Option Footprint → Option γ} {pick' : β × Option Footprint → Option δ}
    (h : ∀ a footprint, pick' (f a, footprint) = (pick (a, footprint)).map g)
    (items : List (α × Option Footprint)) :
    (items.map (Prod.map f id)).filterMap pick' = (items.filterMap pick).map g := by
  rw [List.filterMap_map, List.map_filterMap]
  congr 1
  funext ⟨a, footprint⟩
  exact h a footprint

theorem participants_map (f : α → β) (items : List (α × Option Footprint)) :
    participants (items.map (Prod.map f id)) = (participants items).map (Prod.map f id) := by
  apply filterMap_prodMap
  intro a footprint
  dsimp only
  cases route footprint <;> rfl

theorem ofFootprints_map (f : α → β) (items : List (α × Option Footprint)) :
    ofFootprints (items.map (Prod.map f id)) = (ofFootprints items).map f := by
  simp only [ofFootprints, map, Grouping.mk.injEq]
  refine ⟨?_, ?_, ?_⟩
  · rw [participants_map, groupByPaths_map]
  · apply filterMap_prodMap
    intro a footprint
    dsimp only
    cases route footprint <;> rfl
  · apply filterMap_prodMap
    intro a footprint
    dsimp only
    cases route footprint <;> rfl

theorem Limits.footprints_map (limits : Limits) (f : α → β) (items : List (α × Extraction)) :
    limits.footprints (items.map (Prod.map f id)) =
      (limits.footprints items).map (Prod.map f id) := by
  simp only [footprints, ← List.map_take, ← List.map_drop, List.map_append, List.map_map]
  rfl

/-- Asking for footprints loses no item. -/
@[simp] theorem Limits.fst_footprints (limits : Limits) (items : List (α × Extraction)) :
    (limits.footprints items).map Prod.fst = items.map Prod.fst := by
  conv_rhs => rw [← List.take_append_drop limits.maxItems items, List.map_append]
  simp only [footprints, List.map_append, List.map_map]
  rfl

/-! ## One place for each item -/

/-- Every item goes to exactly one place. -/
theorem placed_perm (items : List (α × Option Footprint)) :
    ((ofFootprints items).sequential ++ (participants items).map Prod.fst ++
      (ofFootprints items).withoutContract).Perm (items.map Prod.fst) := by
  simp only [ofFootprints, participants]
  induction items with
  | nil => exact List.Perm.refl _
  | cons x items ih =>
    obtain ⟨a, footprint⟩ := x
    simp only [List.filterMap_cons, List.map_cons]
    cases route footprint with
    | grouped paths =>
      simp only [List.map_cons, List.append_assoc, List.cons_append]
      exact List.perm_middle.trans ((List.append_assoc _ _ _ ▸ ih).cons a)
    | sequential => exact ih.cons a
    | withoutContract => exact List.perm_middle.trans (ih.cons a)

/-- Only those join groups that are said to keep to the paths they declare, some write among them. -/
theorem route_eq_grouped_iff {footprint : Option Footprint} {paths : List Path} :
    route footprint = .grouped paths ↔ ∃ f, footprint = some f ∧ f.parallelism = .parallelizable ∧
      f.writes.isEmpty = false ∧ f.paths = paths := by
  constructor
  · intro h
    cases footprint with
    | none => cases h
    | some f =>
      simp only [route] at h
      cases hp : f.parallelism with
      | parallelizable =>
        cases hw : f.writes.isEmpty with
        | true => simp only [hp, hw, if_true, reduceCtorEq] at h
        | false =>
          simp only [hp, hw, Bool.false_eq_true, if_false, Route.grouped.injEq] at h
          exact ⟨f, rfl, hp, hw, h⟩
      | nonParallelizable => simp only [hp, reduceCtorEq] at h
      | withoutContract => simp only [hp, reduceCtorEq] at h
  · rintro ⟨f, rfl, hp, hw, rfl⟩
    simp only [route, hp, hw, Bool.false_eq_true, if_false]

/-- The participants are the items with such a footprint. -/
theorem mem_participants_iff {items : List (α × Option Footprint)} {a : α} {paths : List Path} :
    (a, paths) ∈ participants items ↔ ∃ f, (a, some f) ∈ items ∧ f.parallelism = .parallelizable ∧
      f.writes.isEmpty = false ∧ f.paths = paths := by
  rw [participants, List.mem_filterMap]
  constructor
  · rintro ⟨⟨b, footprint⟩, hmem, hpick⟩
    dsimp only at hpick
    cases hroute : route footprint with
    | grouped declared =>
      rw [hroute] at hpick
      cases hpick
      obtain ⟨f, rfl, hf⟩ := route_eq_grouped_iff.mp hroute
      exact ⟨f, hmem, hf⟩
    | sequential =>
      rw [hroute] at hpick
      cases hpick
    | withoutContract =>
      rw [hroute] at hpick
      cases hpick
  · rintro ⟨f, hmem, hf⟩
    refine ⟨(a, some f), hmem, ?_⟩
    dsimp only
    rw [route_eq_grouped_iff.mpr ⟨f, rfl, hf⟩]

end Grouping

/-! ## Transactions with their positions -/

/-- What is known of the footprints of transactions, each with its position. -/
def knownFootprints (limits : Grouping.Limits) (extract : Extractor) (parent : Tip)
    (transactions : List Transaction) : List ((Transaction × Nat) × Option Footprint) :=
  limits.footprints (transactions.zipIdx.map fun x => (x, extract parent x.2 x.1))

section Positions
variable (limits : Grouping.Limits) (extract : Extractor) (parent : Tip)
  (transactions : List Transaction)

/-- A footprint is known of a transaction only as the answer that was found for its position. -/
theorem answer_of_mem_knownFootprints {x : Transaction × Nat} {f : Footprint}
    (h : (x, some f) ∈ knownFootprints limits extract parent transactions) :
    (extract parent x.2 x.1).answer = some f := by
  rw [knownFootprints, Grouping.Limits.footprints, List.mem_append, List.mem_map, List.mem_map] at h
  rcases h with ⟨⟨y, e⟩, hmem, hy⟩ | ⟨_, _, hy⟩
  · obtain ⟨_, _, hye⟩ := List.mem_map.mp (List.mem_of_mem_take hmem)
    cases hye
    rw [Prod.mk.injEq] at hy
    obtain ⟨rfl, hresolved⟩ := hy
    rw [Extraction.resolved] at hresolved
    split at hresolved
    · exact hresolved
    · cases hresolved
  · cases hy

/-- Transactions are grouped as they are with their positions. -/
theorem groupTransactions_eq_map : groupTransactions limits extract parent transactions =
    (Grouping.ofFootprints (knownFootprints limits extract parent transactions)).map Prod.fst := by
  rw [groupTransactions, Grouping.ofExtractions_eq, ← Grouping.ofFootprints_map, knownFootprints,
    ← Grouping.Limits.footprints_map, List.map_map]
  rfl

/-- No position is placed twice. -/
theorem nodup_placed : ((Grouping.ofFootprints
      (knownFootprints limits extract parent transactions)).sequential ++
    (Grouping.participants (knownFootprints limits extract parent transactions)).map
      Prod.fst).Nodup := by
  have hall : ((knownFootprints limits extract parent transactions).map Prod.fst).Nodup := by
    rw [knownFootprints, Grouping.Limits.fst_footprints, List.map_map]
    show (transactions.zipIdx.map id).Nodup
    rw [List.map_id]
    apply List.Nodup.of_map Prod.snd
    rw [List.zipIdx_map_snd]
    exact List.nodup_range'
  exact ((Grouping.placed_perm _).nodup_iff.mpr hall).sublist (List.sublist_append_left _ _)

end Positions

end ChainNode

import ChainNode.Execution.Grouping

/-!
# Footprints arrive in any order

Footprints are asked for all at once, and each answer is entered into its own row of a table when it
arrives. So the order of arrival leaves no trace: once all have arrived that end before the time is
up, an item is known by its own answer, if it has one in time and is within the cap
(`Grouping.Limits.gathered_eq`).
-/

namespace ChainNode

/-- The footprint that is known when the time is up. -/
def Extraction.resolved (timeout : Duration) (e : Extraction) : Option Footprint :=
  if e.delay.millis ≤ timeout.millis then e.answer else none

namespace Grouping
variable {α : Type} {limits : Limits} {asked : List Extraction}

/-- What is known of each item's footprint: nothing past the cap or after the timeout. -/
def Limits.footprints (limits : Limits) (items : List (α × Extraction)) :
    List (α × Option Footprint) :=
  (items.take limits.maxItems).map (fun (a, e) => (a, e.resolved limits.timeout))
    ++ (items.drop limits.maxItems).map fun (a, _) => (a, none)

/-- Just the positions of the extractions that end before the time is up are listed. -/
def Limits.AllArrived (limits : Limits) (asked : List Extraction) (arrivals : List Nat) : Prop :=
  ∀ i, i ∈ arrivals ↔ ∃ e, asked[i]? = some e ∧ e.delay.millis ≤ limits.timeout.millis

theorem mem_insertByDelay {x y : Extraction × Nat} {rest : List (Extraction × Nat)} :
    y ∈ insertByDelay x rest ↔ y = x ∨ y ∈ rest := by
  induction rest with
  | nil => simp [insertByDelay]
  | cons z rest ih =>
    rw [insertByDelay]
    split
    · rw [List.mem_cons]
    · rw [List.mem_cons, ih, List.mem_cons, or_left_comm]

theorem mem_foldr_insertByDelay {x : Extraction × Nat} {l : List (Extraction × Nat)} :
    x ∈ l.foldr insertByDelay [] ↔ x ∈ l := by
  induction l with
  | nil => rfl
  | cons y l ih => rw [List.foldr_cons, mem_insertByDelay, ih, List.mem_cons]

/-- All arrive in the order in which they end. -/
theorem Limits.allArrived_arrivals (limits : Limits) (asked : List Extraction) :
    limits.AllArrived asked (limits.arrivals asked) := by
  intro i
  simp only [arrivals, List.mem_map, mem_foldr_insertByDelay, List.mem_filter, decide_eq_true_eq,
    Prod.exists, List.mem_zipIdx_iff_getElem?]
  constructor
  · rintro ⟨e, j, ⟨he, hle⟩, rfl⟩
    exact ⟨e, he, hle⟩
  · rintro ⟨e, he, hle⟩
    exact ⟨e, i, ⟨he, hle⟩, rfl⟩

/-! ## The table -/

theorem length_enter (table : List (Option Footprint)) (i : Nat) :
    (enter asked table i).length = table.length := by
  rw [enter]
  split
  · exact List.length_set
  · rfl

/-- An answer is entered into its own row. -/
theorem getElem?_enter {table : List (Option Footprint)} (hlength : table.length = asked.length)
    (i j : Nat) :
    (enter asked table i)[j]? =
      if i = j then ((asked[j]?.bind Extraction.answer).map some).or table[j]? else table[j]? := by
  rw [enter]
  by_cases hij : i = j
  · subst hij
    rw [if_pos rfl]
    cases h : asked[i]?.bind Extraction.answer with
    | none => rfl
    | some f =>
      obtain ⟨e, he, -⟩ := Option.bind_eq_some_iff.mp h
      have hlt : i < table.length := hlength ▸ (List.getElem?_eq_some_iff.mp he).1
      exact List.getElem?_set_self hlt
  · rw [if_neg hij]
    split
    · exact List.getElem?_set_ne hij
    · rfl

/-- Every answer that has arrived is in its row. -/
theorem getElem?_foldl_enter {table : List (Option Footprint)}
    (hlength : table.length = asked.length) (arrivals : List Nat) (j : Nat) :
    (arrivals.foldl (enter asked) table)[j]? =
      if j ∈ arrivals then ((asked[j]?.bind Extraction.answer).map some).or table[j]?
      else table[j]? := by
  induction arrivals generalizing table with
  | nil => rfl
  | cons i rest ih =>
    rw [List.foldl_cons, ih ((length_enter table i).trans hlength), getElem?_enter hlength]
    by_cases hi : i = j
    · subst hi
      rw [if_pos rfl, if_pos List.mem_cons_self, ← Option.or_assoc, Option.or_self, ite_self]
    · simp only [if_neg hi, List.mem_cons, Ne.symm hi, false_or]

/-- Once all have arrived, a row holds the answer if it came in time. -/
theorem Limits.AllArrived.gather_eq {arrivals : List Nat} (h : limits.AllArrived asked arrivals) :
    gather asked arrivals = asked.map (Extraction.resolved limits.timeout) := by
  apply List.ext_getElem?
  intro j
  rw [gather, getElem?_foldl_enter List.length_replicate, List.getElem?_map, List.getElem?_replicate]
  cases hj : asked[j]? with
  | none =>
    rw [if_neg (Nat.not_lt.mpr (List.getElem?_eq_none_iff.mp hj))]
    exact ite_self none
  | some e =>
    rw [if_pos (List.getElem?_eq_some_iff.mp hj).1, Option.map_some, Extraction.resolved]
    by_cases hle : e.delay.millis ≤ limits.timeout.millis
    · rw [if_pos ((h j).mpr ⟨e, hj, hle⟩), if_pos hle, Option.bind_some]
      cases e.answer <;> rfl
    · rw [if_neg hle, if_neg]
      intro hmem
      obtain ⟨e', he', hle'⟩ := (h j).mp hmem
      rw [hj] at he'
      cases he'
      exact hle hle'

/-! ## Items beside the table -/

theorem inStep_nil (items : List α) : inStep items [] = items.map fun a => (a, none) := by
  induction items with
  | nil => rfl
  | cons a rest ih => rw [inStep, ih, List.map_cons]

/-- Items beside what is known of those within the cap. -/
theorem inStep_resolved (timeout : Duration) (cap : Nat) (items : List (α × Extraction)) :
    inStep (items.map Prod.fst) (((items.take cap).map Prod.snd).map (Extraction.resolved timeout)) =
      Limits.footprints ⟨timeout, cap⟩ items := by
  induction items generalizing cap with
  | nil => simp [inStep, Limits.footprints]
  | cons x rest ih =>
    cases cap with
    | zero =>
      rw [List.take_zero, List.map_nil, List.map_nil, inStep_nil, List.map_map]
      rfl
    | succ cap => exact congrArg _ (ih cap)

/-- **The order of arrival leaves no trace.** Once all have arrived, what is found out of an item is
its own answer, if it came in time. -/
theorem Limits.gathered_eq {items : List (α × Extraction)} {arrivals : List Nat}
    (h : limits.AllArrived ((items.take limits.maxItems).map Prod.snd) arrivals) :
    limits.gathered items arrivals = limits.footprints items := by
  rw [gathered, h.gather_eq]
  exact inStep_resolved limits.timeout limits.maxItems items

theorem ofExtractions_eq (limits : Limits) (items : List (α × Extraction)) :
    ofExtractions limits items = ofFootprints (limits.footprints items) := by
  rw [ofExtractions, Limits.gathered_eq (limits.allArrived_arrivals _)]

end Grouping

end ChainNode

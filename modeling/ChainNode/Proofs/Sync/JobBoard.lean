import ChainNode.Sync.Job
import Mathlib.Data.List.Nodup

/-!
# Jobs in order

A store of jobs is a plain list of jobs: `JobStore.toList` lists them, the oldest first, and each
operation says what it does to the list. This rests on `JobStore.Valid`, that the order and the map
beside it list the same identities.

A board is tidy when only its oldest job has started, and the targets are those of what was last
downloaded for it: one if it has started, none if it has not. Jobs that come, jobs that are taken off
in their turn, and targets that are marked keep a board tidy.
-/

namespace ChainNode

namespace JobStore

/-- The order lists each stored job once, and each is stored under its own identity. -/
structure Valid (s : JobStore) : Prop where
  nodup : s.order.Nodup
  mem_order : ∀ id, id ∈ s.order ↔ id ∈ s.jobs
  id_eq : ∀ (id : Hash) (j : Job), s.jobs[id]? = some j → j.id = id

/-- The jobs, the oldest first. -/
def toList (s : JobStore) : List Job := s.order.filterMap fun id => s.jobs[id]?

variable {s : JobStore} {id : Hash} {j : Job}

theorem valid_empty (capacity : Nat) : (empty capacity).Valid where
  nodup := List.nodup_nil
  mem_order id := by simp [empty]
  id_eq id j h := by simp [empty] at h

@[simp] theorem toList_empty (capacity : Nat) : (empty capacity).toList = [] := rfl

theorem Valid.mem_toList (h : s.Valid) : j ∈ s.toList ↔ s.jobs[j.id]? = some j := by
  simp only [toList, List.mem_filterMap]
  constructor
  · rintro ⟨id, _, hj⟩
    rwa [h.id_eq id j hj]
  · intro hj
    exact ⟨j.id, (h.mem_order _).mpr (Std.ExtTreeMap.mem_iff_isSome_getElem?.mpr (by simp [hj])), hj⟩

theorem Valid.map_id_toList (h : s.Valid) : s.toList.map Job.id = s.order := by
  have key (ids : List Hash) (hids : ∀ id ∈ ids, id ∈ s.jobs) :
      (ids.filterMap fun id => s.jobs[id]?).map Job.id = ids := by
    induction ids with
    | nil => rfl
    | cons id ids ih =>
      have hid : id ∈ s.jobs := hids id List.mem_cons_self
      have hj := Std.ExtTreeMap.getElem?_eq_some_getElem hid
      rw [List.filterMap_cons_some hj, List.map_cons, h.id_eq id _ hj,
        ih fun id' h' => hids id' (List.mem_cons_of_mem _ h')]
  exact key s.order fun id hid => (h.mem_order id).mp hid

/-- A stored job is found in the list by its identity. -/
theorem Valid.getElem?_eq_find? (h : s.Valid) (id : Hash) :
    s.jobs[id]? = s.toList.find? fun j => j.id = id := by
  cases hfind : s.toList.find? fun j => j.id = id with
  | some j =>
    have hid : j.id = id := by simpa using List.find?_some hfind
    rw [← hid]
    exact h.mem_toList.mp (List.mem_of_find?_eq_some hfind)
  | none =>
    cases hj : s.jobs[id]? with
    | none => rfl
    | some j =>
      have hid := h.id_eq id j hj
      have hnot := List.find?_eq_none.mp hfind j (h.mem_toList.mpr (hid ▸ hj))
      exact absurd (decide_eq_true hid) hnot

theorem Valid.mem_jobs_iff (h : s.Valid) (id : Hash) : id ∈ s.jobs ↔ ∃ j ∈ s.toList, j.id = id := by
  rw [← h.mem_order, ← h.map_id_toList, List.mem_map]

/-- The map holds as many jobs as the list. -/
theorem Valid.size_eq (h : s.Valid) : s.size = s.toList.length := by
  have hperm : s.jobs.keys.Perm s.order := by
    rw [List.perm_ext_iff_of_nodup Std.ExtTreeMap.nodup_keys h.nodup]
    intro id
    rw [Std.ExtTreeMap.mem_keys, h.mem_order]
  rw [size, ← Std.ExtTreeMap.length_keys, hperm.length_eq, ← h.map_id_toList, List.length_map]

theorem Valid.size_eq_zero_iff (h : s.Valid) : s.size = 0 ↔ s.toList = [] := by
  rw [h.size_eq, List.length_eq_zero_iff]

/-- The oldest job is the first of the list. -/
theorem Valid.first?_eq (h : s.Valid) : s.first? = s.toList.head? := by
  rw [first?, toList]
  cases horder : s.order with
  | nil => rfl
  | cons id ids =>
    have hid : id ∈ s.jobs := (h.mem_order id).mp (by simp [horder])
    rw [List.filterMap_cons_some (Std.ExtTreeMap.getElem?_eq_some_getElem hid), List.head?_cons,
      List.head?_cons, Option.bind_some, Std.ExtTreeMap.getElem?_eq_some_getElem hid]

/-! ## A job comes -/

theorem add_of_full_or_mem (h : s.capacity ≤ s.size ∨ j.id ∈ s.jobs) : s.add j = (false, s) :=
  if_pos h

theorem Valid.add (h : s.Valid) (j : Job) : (s.add j).2.Valid := by
  by_cases hc : s.capacity ≤ s.size ∨ j.id ∈ s.jobs
  · rwa [add_of_full_or_mem hc]
  · obtain ⟨_, hnew⟩ := not_or.mp hc
    rw [JobStore.add, if_neg hc]
    refine ⟨?_, ?_, ?_⟩
    · rw [List.nodup_append]
      refine ⟨h.nodup, by simp, ?_⟩
      rintro id hid id' hid' rfl
      rw [List.mem_singleton.mp hid'] at hid
      exact hnew ((h.mem_order _).mp hid)
    · intro id
      simp only [List.mem_append, List.mem_singleton, Std.ExtTreeMap.mem_insert, h.mem_order,
        Std.LawfulEqOrd.compare_eq_iff_eq]
      rw [or_comm, eq_comm]
    · intro id j' hj'
      rw [Std.ExtTreeMap.getElem?_insert] at hj'
      split at hj'
      case isTrue he =>
        rw [← Option.some.inj hj', Std.LawfulEqOrd.compare_eq_iff_eq.mp he]
      case isFalse => exact h.id_eq id j' hj'

/-- A job that comes is the last of the list, if it is stored. -/
theorem Valid.toList_add (h : s.Valid) (j : Job) :
    (s.add j).2.toList = if s.capacity ≤ s.size ∨ j.id ∈ s.jobs then s.toList else s.toList ++ [j] := by
  by_cases hc : s.capacity ≤ s.size ∨ j.id ∈ s.jobs
  · rw [add_of_full_or_mem hc, if_pos hc]
  · obtain ⟨_, hnew⟩ := not_or.mp hc
    rw [JobStore.add, if_neg hc, if_neg hc]
    simp only [toList, List.filterMap_append]
    congr 1
    · apply List.filterMap_congr
      intro id hid
      have hne : j.id ≠ id := fun he => hnew (he ▸ (h.mem_order id).mp hid)
      rw [Std.ExtTreeMap.getElem?_insert, if_neg (by simpa using hne)]
    · simp

/-! ## A job is exchanged -/

theorem Valid.update (h : s.Valid) (j : Job) : (s.update j).2.Valid := by
  rw [JobStore.update]
  split
  case isFalse => exact h
  case isTrue hj =>
    refine ⟨h.nodup, ?_, ?_⟩
    · intro id
      simp only [Std.ExtTreeMap.mem_insert, h.mem_order, Std.LawfulEqOrd.compare_eq_iff_eq]
      constructor
      · exact Or.inr
      · rintro (rfl | hid)
        · exact hj
        · exact hid
    · intro id j' hj'
      rw [Std.ExtTreeMap.getElem?_insert] at hj'
      split at hj'
      case isTrue he =>
        rw [← Option.some.inj hj', Std.LawfulEqOrd.compare_eq_iff_eq.mp he]
      case isFalse => exact h.id_eq id j' hj'

/-- A job that is exchanged keeps its place in the list. -/
theorem Valid.toList_update (h : s.Valid) (j : Job) :
    (s.update j).2.toList = s.toList.map fun k => if k.id = j.id then j else k := by
  rw [JobStore.update]
  split
  case isTrue hj =>
    simp only [toList, List.map_filterMap]
    apply List.filterMap_congr
    intro id hid
    rw [Std.ExtTreeMap.getElem?_insert]
    have hk := Std.ExtTreeMap.getElem?_eq_some_getElem ((h.mem_order id).mp hid)
    rw [hk, Option.map_some, h.id_eq id _ hk]
    by_cases he : j.id = id
    · rw [if_pos (by simpa using he), if_pos he.symm]
    · rw [if_neg (by simpa using he), if_neg (Ne.symm he)]
  case isFalse hj =>
    rw [List.map_congr_left, List.map_id]
    intro k hk
    have hne : k.id ≠ j.id := fun he =>
      hj (Std.ExtTreeMap.mem_iff_isSome_getElem?.mpr (by simp [← he, h.mem_toList.mp hk]))
    rw [if_neg hne, id]

/-! ## A job is taken out -/

theorem Valid.remove (h : s.Valid) (id : Hash) : (s.remove id).2.Valid := by
  rw [JobStore.remove]
  split
  case h_1 => exact h
  case h_2 j hj =>
    refine ⟨h.nodup.filter _, ?_, ?_⟩
    · intro id'
      simp only [List.mem_filter, decide_eq_true_eq, h.mem_order, Std.ExtTreeMap.mem_erase,
        ne_eq, Std.LawfulEqOrd.compare_eq_iff_eq]
      rw [and_comm, eq_comm]
    · intro id' j' hj'
      rw [Std.ExtTreeMap.getElem?_erase] at hj'
      split at hj'
      case isTrue => cases hj'
      case isFalse => exact h.id_eq id' j' hj'

/-- The others keep their places when a job is taken out. -/
theorem Valid.toList_remove (h : s.Valid) (id : Hash) :
    (s.remove id).2.toList = s.toList.filter fun k => k.id ≠ id := by
  rw [JobStore.remove]
  split
  case h_1 hj =>
    rw [List.filter_eq_self.mpr]
    intro k hk
    have hne : k.id ≠ id := by
      rintro rfl
      rw [h.mem_toList.mp hk] at hj
      cases hj
    simpa using hne
  case h_2 j hj =>
    simp only [toList, List.filterMap_filter, List.filter_filterMap]
    apply List.filterMap_congr
    intro id' hid'
    have hk := Std.ExtTreeMap.getElem?_eq_some_getElem ((h.mem_order id').mp hid')
    rw [Std.ExtTreeMap.getElem?_erase, hk, Option.filter_some, h.id_eq id' _ hk]
    by_cases he : id' = id
    · simp [he]
    · simp [he, Ne.symm he]

/-! ## The oldest job -/

theorem Valid.toList_eq_cons (h : s.Valid) (hj : s.first? = some j) : s.toList = j :: s.toList.tail := by
  rw [h.first?_eq] at hj
  obtain ⟨rest, hlist⟩ := List.head?_eq_some_iff.mp hj
  rw [hlist, List.tail_cons]

/-- The others have other identities. -/
theorem Valid.id_ne_first (h : s.Valid) (hj : s.first? = some j) {k : Job} (hk : k ∈ s.toList.tail) :
    k.id ≠ j.id := by
  have hnodup : (s.toList.map Job.id).Nodup := h.map_id_toList ▸ h.nodup
  rw [h.toList_eq_cons hj, List.map_cons, List.nodup_cons] at hnodup
  intro he
  exact hnodup.1 (he ▸ List.mem_map_of_mem hk)

/-- Taking out the oldest job leaves the others. -/
theorem Valid.toList_remove_first (h : s.Valid) (hj : s.first? = some j) :
    (s.remove j.id).2.toList = s.toList.tail := by
  rw [h.toList_remove, h.toList_eq_cons hj, List.tail_cons, List.filter_cons_of_neg (by simp),
    List.filter_eq_self.mpr]
  intro k hk
  simpa using h.id_ne_first hj hk

/-- Exchanging the oldest job leaves the others. -/
theorem Valid.toList_update_first (h : s.Valid) (hj : s.first? = some j) {k : Job} (hk : k.id = j.id) :
    (s.update k).2.toList = k :: s.toList.tail := by
  rw [h.toList_update, h.toList_eq_cons hj, List.map_cons, if_pos hk.symm, List.tail_cons,
    List.map_congr_left, List.map_id]
  intro i hi
  rw [if_neg (hk ▸ h.id_ne_first hj hi), id]

/-! ## Only the oldest job has started -/

/-- Only the oldest job has started. -/
structure InOrder (s : JobStore) : Prop where
  valid : s.Valid
  fresh : ∀ j ∈ s.toList.tail, j.started = false

theorem inOrder_empty (capacity : Nat) : (empty capacity).InOrder :=
  ⟨valid_empty capacity, fun j hj => by simp at hj⟩

/-- A job that has started is the oldest. -/
theorem InOrder.first?_of_started (h : s.InOrder) (hj : s.jobs[id]? = some j) (hs : j.started) :
    s.first? = some j := by
  have hmem : j ∈ s.toList := by rwa [h.valid.mem_toList, h.valid.id_eq id j hj]
  rw [h.valid.first?_eq]
  cases hlist : s.toList with
  | nil => simp [hlist] at hmem
  | cons k rest =>
    rcases List.mem_cons.mp (hlist ▸ hmem) with rfl | hrest
    · rfl
    · have := h.fresh j (by simpa [hlist] using hrest)
      simp [hs] at this

theorem InOrder.add (h : s.InOrder) (hj : j.started = false) : (s.add j).2.InOrder := by
  refine ⟨h.valid.add j, ?_⟩
  intro k hk
  rw [h.valid.toList_add] at hk
  split at hk
  case isTrue => exact h.fresh k hk
  case isFalse =>
    cases hold : s.toList with
    | nil => simp [hold] at hk
    | cons first rest =>
      rw [hold, List.cons_append, List.tail_cons, List.mem_append, List.mem_singleton] at hk
      rcases hk with hk | rfl
      · exact h.fresh k (by simpa [hold] using hk)
      · exact hj

/-- A job that has not started and comes is the oldest only where there was none. -/
theorem Valid.first?_add (h : s.Valid) {k : Job} (hk : s.first? = some k) :
    (s.add j).2.first? = some k := by
  rw [(h.add j).first?_eq, h.toList_add]
  rw [h.first?_eq] at hk
  split
  · exact hk
  · rw [List.head?_append, hk, Option.some_or]

theorem Valid.first?_of_first?_add (h : s.Valid) (hj : j.started = false) {k : Job}
    (hs : k.started) (hk : (s.add j).2.first? = some k) : s.first? = some k := by
  rw [(h.add j).first?_eq, h.toList_add] at hk
  rw [h.first?_eq]
  split at hk
  · exact hk
  · rw [List.head?_append] at hk
    cases hold : s.toList.head? with
    | some first => rwa [hold, Option.some_or] at hk
    | none =>
      rw [hold, Option.none_or, List.head?_cons] at hk
      rw [← Option.some.inj hk, hj] at hs
      cases hs

/-- With the oldest job taken out, no job has started. -/
theorem InOrder.remove_first (h : s.InOrder) (hj : s.first? = some j) :
    (s.remove j.id).2.InOrder ∧ ∀ k, (s.remove j.id).2.first? = some k → k.started = false := by
  have hlist := h.valid.toList_remove_first hj
  refine ⟨⟨h.valid.remove j.id, ?_⟩, ?_⟩
  · intro k hk
    rw [hlist] at hk
    exact h.fresh k (List.mem_of_mem_tail hk)
  · intro k hk
    rw [(h.valid.remove j.id).first?_eq, hlist] at hk
    exact h.fresh k (List.mem_of_mem_head? hk)

/-- The oldest job can be exchanged for any with its identity. -/
theorem InOrder.update_first (h : s.InOrder) (hj : s.first? = some j) {k : Job} (hk : k.id = j.id) :
    (s.update k).2.InOrder ∧ (s.update k).2.first? = some k := by
  have hlist := h.valid.toList_update_first hj hk
  refine ⟨⟨h.valid.update k, ?_⟩, ?_⟩
  · intro i hi
    rw [hlist] at hi
    exact h.fresh i hi
  · rw [(h.valid.update k).first?_eq, hlist, List.head?_cons]

end JobStore

namespace JobBoard

variable {b : JobBoard} {j : Job}

/-- The job is offered to the store, unless its deadline is no instant. -/
theorem enqueue_eq (b : JobBoard) (now : Instant) (target : Tip) (batch : Nat) (peer : Option Peer) :
    b.enqueue now target batch peer = match now.plus b.timeout with
      | .error p => (.error p, b)
      | .ok deadline =>
        let (ok, store) := b.store.add (freshJob now deadline target batch peer)
        (.ok (if ok then some target.hash else none), { b with store }) := by
  rw [enqueue]
  cases now.plus b.timeout with
  | error p => rfl
  | ok deadline => simp only; split <;> rename_i hadd <;> rw [hadd] <;> rfl

@[simp] theorem targets_enqueue (now : Instant) (target : Tip) (batch : Nat) (peer : Option Peer) :
    (b.enqueue now target batch peer).2.targets = b.targets := by
  rw [enqueue_eq]
  split <;> rfl

/-- A job that is enqueued has not started; the store stays as it is if its deadline is no instant. -/
theorem store_enqueue (now : Instant) (target : Tip) (batch : Nat) (peer : Option Peer) :
    (b.enqueue now target batch peer).2.store = b.store ∨
      ∃ j : Job, j.started = false ∧
        (b.enqueue now target batch peer).2.store = (b.store.add j).2 := by
  rw [enqueue_eq]
  split
  · exact .inl rfl
  · exact .inr ⟨_, rfl, rfl⟩

/-- The only job is the one that was enqueued on an empty board. -/
theorem toList_enqueue (hv : b.store.Valid) (hsize : b.store.size = 0) {now : Instant} {target : Tip}
    {batch : Nat} {peer : Option Peer} {id : Hash}
    (h : (b.enqueue now target batch peer).1 = .ok (some id)) :
    ∃ j : Job, (b.enqueue now target batch peer).2.store.toList = [j] ∧ j.target = target ∧
      j.peer = peer ∧ j.started = false ∧ j.finished = false := by
  rw [enqueue_eq] at h ⊢
  split at h
  · cases h
  · rename_i deadline _
    let job := freshJob now deadline target batch peer
    have hlist := hv.toList_add job
    refine ⟨job, ?_, rfl, rfl, rfl, rfl⟩
    rw [if_neg, hv.size_eq_zero_iff.mp hsize] at hlist
    · exact hlist
    · intro hfull
      simp only [job] at hfull
      rw [JobStore.add_of_full_or_mem hfull] at h
      cases h

@[simp] theorem store_update (j : Job) : (b.update j).2.store = (b.store.update j).2 := rfl

@[simp] theorem targets_update (j : Job) : (b.update j).2.targets = b.targets := rfl

@[simp] theorem store_remove (id : Hash) : (b.remove id).2.store = (b.store.remove id).2 := by
  rw [remove]
  split <;> rename_i h <;> rw [h]

@[simp] theorem capacity_remove (id : Hash) :
    (b.remove id).2.store.capacity = b.store.capacity := by
  rw [store_remove, JobStore.remove]
  split <;> rfl

@[simp] theorem timeout_remove (id : Hash) : (b.remove id).2.timeout = b.timeout := by
  rw [remove]
  split <;> rfl

/-- The only job is taken off if it is covered. -/
theorem firstWaiting_of_covered (hv : b.store.Valid) (hlist : b.store.toList = [j])
    {heads : Heads} (hle : j.target.height ≤ heads.best.height) :
    b.firstWaiting heads = (none, (b.remove j.id).2) ∧ (b.remove j.id).2.store.size = 0 := by
  have hfirst : b.store.first? = some j := by rw [hv.first?_eq, hlist, List.head?_cons]
  have hrest : (b.remove j.id).2.store.toList = [] := by
    rw [store_remove, hv.toList_remove_first hfirst, hlist, List.tail_cons]
  have hv' : (b.remove j.id).2.store.Valid := store_remove (b := b) j.id ▸ hv.remove j.id
  have hnone : (b.remove j.id).2.store.first? = none := by rw [hv'.first?_eq, hrest, List.head?_nil]
  refine ⟨?_, hv'.size_eq_zero_iff.mpr hrest⟩
  rw [firstWaiting, pruneFirst, hfirst]
  simp only [if_neg (UInt64.not_lt.mpr hle)]
  cases b.store.order.length with
  | zero => rfl
  | succ fuel => rw [pruneFirst, hnone]

/-- The oldest job takes its target along when it is taken off. -/
theorem targets_remove_first (hv : b.store.Valid) (hj : b.store.first? = some j) :
    (b.remove j.id).2.targets = if j.started then b.targets.erase j.current.hash else b.targets := by
  have hmem : b.store.jobs[j.id]? = some j := by
    rw [← hv.mem_toList]
    rw [hv.first?_eq] at hj
    exact List.mem_of_mem_head? hj
  simp [remove, JobStore.remove, hmem]

/-- Only the oldest job has started, and the targets are those of what was last downloaded for it. -/
structure Tidy (b : JobBoard) : Prop where
  inOrder : b.store.InOrder
  mem_targets : ∀ h, h ∈ b.targets ↔ ∃ j, b.store.first? = some j ∧ j.started ∧ j.current.hash = h

theorem tidy_empty (capacity : Nat) (timeout : Duration) : (empty capacity timeout).Tidy where
  inOrder := JobStore.inOrder_empty capacity
  mem_targets h := by simp [empty, JobStore.first?, JobStore.empty]

/-- A job that comes has no target. -/
theorem Tidy.of_add (h : b.Tidy) {b' : JobBoard} (hj : j.started = false)
    (hstore : b'.store = (b.store.add j).2) (htargets : ∀ h, h ∈ b'.targets ↔ h ∈ b.targets) :
    b'.Tidy := by
  refine ⟨hstore ▸ h.inOrder.add hj, ?_⟩
  intro hash
  rw [htargets, h.mem_targets, hstore]
  constructor
  · rintro ⟨k, hk, hs, he⟩
    exact ⟨k, h.inOrder.valid.first?_add hk, hs, he⟩
  · rintro ⟨k, hk, hs, he⟩
    exact ⟨k, h.inOrder.valid.first?_of_first?_add hj hs hk, hs, he⟩

/-- Once the oldest job is off the board there is no target left but for others than its own. -/
theorem tidy_remove_first (h : b.store.InOrder) (hj : b.store.first? = some j)
    (ht : ∀ hash ∈ b.targets, j.started ∧ j.current.hash = hash) : (b.remove j.id).2.Tidy := by
  obtain ⟨horder, hfirst⟩ := h.remove_first hj
  rw [← store_remove] at horder hfirst
  refine ⟨horder, ?_⟩
  intro hash
  constructor
  · intro hmem
    rw [targets_remove_first h.valid hj] at hmem
    split at hmem
    case isTrue hs =>
      obtain ⟨hne, hmem⟩ := Std.ExtTreeMap.mem_erase.mp hmem
      exact absurd (Std.LawfulEqOrd.compare_eq_iff_eq.mpr (ht hash hmem).2) hne
    case isFalse hs => exact absurd (ht hash hmem).1 hs
  · rintro ⟨k, hk, hs, _⟩
    simp [hfirst k hk] at hs

theorem Tidy.remove_first (h : b.Tidy) (hj : b.store.first? = some j) :
    (b.remove j.id).2.Tidy := by
  apply tidy_remove_first h.inOrder hj
  intro hash hmem
  obtain ⟨k, hk, hs, he⟩ := (h.mem_targets hash).mp hmem
  obtain rfl : j = k := Option.some.inj (hj.symm.trans hk)
  exact ⟨hs, he⟩

/-- Covered jobs are taken off in their turn; what is found is the oldest job left. -/
theorem Tidy.pruneFirst (h : b.Tidy) (best : UInt64) (fuel : Nat) :
    (b.pruneFirst best fuel).2.Tidy ∧
      ∀ j, (b.pruneFirst best fuel).1 = some j →
        (b.pruneFirst best fuel).2.store.first? = some j := by
  induction fuel generalizing b with
  | zero => exact ⟨h, nofun⟩
  | succ fuel ih =>
    rw [JobBoard.pruneFirst]
    split
    case h_1 => exact ⟨h, nofun⟩
    case h_2 j hj =>
      split
      case isTrue => exact ⟨h, fun k hk => by rw [← Option.some.inj hk]; exact hj⟩
      case isFalse => exact ih (h.remove_first hj)

end JobBoard

/-- Marking a target neither adds nor removes one. -/
theorem Targets.mem_mark {ts : Targets} {hash : Hash} {attached : Bool} {h : Hash} :
    h ∈ (ts.mark hash attached).2 ↔ h ∈ ts := by
  rw [mark]
  split
  case isTrue hmem =>
    simp only [Std.ExtTreeMap.mem_insert, Std.LawfulEqOrd.compare_eq_iff_eq]
    constructor
    · rintro (rfl | hh)
      · exact hmem
      · exact hh
    · exact Or.inr
  case isFalse => rfl

/-- Taking a target away marks none. -/
theorem Targets.getElem?_of_erase {ts : Targets} {hash h : Hash} {attached : Bool}
    (hh : (ts.erase hash)[h]? = some attached) : ts[h]? = some attached := by
  rw [Std.ExtTreeMap.getElem?_erase] at hh
  split at hh
  · cases hh
  · exact hh

end ChainNode

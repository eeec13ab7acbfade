import ChainNode.Proofs.Execution.Apart
import ChainNode.Proofs.Execution.Routing

/-!
# Accurate footprints

When the transactions that form groups keep to the paths they declare, grouping them changes
nothing: no group is rejected, and every transaction ends as it does when those that must run alone
are followed by all others in the order of input, one after the other. Paths are declared under one
key only, so the groups are apart, and for the paths of one key a replay in the order of input is a
replay of that group.
-/

namespace ChainNode

open Grouping

/-- How transactions ended can be told by their tags when no tag occurs twice. -/
theorem exists_status {α : Type} [DecidableEq α] {tagged : List α} (htagged : tagged.Nodup)
    {f : α → Transaction} {ends : List (Transaction × Status)}
    (h : ends.map Prod.fst = tagged.map f) :
    ∃ status : α → Status, ends = tagged.map fun x => (f x, status x) := by
  induction tagged generalizing ends with
  | nil =>
    rw [List.map_nil, List.map_eq_nil_iff] at h
    exact ⟨fun _ => .mined, h⟩
  | cons x tagged ih =>
    obtain ⟨hx, htagged⟩ := List.nodup_cons.mp htagged
    cases ends with
    | nil => cases h
    | cons e ends =>
      simp only [List.map_cons, List.cons.injEq] at h
      obtain ⟨status, hstatus⟩ := ih htagged h.2
      refine ⟨Function.update status x e.2, ?_⟩
      rw [List.map_cons, Function.update_self, hstatus, ← h.1]
      congr 1
      apply List.map_congr_left
      intro y hy
      rw [Function.update_of_ne (ne_of_mem_of_not_mem hy hx)]

section Participants
variable {execute : Executor Id} {context : BlockContext} {κ : Type}
  {participants : List ((Transaction × κ) × List Path)}

/-! ## Groups that run to their end -/

/-- The run of the group of a key over a view, with nothing to stop it. -/
def keyRun (execute : Executor Id) (context : BlockContext) (view : View)
    (participants : List ((Transaction × κ) × List Path)) (k : Nat) : GroupRun :=
  (executeGroup execute .never context view
    ((bucket (keyed participants) k).map Prod.fst)).run

/-- The runs of all groups over a view, with nothing to stop them. -/
def groupRuns (execute : Executor Id) (context : BlockContext) (view : View)
    (participants : List ((Transaction × κ) × List Path)) : List GroupRun :=
  (groupByPaths participants).map fun group =>
    (executeGroup execute .never context view (group.map Prod.fst)).run

theorem groupRuns_eq (view : View) : groupRuns execute context view participants =
    (keys (participants.map Prod.snd)).eraseDups.map
      (keyRun execute context view participants) := by
  rw [groupRuns, groupByPaths_eq, List.map_map]
  rfl

theorem notStarted_groupRuns (view : View) :
    (groupRuns execute context view participants).flatMap (·.run.notStarted) = [] := by
  rw [groupRuns, List.flatMap_map, List.flatMap_eq_nil_iff]
  intro group _
  rw [(executeGroup_never view _).1]

/-! ## Groups of accurate participants -/

section Accurate
variable (hkeep : ∀ x ∈ participants, KeepsTo execute context x.1.1 (· ∈ x.2))
include hkeep

/-- Accurate participants with a key keep to the paths declared under it. -/
theorem keepsTo_of_mem_keyed {k : Nat} {x : Transaction × κ} (hx : (k, x) ∈ keyed participants) :
    KeepsTo execute context x.1 (DeclaredUnder (participants.map Prod.snd) k) := by
  obtain ⟨paths, hmem, hpaths⟩ := exists_of_mem_keyed hx
  exact (hkeep _ hmem).mono hpaths

/-- A group of accurate participants touches paths declared under its key only. -/
theorem touched_keyRun (view : View) (k : Nat) :
    ∀ p ∈ (keyRun execute context view participants k).delta.touched,
      DeclaredUnder (participants.map Prod.snd) k p := by
  apply executeGroup_within
  intro tx htx
  obtain ⟨x, hx, rfl⟩ := List.mem_map.mp htx
  exact keepsTo_of_mem_keyed hkeep (mem_bucket.mp hx)

/-- Groups of accurate participants touch no common path. -/
theorem pairwise_groupRuns (view : View) : (groupRuns execute context view participants).Pairwise
    fun r r' => ∀ p ∈ r.delta.touched, p ∉ r'.delta.touched := by
  rw [groupRuns_eq, List.pairwise_map]
  apply (nodup_eraseDups _).imp
  intro k k' hne p hp hp'
  exact hne ((touched_keyRun hkeep view k p hp).unique (touched_keyRun hkeep view k' p hp'))

variable {state : Overlay} {status : Transaction × κ → Status}
  (hstatus : (replay execute context state (participants.map fun x => x.1.1)).1 =
    participants.map fun x => (x.1.1, status x.1))
include hstatus

/-- On the paths declared under a key, a replay in the order of input is one of the key's group. -/
theorem replay_bucket_keyed (k : Nat) :
    (replay execute context state ((bucket (keyed participants) k).map Prod.fst)).1 =
        (bucket (keyed participants) k).map (fun x => (x.1, status x)) ∧
      ∀ p, DeclaredUnder (participants.map Prod.snd) k p →
        (replay execute context state (participants.map fun x => x.1.1)).2.changes[p]? =
          (replay execute context state
            ((bucket (keyed participants) k).map Prod.fst)).2.changes[p]? := by
  have hmap {β : Type} (f : Transaction × κ → β) :
      (keyed participants).map (fun x => f x.2) = participants.map fun x => f x.1 := by
    have h := congrArg (List.map f) (snd_keyed participants)
    rwa [List.map_map, List.map_map] at h
  have hin : ∀ x ∈ keyed participants, x.1 = k →
      KeepsTo execute context x.2.1 (DeclaredUnder (participants.map Prod.snd) k) := by
    rintro ⟨_, x⟩ hx rfl
    exact keepsTo_of_mem_keyed hkeep hx
  have hout : ∀ x ∈ keyed participants, x.1 ≠ k → ∀ v, ∀ p ∈ (execute context v x.2.1).run.effect,
      ¬ DeclaredUnder (participants.map Prod.snd) k p := by
    rintro ⟨k', x⟩ hx hne v p hp hk
    exact hne (((keepsTo_of_mem_keyed hkeep hx).effect v p hp).unique hk)
  have hall : (replay execute context state ((keyed participants).map fun x => x.2.1)).1 =
      (keyed participants).map fun x => (x.2.1, status x.2) := by
    rw [hmap Prod.fst, hmap fun x => (x.1, status x), hstatus]
  have h := replay_bucket hin hout state state rfl (fun _ _ => rfl) hall
  rwa [hmap Prod.fst] at h

/-- In its group, an accurate participant ends as it does in the order of input. -/
theorem finished_groupRuns :
    (groupRuns execute context state.view participants).flatMap (·.run.finished) =
      (groupByPaths participants).flatten.map fun x => (x.1, status x) := by
  rw [groupRuns_eq, groupByPaths_eq, List.flatMap_map, ← List.flatMap_def, List.map_flatMap]
  apply List.flatMap_congr
  intro k _
  have hown := (replay_bucket_keyed hkeep hstatus k).1
  rw [replay_eq_apply] at hown
  rw [keyRun, (executeGroup_never state.view _).1]
  exact hown

/-- What groups of accurate participants write is what is written in the order of input. -/
theorem foldl_groupRuns :
    ((groupRuns execute context state.view participants).foldl
        (fun state r => state.apply r.delta.writes) state).changes =
      (replay execute context state (participants.map fun x => x.1.1)).2.changes := by
  rw [groupRuns_eq, List.foldl_map]
  apply Changes.ext
  intro p
  have hwrites : ∀ k, p ∈ (keyRun execute context state.view participants k).delta.writes →
      DeclaredUnder (participants.map Prod.snd) k p := fun k hp =>
    touched_keyRun hkeep state.view k p (Delta.mem_touched.mpr (.inl hp))
  by_cases hp : ∃ k, DeclaredUnder (participants.map Prod.snd) k p
  · obtain ⟨k, hk⟩ := hp
    have hothers : ∀ k' ∈ (keys (participants.map Prod.snd)).eraseDups, k' ≠ k →
        p ∉ (keyRun execute context state.view participants k').delta.writes :=
      fun k' _ hne hmem => hne ((hwrites k' hmem).unique hk)
    rw [foldl_apply_getElem? (nodup_eraseDups _) (List.mem_eraseDups.mpr hk.mem_keys) hothers,
      (replay_bucket_keyed hkeep hstatus k).2 p hk, replay_eq_apply, keyRun,
      (executeGroup_never state.view _).2]
  · -- No group writes where nothing is declared, and no transaction does in the order of input.
    have hsilent : ∀ tx ∈ participants.map fun x => x.1.1, ∀ v,
        p ∉ (execute context v tx).run.effect := by
      intro tx htx v hmem
      obtain ⟨x, hx, rfl⟩ := List.mem_map.mp htx
      exact hp (exists_declaredUnder (List.mem_map_of_mem hx) ((hkeep x hx).effect v p hmem))
    rw [foldl_apply_getElem?_of_silent fun k _ hmem => hp ⟨k, hwrites k hmem⟩,
      replay_getElem?_of_silent hsilent]

end Accurate

/-- Executing accurate participants in groups, after others one by one, is executing them all in the
order of input: the same changes, and everything ends the same. -/
theorem executeGrouped_participants
    (hkeep : ∀ x ∈ participants, KeepsTo execute context x.1.1 (· ∈ x.2)) (base : View)
    (alone without : List (Transaction × κ)) {status : Transaction × κ → Status}
    (hstatus : (replay execute context (.new base)
        ((alone ++ participants.map Prod.fst).map Prod.fst)).1 =
      (alone ++ participants.map Prod.fst).map fun x => (x.1, status x)) :
    let out := (executeGrouped execute (fun _ => pure false) context base
      (Grouping.map Prod.fst ⟨groupByPaths participants, alone, without⟩)).run
    out.state = (replay execute context (.new base)
        ((alone ++ participants.map Prod.fst).map Prod.fst)).2.changes ∧
      out.notExecuted = [] ∧
      out.entries = ((alone ++ (groupByPaths participants).flatten).map fun x =>
          ⟨x.1, status x, .accepted⟩) ++
        without.map fun x => ⟨x.1, .withoutContract, .withoutContract⟩ := by
  intro out
  let first := replay execute context (.new base) (alone.map Prod.fst)
  have hsplit := hstatus
  rw [List.map_append, replay_append, List.map_append, List.map_map] at hsplit
  obtain ⟨halone, hbeside⟩ := List.append_inj hsplit (by
    rw [List.length_map, ← List.length_map Prod.fst, map_fst_replay, List.length_map])
  rw [List.map_map] at hbeside
  have hout : out = ((groupRuns execute context first.2.view participants).foldl Merge.add
      (.start ⟨first.1, []⟩ first.2)).finish (without.map Prod.fst) := by
    have hrun : (executeSequential execute (fun _ => pure false) context (.new base)
        (alone.map Prod.fst)).run = (⟨first.1, []⟩, first.2) := executeSequential_never _ _
    have hout := @executeGrouped_eq execute context (fun _ => pure false) base
      (Grouping.map Prod.fst ⟨groupByPaths participants, alone, without⟩)
    simp only [Grouping.map, hrun, executeGroups_never, List.map_map] at hout
    exact hout
  obtain ⟨hstate, hentries, hnot⟩ := Merge.foldl_add_of_apart
    (pairwise_groupRuns hkeep first.2.view) (g := .start ⟨first.1, []⟩ first.2)
    fun _ _ _ _ => ⟨Std.ExtTreeSet.not_mem_empty, Std.ExtTreeSet.not_mem_empty⟩
  rw [hout]
  refine ⟨?_, ?_, ?_⟩
  · show (List.foldl Merge.add _ _).state.changes = _
    rw [hstate, List.map_append, replay_append, List.map_map]
    exact foldl_groupRuns hkeep hbeside
  · rw [Merge.finish, hnot, notStarted_groupRuns]
    rfl
  · rw [Merge.finish, hentries, flatMap_accepted, finished_groupRuns hkeep hbeside]
    simp only [Merge.start, Run.accepted, first, halone, List.map_map, List.map_append]
    rfl

end Participants

/-! ## Whole executions -/

theorem Execution.conflicting_eq_nil {e : Execution} (h : ∀ x ∈ e.entries, x.verdict ≠ .rejected) :
    e.conflicting = [] := by
  rw [conflicting, withVerdict, List.map_eq_nil_iff, List.filter_eq_nil_iff]
  intro x hx
  simpa using h x hx

section Transactions
variable {execute : Executor Id} {context : BlockContext}

/-- **Accurate footprints make grouping invisible.** When the transactions that form groups keep to
the paths they declare, an execution that nothing stops rejects no group, and its changes and how
each transaction ends, told by position, are those of one list: first the transactions that must run
alone, then all that form groups, both in the order of input. -/
theorem executeTransactions_eq_inputOrder (limits : Grouping.Limits) (extract : Extractor)
    (base : View) (transactions : List Transaction)
    (haccurate : ∀ x f, (x, some f) ∈ knownFootprints limits extract context.parent transactions →
      f.parallelism = .parallelizable → f.writes.isEmpty = false →
      KeepsTo execute context x.1 f.Declares) :
    let known := knownFootprints limits extract context.parent transactions
    let grouping := Grouping.ofFootprints known
    let beside := (Grouping.participants known).map Prod.fst
    let out := (executeTransactions execute (fun _ => pure false) limits extract context base
      transactions).run
    let plain := (executeSequential execute .never context (.new base)
      ((grouping.sequential ++ beside).map Prod.fst)).run
    out.conflicting = [] ∧ out.notExecuted = [] ∧ out.state = plain.2.changes ∧
      grouping.groups.flatten.Perm beside ∧
      ∃ status : Transaction × Nat → Status,
        plain.1.finished = (grouping.sequential ++ beside).map (fun x => (x.1, status x)) ∧
        out.entries =
          ((grouping.sequential ++ grouping.groups.flatten).map fun x =>
            ⟨x.1, status x, .accepted⟩) ++
          grouping.withoutContract.map fun x => ⟨x.1, .withoutContract, .withoutContract⟩ := by
  intro known grouping beside out plain
  have hkeep : ∀ x ∈ participants known, KeepsTo execute context x.1.1 (· ∈ x.2) := by
    rintro ⟨x, paths⟩ hx
    obtain ⟨f, hmem, hp, hw, rfl⟩ := mem_participants_iff.mp hx
    exact (haccurate x f hmem hp hw).mono fun p hp => Footprint.mem_paths.mpr hp
  obtain ⟨status, hstatus⟩ := exists_status (f := Prod.fst)
    (nodup_placed limits extract context.parent transactions)
    (@map_fst_replay execute context (.new base) _)
  have hplain : plain = _ := executeSequential_never _ _
  have hout : out = (executeGrouped execute (fun _ => pure false) context base
      (Grouping.map Prod.fst
        ⟨groupByPaths (participants known), grouping.sequential, grouping.withoutContract⟩)).run := by
    show (executeGrouped execute _ context base (groupTransactions _ _ _ _)).run = _
    rw [groupTransactions_eq_map]
    rfl
  obtain ⟨hstate, hnot, hentries⟩ := executeGrouped_participants hkeep base grouping.sequential
    grouping.withoutContract hstatus
  rw [← hout] at hstate hnot hentries
  refine ⟨?_, hnot, ?_, flatten_groupByPaths_perm _, status, ?_, hentries⟩
  · apply Execution.conflicting_eq_nil
    intro x hx
    rw [hentries, List.mem_append, List.mem_map, List.mem_map] at hx
    rcases hx with ⟨_, _, rfl⟩ | ⟨_, _, rfl⟩ <;> nofun
  · rw [hplain]
    exact hstate
  · rw [hplain]
    exact hstatus

/-- What a transaction for `copySlot` declares: the slot it copies and the one it writes. -/
def copyFootprint (tx : Transaction) : Footprint :=
  ⟨.parallelizable, {⟨[tx.sender]⟩}, {⟨[tx.contract]⟩}⟩

theorem keepsTo_copySlot (tx : Transaction) :
    KeepsTo copySlot context tx (copyFootprint tx).Declares where
  settled v w h := by
    have hread : v ⟨[tx.sender]⟩ = w ⟨[tx.sender]⟩ := h _ (.inl (by simp [copyFootprint]))
    simp only [copySlot, Id.run, hread]
  reads v p hp := .inl hp
  writes v p hp := .inr (by simpa [copySlot, copyFootprint, Id.run, Changes.ofList] using hp)

/-- The first and the last transaction form a group, so the order of the groups is not the order of
input. -/
theorem executeTransactions_eq_inputOrder_copySlot :
    let transactions : List Transaction := [.copying "a" "b", .copying "c" "d", .copying "b" "e"]
    let extract : Extractor := fun _ _ tx => ⟨⟨0⟩, some (copyFootprint tx)⟩
    let base : View := fun p => if p = ⟨["a"]⟩ then some [7] else none
    let known := knownFootprints ⟨⟨1⟩, 3⟩ extract (default : BlockContext).parent transactions
    let groups := (Grouping.ofFootprints known).groups
    let out := (executeTransactions copySlot (fun _ => pure false) ⟨⟨1⟩, 3⟩ extract default base
      transactions).run
    let plain := (executeSequential copySlot .never default (.new base) transactions).run
    (∀ x f, (x, some f) ∈ known → KeepsTo copySlot default x.1 f.Declares) ∧
      groups = [[(.copying "a" "b", 0), (.copying "b" "e", 2)], [(.copying "c" "d", 1)]] ∧
      out.conflicting = [] ∧ out.state = plain.2.changes ∧
      ∃ status : Transaction × Nat → Status,
        plain.1.finished = transactions.zipIdx.map (fun x => (x.1, status x)) ∧
        out.entries = groups.flatten.map fun x => ⟨x.1, status x, .accepted⟩ := by
  intro transactions extract base known groups out plain
  have hkeep : ∀ x f, (x, some f) ∈ known → KeepsTo copySlot default x.1 f.Declares := by
    intro x f hx
    have hf : some (copyFootprint x.1) = some f := answer_of_mem_knownFootprints _ _ _ _ hx
    rw [← Option.some.inj hf]
    exact keepsTo_copySlot x.1
  have halone : (Grouping.ofFootprints known).sequential = [] := by decide +kernel
  have hwithout : (Grouping.ofFootprints known).withoutContract = [] := by decide +kernel
  have hbeside : (Grouping.participants known).map Prod.fst = transactions.zipIdx := by
    decide +kernel
  obtain ⟨hconflicting, _, hstate, _, status, hfinished, hentries⟩ :=
    executeTransactions_eq_inputOrder ⟨⟨1⟩, 3⟩ extract base transactions
      fun x f hx _ _ => hkeep x f hx
  rw [halone, hbeside] at hstate hfinished
  rw [halone, hwithout, List.map_nil, List.append_nil] at hentries
  exact ⟨hkeep, by decide +kernel, hconflicting, hstate, status, hfinished, hentries⟩

end Transactions

end ChainNode

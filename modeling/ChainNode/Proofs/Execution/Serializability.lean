import ChainNode.Execution.Grouped
import ChainNode.Proofs.Execution.Replay

/-!
# Serializability

Executing a grouping has a serial account: run one after the other, in the order in which they are
listed, the transactions that count end as they did and leave the state that was left. Groups run on
a view that lacks what the groups before them wrote, whatever was declared, so the account rests on
the merge: it rejects a group that recorded a read of such a path (`Merge.conflicts_eq_false_iff`),
and recorded reads settle how the others replay. `Merge.Replays` is the invariant of the merge.
-/

namespace ChainNode

/-! ## The transactions that count -/

/-- The transactions that count among entries, each with how it ended. -/
def counted (entries : List Entry) : List (Transaction × Status) :=
  (entries.filter fun x => x.verdict = .accepted).map fun x => (x.transaction, x.status)

/-- The transactions that count, each with how it ended. -/
def Execution.finished (e : Execution) : List (Transaction × Status) := counted e.entries

@[simp] theorem counted_append (xs ys : List Entry) :
    counted (xs ++ ys) = counted xs ++ counted ys := by
  simp [counted]

@[simp] theorem counted_accepted (r : Run) : counted r.accepted = r.finished := by
  simp [counted, Run.accepted, List.filter_map, Function.comp_def]

@[simp] theorem counted_rejected (r : Run) : counted r.rejected = [] := by
  simp [counted, Run.rejected, List.filter_map, Function.comp_def]

@[simp] theorem counted_withoutContract (txs : List Transaction) :
    counted (txs.map fun tx => ⟨tx, .withoutContract, .withoutContract⟩) = [] := by
  simp [counted, List.filter_map, Function.comp_def]

namespace Execution

theorem executed_eq (e : Execution) : e.executed = e.finished.map Prod.fst := by
  simp only [executed, withVerdict, finished, counted, List.map_map]
  rfl

/-- The results are in the order of the entries, those that count among them. -/
theorem finished_results_sublist (e : Execution) :
    (e.finished.map fun (tx, status) => (⟨tx.id, status⟩ : Result)).Sublist e.results := by
  rw [finished, counted, results, List.map_map]
  exact List.filter_sublist.map _

end Execution

namespace Merge

@[simp] theorem finished_finish (g : Merge) (txs : List Transaction) :
    (g.finish txs).finished = counted g.entries := by
  rw [Execution.finished, finish, counted_append, counted_withoutContract, List.append_nil]

/-! ## The merge -/

/-- A group is taken in when it wrote nothing that was touched and read nothing that was written. -/
theorem conflicts_eq_false_iff {g : Merge} {d : Delta} :
    g.conflicts d = false ↔ (∀ p ∈ d.writes, p ∉ g.touched) ∧ ∀ p ∈ d.reads, p ∉ g.written := by
  simp [conflicts, List.any_eq_false, Std.ExtTreeMap.mem_keys, Std.ExtTreeSet.mem_toList]

theorem add_of_conflicts {g : Merge} {group : GroupRun} (h : g.conflicts group.delta = true) :
    g.add group = { g with
      entries := g.entries ++ group.run.rejected
      notExecuted := g.notExecuted ++ group.run.notStarted } := by
  rw [add, if_pos h]

theorem add_of_not_conflicts {g : Merge} {group : GroupRun} (h : g.conflicts group.delta = false) :
    g.add group = {
      state := g.state.apply group.delta.writes
      written := g.written.insertMany group.delta.writes.keys
      touched := g.touched.insertMany group.delta.touched
      entries := g.entries ++ group.run.accepted
      notExecuted := g.notExecuted ++ group.run.notStarted } := by
  rw [add, h]
  rfl

/-- What counts so far replays to the state of the merge, which differs from the view that groups
run on only where it is said to be written. -/
structure Replays (execute : Executor Id) (context : BlockContext) (base ground : View)
    (g : Merge) : Prop where
  replay_eq : replay execute context (.new base) ((counted g.entries).map Prod.fst) =
    (counted g.entries, g.state)
  view_eq : ∀ p, p ∉ g.written → ground p = g.state.view p

section Replays
variable {execute : Executor Id} {context : BlockContext} {base ground : View} {g : Merge}

/-- Taking in a group keeps the serial account. -/
theorem Replays.add (h : g.Replays execute context base ground) (hf : Faithful execute)
    (stop : Signal Id) (group : List Transaction) :
    (g.add (executeGroup execute stop context ground group).run).Replays
      execute context base ground := by
  let final := (executeGroupFrom execute stop context 0 (.new ground) group).run
  show (g.add ⟨final.1, final.2.delta⟩).Replays execute context base ground
  cases hc : g.conflicts final.2.delta with
  | true =>
    rw [add_of_conflicts hc]
    refine ⟨?_, h.view_eq⟩
    simp only [counted_append, counted_rejected, List.append_nil]
    exact h.replay_eq
  | false =>
    rw [add_of_not_conflicts hc]
    obtain ⟨_, hreads⟩ := conflicts_eq_false_iff.mp hc
    refine ⟨?_, ?_⟩
    · have hgroup := hf.replay_group (· ∈ g.written) g.state.changes 0 (.new ground) g.state
        group (Changes.extend_empty _).symm
        (by
          intro p hp
          rw [Layered.view_new]
          exact h.view_eq p (hp.resolve_left Std.ExtTreeMap.not_mem_empty))
        hreads
      simp only [counted_append, counted_accepted, List.map_append]
      rw [replay_append, h.replay_eq]
      show (_ ++ (replay execute context g.state final.1.executed).1,
        (replay execute context g.state final.1.executed).2) = _
      rw [hgroup]
      rfl
    · intro p hp
      simp only [Std.ExtTreeSet.mem_insertMany_list, List.contains_iff_mem, Std.ExtTreeMap.mem_keys,
        not_or] at hp
      rw [h.view_eq p hp.1, Overlay.view_apply, Changes.onto_of_notMem hp.2]

theorem Replays.foldl_add (h : g.Replays execute context base ground) (hf : Faithful execute)
    (runs : List GroupRun)
    (hruns : ∀ r ∈ runs, ∃ stop group, r = (executeGroup execute stop context ground group).run) :
    (runs.foldl Merge.add g).Replays execute context base ground := by
  induction runs generalizing g with
  | nil => exact h
  | cons r runs ih =>
    obtain ⟨stop, group, rfl⟩ := hruns r List.mem_cons_self
    exact ih (h.add hf stop group) fun r' hr' => hruns r' (List.mem_cons_of_mem _ hr')

end Replays

end Merge

/-! ## Whole executions -/

section Grouped
variable {execute : Executor Id} {context : BlockContext}

/-- Each group runs by itself, under its own signal. -/
theorem executeGroups_eq_map (stop : Slot → Id Bool) (base : View) (i : Nat)
    (groups : List (List Transaction)) :
    (executeGroups execute stop context base i groups).run = (groups.zipIdx i).map fun (group, n) =>
      (executeGroup execute (fun j => stop (.grouped n j)) context base group).run := by
  induction groups generalizing i with
  | nil => rfl
  | cons group rest ih =>
    rw [List.zipIdx_cons, List.map_cons, ← ih]
    rfl

theorem executeGrouped_eq (stop : Slot → Id Bool) (base : View) (grouping : Grouping Transaction) :
    let sequential := (executeSequential execute (fun i => stop (.sequential i)) context (.new base)
      grouping.sequential).run
    (executeGrouped execute stop context base grouping).run =
      ((executeGroups execute stop context sequential.2.view 0 grouping.groups).run.foldl Merge.add
        (.start sequential.1 sequential.2)).finish grouping.withoutContract :=
  rfl

/-- The transactions that count replay to what an execution left. -/
theorem Faithful.replay_executeGrouped (hf : Faithful execute) (stop : Slot → Id Bool) (base : View)
    (grouping : Grouping Transaction) :
    let out := (executeGrouped execute stop context base grouping).run
    replay execute context (.new base) out.executed = (out.finished, ⟨base, out.state⟩) := by
  intro out
  let sequential := (executeSequential execute (fun i => stop (.sequential i)) context (.new base)
    grouping.sequential).run
  let runs := (executeGroups execute stop context sequential.2.view 0 grouping.groups).run
  have hstart : (Merge.start sequential.1 sequential.2).Replays execute context base
      sequential.2.view := by
    refine ⟨?_, fun _ _ => rfl⟩
    simp only [Merge.start, counted_accepted]
    exact replay_executed 0 (.new base) grouping.sequential
  have hruns : ∀ r ∈ runs, ∃ stop group,
      r = (executeGroup execute stop context sequential.2.view group).run := by
    intro r hr
    simp only [runs, executeGroups_eq_map] at hr
    obtain ⟨⟨group, n⟩, _, rfl⟩ := List.mem_map.mp hr
    exact ⟨_, _, rfl⟩
  have hmerge := (hstart.foldl_add hf runs hruns).replay_eq
  have hbase := congrArg (fun after => after.2.base) hmerge
  simp only [replay_base] at hbase
  have hout : out = (runs.foldl Merge.add (.start sequential.1 sequential.2)).finish
      grouping.withoutContract := executeGrouped_eq stop base grouping
  rw [Execution.executed_eq, hout, Merge.finished_finish, hmerge]
  show (_, _) = (_, (⟨base, _⟩ : Overlay))
  rw [← show (runs.foldl Merge.add (.start sequential.1 sequential.2)).state.base = base from
    hbase.symm]
  rfl

/-- **Execution is serializable, whatever was declared.** Run one after the other over the same
view, never stopped, the transactions that count make exactly the changes that were made, and each
ends as it did; so their results are among those of the execution, in the same order. -/
theorem executeGrouped_serializable (hf : Faithful execute) (stop : Slot → Id Bool) (base : View)
    (grouping : Grouping Transaction) :
    let out := (executeGrouped execute stop context base grouping).run
    let again := (executeSequential execute .never context (.new base) out.executed).run
    again.2.changes = out.state ∧ again.1.notStarted = [] ∧ again.1.finished = out.finished ∧
      again.1.results.Sublist out.results := by
  intro out again
  have hagain : again = (⟨out.finished, []⟩, ⟨base, out.state⟩) := by
    show (executeSequential execute .never context (.new base) out.executed).run = _
    rw [executeSequential_never, hf.replay_executeGrouped stop base grouping]
  rw [hagain]
  exact ⟨rfl, rfl, rfl, out.finished_results_sublist⟩

/-- A group that read what the group before it wrote is rejected, and what is left is serial. -/
theorem executeGrouped_serializable_copySlot :
    let grouping : Grouping Transaction :=
      ⟨[[.copying "a" "b", .copying "x" "a"], [.copying "b" "c"]], [.copying "c" "a"], []⟩
    let base : View := fun p => if p = ⟨["c"]⟩ then some [7] else none
    let out := (executeGrouped copySlot (fun _ => false) default base grouping).run
    let again := (executeSequential copySlot .never default (.new base) out.executed).run
    Faithful copySlot ∧ out.conflicting = [.copying "b" "c"] ∧
      out.executed = [.copying "c" "a", .copying "a" "b", .copying "x" "a"] ∧
      again.2.changes = out.state ∧ again.1.notStarted = [] ∧ again.1.finished = out.finished ∧
      again.1.results.Sublist out.results :=
  ⟨faithful_copySlot, by decide +kernel, by decide +kernel,
    executeGrouped_serializable faithful_copySlot _ _ _⟩

end Grouped

end ChainNode

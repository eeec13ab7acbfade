import ChainNode.Proofs.Execution.Paths
import ChainNode.Proofs.Execution.Serializability
import Mathlib.Data.List.Perm.Basic

/-!
# Every transaction is accounted for

Execution may be stopped at any start of a transaction. `Signal.starts` counts the starts in a list
before the signal is seen: this many transactions of the list run, the others never start. What ran
is listed with what became of it, in the order in which it started, and what has no contract comes
last (`executeGrouped_eq_finish`), so every transaction ends in exactly one list.

That a transaction started is more than that it is listed: the executor was given it. `Executor.noting`
is an executor that notes what it is given.
-/

namespace ChainNode

/-! ## Starts -/

/-- How many transactions start of those at `n` positions from `i` on, before the signal is seen. -/
def Signal.starts (stop : Signal Id) (i n : Nat) : Nat :=
  ((List.range' i n).takeWhile fun j => !(stop j).run).length

/-- The start at the one place comes before the start at the other, however groups take turns. -/
def Slot.Before : Slot → Slot → Prop
  | sequential i, sequential j => i < j
  | sequential _, grouped _ _ => True
  | grouped g i, grouped h j => g = h ∧ i < j
  | grouped _ _, sequential _ => False

/-- A signal that, once seen, is seen at every later start. -/
def Lasting (stop : Slot → Id Bool) : Prop :=
  ∀ s t, s.Before t → (stop s).run = true → (stop t).run = true

/-- An executor that notes the transactions it is given, in order. -/
def Executor.noting (execute : Executor Id) : Executor (StateM (List Transaction)) :=
  fun context view tx => do
    modify fun noted => noted ++ [tx]
    return (execute context view tx).run

section Starts
variable {execute : Executor Id} {context : BlockContext} {stop : Signal Id}

theorem starts_succ (i n : Nat) :
    stop.starts i (n + 1) = if (stop i).run then 0 else stop.starts (i + 1) n + 1 := by
  rw [Signal.starts, List.range'_succ, List.takeWhile_cons]
  cases (stop i).run <;> rfl

/-- A signal that is seen at the first start lets nothing start. -/
theorem starts_of_first {i : Nat} (h : (stop i).run = true) (n : Nat) : stop.starts i n = 0 := by
  cases n with
  | zero => rfl
  | succ n => rw [starts_succ, if_pos h]

/-- If not all start, the signal was seen. -/
theorem exists_of_starts_lt {i n : Nat} (h : stop.starts i n < n) : ∃ j, (stop j).run = true := by
  induction n generalizing i with
  | zero => cases h
  | succ n ih =>
    rw [starts_succ] at h
    by_cases hi : (stop i).run = true
    · exact ⟨i, hi⟩
    · rw [if_neg hi] at h
      exact ih (Nat.lt_of_succ_lt_succ h)

/-- Transactions start up to where the signal is seen. -/
theorem executeFrom_eq_take (i : Nat) (state : Overlay) (txs : List Transaction) :
    (executeFrom execute stop context i state txs).run.1.executed =
        txs.take (stop.starts i txs.length) ∧
      (executeFrom execute stop context i state txs).run.1.notStarted =
        txs.drop (stop.starts i txs.length) := by
  induction txs generalizing i state with
  | nil => exact ⟨rfl, rfl⟩
  | cons tx rest ih =>
    rw [executeFrom_cons, List.length_cons, starts_succ]
    by_cases h : (stop i).run = true
    · rw [if_pos h, if_pos h]
      exact ⟨rfl, rfl⟩
    · rw [if_neg h, if_neg h, List.take_succ_cons, List.drop_succ_cons]
      obtain ⟨hexecuted, hnotStarted⟩ :=
        ih (i + 1) (state.apply (execute context state.view tx).run.effect)
      exact ⟨congrArg _ hexecuted, hnotStarted⟩

theorem executeGroup_eq_take (base : View) (group : List Transaction) :
    (executeGroup execute stop context base group).run.run.executed =
        group.take (stop.starts 0 group.length) ∧
      (executeGroup execute stop context base group).run.run.notStarted =
        group.drop (stop.starts 0 group.length) := by
  have hrun : (executeGroup execute stop context base group).run.run =
      (executeFrom execute stop context 0 ⟨base, ∅⟩ group).run.1 :=
    (executeGroupFrom_eq_executeFrom 0 (.new base) group).1
  rw [hrun]
  exact executeFrom_eq_take 0 ⟨base, ∅⟩ group

/-- The executor is given the transactions that ran, and no others. -/
theorem executeFrom_noting (i : Nat) (state : Overlay) (txs noted : List Transaction) :
    ((executeFrom execute.noting (fun j => return (stop j).run) context i state txs).run noted).run =
      ((executeFrom execute stop context i state txs).run,
        noted ++ (executeFrom execute stop context i state txs).run.1.executed) := by
  induction txs generalizing i state noted with
  | nil =>
    show (_, noted) = (_, noted ++ [])
    rw [List.append_nil]
    rfl
  | cons tx rest ih =>
    rw [executeFrom_cons, executeFrom]
    by_cases h : (stop i).run = true
    · simp only [h, if_true, pure_bind, StateT.run_pure, Run.executed, List.map_nil, List.append_nil]
      rfl
    · rw [if_neg h, Bool.eq_false_iff.mpr h]
      let outcome := (execute context state.view tx).run
      show (fun after : (Run × Overlay) × List Transaction =>
          ((after.1.1.cons tx outcome.status, after.1.2), after.2))
        ((executeFrom execute.noting _ context (i + 1) (state.apply outcome.effect) rest).run
          (noted ++ [tx])).run = _
      rw [ih, List.append_assoc]
      rfl

theorem executeGroupFrom_noting (i : Nat) (state : Layered) (txs noted : List Transaction) :
    ((executeGroupFrom execute.noting (fun j => return (stop j).run) context i state txs).run
        noted).run =
      ((executeGroupFrom execute stop context i state txs).run,
        noted ++ (executeGroupFrom execute stop context i state txs).run.1.executed) := by
  induction txs generalizing i state noted with
  | nil =>
    show (_, noted) = (_, noted ++ [])
    rw [List.append_nil]
    rfl
  | cons tx rest ih =>
    rw [executeGroupFrom_cons, executeGroupFrom]
    by_cases h : (stop i).run = true
    · simp only [h, if_true, pure_bind, StateT.run_pure, Run.executed, List.map_nil, List.append_nil]
      rfl
    · rw [if_neg h, Bool.eq_false_iff.mpr h]
      let outcome := (execute context state.view tx).run
      show (fun after : (Run × Layered) × List Transaction =>
          ((after.1.1.cons tx outcome.status, after.1.2), after.2))
        ((executeGroupFrom execute.noting _ context (i + 1) (state.commit outcome.delta) rest).run
          (noted ++ [tx])).run = _
      rw [ih, List.append_assoc]
      rfl

end Starts

section Grouped
variable {execute : Executor Id} {context : BlockContext} {stop : Slot → Id Bool}

theorem executeGroups_noting (base : View) (i : Nat) (groups : List (List Transaction))
    (noted : List Transaction) :
    ((executeGroups execute.noting (fun s => return (stop s).run) context base i groups).run
        noted).run =
      ((executeGroups execute stop context base i groups).run,
        noted ++ (executeGroups execute stop context base i groups).run.flatMap
          fun r => r.run.executed) := by
  induction groups generalizing i noted with
  | nil =>
    show (_, noted) = (_, noted ++ [])
    rw [List.append_nil]
    rfl
  | cons group rest ih =>
    let first := (executeGroup execute (fun j => stop (.grouped i j)) context base group).run
    have hfirst : ((executeGroup execute.noting (fun j => return (stop (.grouped i j)).run) context
        base group).run noted).run = (first, noted ++ first.run.executed) :=
      congrArg (fun after : (Run × Layered) × List Transaction =>
        ((⟨after.1.1, after.1.2.delta⟩ : GroupRun), after.2))
        (executeGroupFrom_noting 0 (.new base) group noted)
    show (fun one : GroupRun × List Transaction => (fun more : List GroupRun × List Transaction =>
        (one.1 :: more.1, more.2))
        ((executeGroups execute.noting _ context base (i + 1) rest).run one.2).run)
      ((executeGroup execute.noting _ context base group).run noted).run = _
    rw [hfirst]
    dsimp only
    rw [ih, List.append_assoc]
    rfl

/-- The transactions that start: up to where the signal is seen, of those that run alone, then of each
group. -/
def started (stop : Slot → Id Bool) (grouping : Grouping Transaction) : List Transaction :=
  grouping.sequential.take
      (Signal.starts (fun i => stop (.sequential i)) 0 grouping.sequential.length) ++
    grouping.groups.zipIdx.flatMap fun (group, n) =>
      group.take (Signal.starts (fun i => stop (.grouped n i)) 0 group.length)

/-- The transactions that never start: the rest of those that run alone, then of each group. -/
def neverStarted (stop : Slot → Id Bool) (grouping : Grouping Transaction) : List Transaction :=
  grouping.sequential.drop
      (Signal.starts (fun i => stop (.sequential i)) 0 grouping.sequential.length) ++
    grouping.groups.zipIdx.flatMap fun (group, n) =>
      group.drop (Signal.starts (fun i => stop (.grouped n i)) 0 group.length)

theorem executeGroups_eq_take (base : View) (groups : List (List Transaction)) :
    ((executeGroups execute stop context base 0 groups).run.flatMap fun r => r.run.executed) =
        (groups.zipIdx.flatMap fun (group, n) =>
          group.take (Signal.starts (fun i => stop (.grouped n i)) 0 group.length)) ∧
      ((executeGroups execute stop context base 0 groups).run.flatMap fun r => r.run.notStarted) =
        groups.zipIdx.flatMap fun (group, n) =>
          group.drop (Signal.starts (fun i => stop (.grouped n i)) 0 group.length) := by
  rw [executeGroups_eq_map, List.flatMap_map, List.flatMap_map]
  constructor
  · exact List.flatMap_congr fun x _ => (executeGroup_eq_take base x.1).1
  · exact List.flatMap_congr fun x _ => (executeGroup_eq_take base x.1).2

/-- What starts and what does not make up all that may start. -/
theorem started_append_perm (stop : Slot → Id Bool) (grouping : Grouping Transaction) :
    (started stop grouping ++ neverStarted stop grouping).Perm
      (grouping.sequential ++ grouping.groups.flatten) := by
  have hgroups : (grouping.groups.zipIdx.flatMap fun (group, n) =>
      group.take (Signal.starts (fun i => stop (.grouped n i)) 0 group.length) ++
        group.drop (Signal.starts (fun i => stop (.grouped n i)) 0 group.length)) =
      grouping.groups.flatten := by
    simp only [List.take_append_drop]
    rw [List.flatMap_def, List.zipIdx_map_fst]
  rw [started, neverStarted, List.append_assoc]
  refine (List.Perm.append_left _ (List.perm_append_comm_assoc _ _ _)).trans ?_
  rw [← List.append_assoc, List.take_append_drop, ← hgroups]
  exact (List.flatMap_append_perm _ _ _).append_left _

end Grouped

/-! ## The merge -/

namespace Merge

theorem transactions_add (g : Merge) (r : GroupRun) :
    (g.add r).entries.map Entry.transaction =
      g.entries.map Entry.transaction ++ r.run.executed := by
  rw [add]
  split
  · simp [Run.rejected, Run.executed]
  · simp [Run.accepted, Run.executed]

theorem notExecuted_add (g : Merge) (r : GroupRun) :
    (g.add r).notExecuted = g.notExecuted ++ r.run.notStarted := by
  rw [add]
  split <;> rfl

/-- A merge lists what ran of its groups, in order, and what did not. -/
theorem foldl_add_lists (g : Merge) (runs : List GroupRun) :
    (runs.foldl Merge.add g).entries.map Entry.transaction =
        g.entries.map Entry.transaction ++ runs.flatMap (fun r => r.run.executed) ∧
      (runs.foldl Merge.add g).notExecuted =
        g.notExecuted ++ runs.flatMap fun r => r.run.notStarted := by
  induction runs generalizing g with
  | nil => simp
  | cons r rest ih =>
    obtain ⟨hentries, hnotExecuted⟩ := ih (g.add r)
    rw [List.foldl_cons, hentries, hnotExecuted, transactions_add, notExecuted_add,
      List.flatMap_cons, List.flatMap_cons, List.append_assoc, List.append_assoc]
    exact ⟨rfl, rfl⟩

/-- The entries of a merge are of transactions that ran; those that were rejected end in conflict. -/
def Ran (g : Merge) : Prop :=
  ∀ x ∈ g.entries, x.verdict = .accepted ∨ x.verdict = .rejected ∧ x.status = .conflict

theorem ran_start (run : Run) (state : Overlay) : (start run state).Ran := by
  intro x hx
  obtain ⟨y, _, rfl⟩ := List.mem_map.mp hx
  exact .inl rfl

theorem Ran.add {g : Merge} (h : g.Ran) (r : GroupRun) : (g.add r).Ran := by
  intro x hx
  rw [Merge.add] at hx
  split at hx <;> obtain hx | hx := List.mem_append.mp hx
  · exact h x hx
  · obtain ⟨y, _, rfl⟩ := List.mem_map.mp hx
    exact .inr ⟨rfl, rfl⟩
  · exact h x hx
  · obtain ⟨y, _, rfl⟩ := List.mem_map.mp hx
    exact .inl rfl

theorem Ran.foldl_add {g : Merge} (h : g.Ran) (runs : List GroupRun) :
    (runs.foldl Merge.add g).Ran := by
  induction runs generalizing g with
  | nil => exact h
  | cons r rest ih => exact ih (h.add r)

@[simp] theorem executed_finish (g : Merge) (txs : List Transaction) :
    (g.finish txs).executed =
      (g.entries.filter fun x => x.verdict = .accepted).map Entry.transaction := by
  simp [finish, Execution.executed, Execution.withVerdict, List.filter_map, Function.comp_def]

@[simp] theorem conflicting_finish (g : Merge) (txs : List Transaction) :
    (g.finish txs).conflicting =
      (g.entries.filter fun x => x.verdict = .rejected).map Entry.transaction := by
  simp [finish, Execution.conflicting, Execution.withVerdict, List.filter_map, Function.comp_def]

/-- What ran was accepted or rejected. -/
theorem Ran.perm {g : Merge} (h : g.Ran) :
    ((g.entries.filter fun x => x.verdict = .accepted) ++
      g.entries.filter fun x => x.verdict = .rejected).Perm g.entries := by
  have hrejected : (g.entries.filter fun x => x.verdict = .rejected) =
      g.entries.filter fun x => !decide (x.verdict = .accepted) := by
    apply List.filter_congr
    intro x hx
    obtain hv | ⟨hv, -⟩ := h x hx <;> simp [hv]
  rw [hrejected]
  exact List.filter_append_perm _ _

/-- The results at the end of a merge. -/
theorem Ran.results_perm {g : Merge} (h : g.Ran) (txs : List Transaction) :
    (g.finish txs).results.Perm
      (((g.finish txs).finished.map fun (tx, status) => ⟨tx.id, status⟩) ++
        ((g.finish txs).conflicting.map fun tx => ⟨tx.id, .conflict⟩) ++
          txs.map fun tx => ⟨tx.id, .withoutContract⟩) := by
  let result (x : Entry) : Result := ⟨x.transaction.id, x.status⟩
  have hrejected : ((g.entries.filter fun x => x.verdict = .rejected).map result) =
      (g.finish txs).conflicting.map fun tx => ⟨tx.id, .conflict⟩ := by
    rw [conflicting_finish, List.map_map]
    apply List.map_congr_left
    intro x hx
    obtain ⟨hmem, hv⟩ := List.mem_filter.mp hx
    obtain hx | ⟨-, hx⟩ := h x hmem
    · simp [hx] at hv
    · simp [result, hx]
  have haccepted : ((g.entries.filter fun x => x.verdict = .accepted).map result) =
      (g.finish txs).finished.map fun (tx, status) => ⟨tx.id, status⟩ := by
    rw [finished_finish, counted, List.map_map]
    rfl
  rw [← haccepted, ← hrejected, ← List.map_append, Execution.results, finish, List.map_append,
    List.map_map]
  exact (h.perm.symm.map result).append_right _

end Merge

/-! ## The accounts -/

/-- What became of the transactions of a grouping that was executed under a signal, when the executor
was given certain ones. -/
structure Accounted (stop : Slot → Id Bool) (grouping : Grouping Transaction)
    (given : List Transaction) (out : Execution) : Prop where
  /-- Each transaction is in one list. -/
  placed : (out.executed ++ out.conflicting ++ out.notExecuted ++ grouping.withoutContract).Perm
    (grouping.sequential ++ grouping.groups.flatten ++ grouping.withoutContract)
  /-- How each that counts ended. -/
  finished : out.finished.map Prod.fst = out.executed
  /-- There is one result for each that counts, each of a rejected group and each without a contract,
  and no other. -/
  results : out.results.Perm
    ((out.finished.map fun (tx, status) => ⟨tx.id, status⟩) ++
      (out.conflicting.map fun tx => ⟨tx.id, .conflict⟩) ++
        grouping.withoutContract.map fun tx => ⟨tx.id, .withoutContract⟩)
  /-- The executor was given the transactions at the start of each list, up to where the signal was
  seen. -/
  given_eq : given = started stop grouping
  /-- Those that it was given count or were rejected. -/
  ran : (out.executed ++ out.conflicting).Perm given
  /-- The rest of each list never started. -/
  notExecuted : out.notExecuted = neverStarted stop grouping
  /-- When not all that run alone started, no other did. -/
  alone : Signal.starts (fun i => stop (.sequential i)) 0 grouping.sequential.length <
      grouping.sequential.length →
    given = grouping.sequential.take
      (Signal.starts (fun i => stop (.sequential i)) 0 grouping.sequential.length)
  /-- Execution was cut short when something never started. -/
  cancelled : out.cancelled = true ↔ out.notExecuted ≠ []

section Accounts
variable {execute : Executor Id} {context : BlockContext} {stop : Slot → Id Bool}

/-- Noting what the executor is given changes nothing, and what it is given is what started. -/
theorem executeGrouped_noting (base : View) (grouping : Grouping Transaction) :
    ((executeGrouped execute.noting (fun s => return (stop s).run) context base grouping).run []).run =
      ((executeGrouped execute stop context base grouping).run, started stop grouping) := by
  show (fun alone : (Run × Overlay) × List Transaction =>
      (fun groups : List GroupRun × List Transaction =>
        ((groups.1.foldl Merge.add (.start alone.1.1 alone.1.2)).finish grouping.withoutContract,
          groups.2))
      ((executeGroups execute.noting _ context alone.1.2.view 0 grouping.groups).run alone.2).run)
    ((executeFrom execute.noting _ context 0 (.new base) grouping.sequential).run []).run = _
  rw [@executeFrom_noting execute context fun i => stop (.sequential i)]
  dsimp only
  rw [executeGroups_noting, (executeGroups_eq_take _ _).1, (executeFrom_eq_take _ _ _).1]
  rfl

/-- An execution ends a merge that lists what started, in order, and what did not. -/
theorem executeGrouped_eq_finish (base : View) (grouping : Grouping Transaction) :
    ∃ g : Merge, (executeGrouped execute stop context base grouping).run =
        g.finish grouping.withoutContract ∧ g.Ran ∧
      g.entries.map Entry.transaction = started stop grouping ∧
      g.notExecuted = neverStarted stop grouping := by
  let alone := (executeSequential execute (fun i => stop (.sequential i)) context (.new base)
    grouping.sequential).run
  let runs := (executeGroups execute stop context alone.2.view 0 grouping.groups).run
  obtain ⟨hentries, hnotExecuted⟩ := Merge.foldl_add_lists (.start alone.1 alone.2) runs
  have hstart : (Merge.start alone.1 alone.2).entries.map Entry.transaction = alone.1.executed := by
    simp [Merge.start, Run.accepted, Run.executed]
  refine ⟨runs.foldl Merge.add (.start alone.1 alone.2), executeGrouped_eq stop base grouping,
    (Merge.ran_start alone.1 alone.2).foldl_add runs, ?_, ?_⟩
  · rw [hentries, hstart, started]
    exact congrArg₂ _ (executeFrom_eq_take 0 (.new base) grouping.sequential).1
      (executeGroups_eq_take alone.2.view grouping.groups).1
  · rw [hnotExecuted, neverStarted]
    exact congrArg₂ _ (executeFrom_eq_take 0 (.new base) grouping.sequential).2
      (executeGroups_eq_take alone.2.view grouping.groups).2

/-- When not all that run alone start, a lasting signal is seen before any group starts. -/
theorem Lasting.started_eq (hstop : Lasting stop) {grouping : Grouping Transaction}
    (hcut : Signal.starts (fun i => stop (.sequential i)) 0 grouping.sequential.length <
      grouping.sequential.length) :
    started stop grouping = grouping.sequential.take
      (Signal.starts (fun i => stop (.sequential i)) 0 grouping.sequential.length) := by
  obtain ⟨i, hi⟩ := exists_of_starts_lt hcut
  have hnone : ∀ x ∈ grouping.groups.zipIdx, x.1.take
      (Signal.starts (fun j => stop (.grouped x.2 j)) 0 x.1.length) = [] := by
    intro x _
    have hfirst : (stop (.grouped x.2 0)).run = true := hstop (.sequential i) _ trivial hi
    rw [@starts_of_first (fun j => stop (.grouped x.2 j)) 0 hfirst, List.take_zero]
  rw [started, List.flatMap_eq_nil_iff.mpr hnone, List.append_nil]

/-- **Every transaction is accounted for.** Wherever a lasting signal to stop is seen, an execution
accounts for each transaction of its grouping, given what the executor was given. -/
theorem executeGrouped_accounted (hstop : Lasting stop) (base : View)
    (grouping : Grouping Transaction) :
    let out := (executeGrouped execute stop context base grouping).run
    ∃ given, ((executeGrouped execute.noting (fun s => return (stop s).run) context base
        grouping).run []).run = (out, given) ∧ Accounted stop grouping given out := by
  intro out
  obtain ⟨g, hout, hran, hentries, hnotExecuted⟩ :=
    @executeGrouped_eq_finish execute context stop base grouping
  have hout' : out = g.finish grouping.withoutContract := hout
  have hperm : (out.executed ++ out.conflicting).Perm (started stop grouping) := by
    rw [hout', Merge.executed_finish, Merge.conflicting_finish, ← List.map_append, ← hentries]
    exact hran.perm.map _
  have hnever : out.notExecuted = neverStarted stop grouping := by
    rw [hout']
    exact hnotExecuted
  refine ⟨started stop grouping, executeGrouped_noting base grouping, ?_⟩
  refine {
    placed := ?_
    finished := out.executed_eq.symm
    results := hout' ▸ hran.results_perm grouping.withoutContract
    given_eq := rfl
    ran := hperm
    notExecuted := hnever
    alone := hstop.started_eq
    cancelled := by simp [Execution.cancelled] }
  rw [hnever]
  exact ((hperm.append_right _).trans (started_append_perm stop grouping)).append_right _

/-- The first group is stopped after one transaction; the other read what that one wrote, and is
rejected. -/
theorem executeGrouped_accounted_copySlot :
    let grouping : Grouping Transaction :=
      ⟨[[.copying "a" "b", .copying "x" "a"], [.copying "b" "c"]], [.copying "c" "a"],
        [.copying "y" "z"]⟩
    let base : View := fun p => if p = ⟨["c"]⟩ then some [7] else none
    let stop : Slot → Id Bool
      | .grouped 0 (_ + 1) => true
      | _ => false
    let out := (executeGrouped copySlot stop default base grouping).run
    Lasting stop ∧ out.executed = [.copying "c" "a", .copying "a" "b"] ∧
      out.conflicting = [.copying "b" "c"] ∧ out.notExecuted = [.copying "x" "a"] ∧
      ∃ given, ((executeGrouped copySlot.noting (fun s => return (stop s).run) default base
        grouping).run []).run = (out, given) ∧ Accounted stop grouping given out := by
  intro grouping base stop out
  have hstop : Lasting stop := by
    rintro (i | ⟨_ | g, _ | i⟩) (j | ⟨h, j⟩) hbefore hs <;> try cases hs
    · exact hbefore.elim
    · obtain ⟨rfl, hlt⟩ := hbefore
      obtain ⟨k, rfl⟩ := Nat.exists_eq_succ_of_ne_zero (Nat.ne_of_gt (Nat.zero_lt_of_lt hlt))
      rfl
  exact ⟨hstop, by decide +kernel, by decide +kernel, by decide +kernel,
    executeGrouped_accounted hstop base grouping⟩

end Accounts

end ChainNode

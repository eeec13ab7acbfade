import ChainNode.Proofs.Execution.Serializability
import Mathlib.Data.List.Basic
import Mathlib.Data.List.Pairwise

/-!
# The merge is a greedy choice

The merge goes through the groups once and keeps those that interfere with none it has kept so far.
It never compares two groups: it compares one group with two sets of paths, by a test for its writes
and another for its reads. `Merge.Covers` says that the sets are the paths of the groups taken in so
far, those and no others, and makes both tests one question about pairs of groups
(`Merge.Covers.conflicts_iff`). Groups that interfere with each other in no way wrote apart, so their
changes may be made in any order.

What an execution hands out are lists that are read off its entries. They are the ones that come of
appending to each list on its own (`executeGrouped_ledger`).
-/

namespace ChainNode

/-! ## Interference -/

namespace Delta

/-- One of two units of work wrote a path that the other one wrote or read. -/
def Interferes (d e : Delta) : Prop :=
  ∃ p, p ∈ d.writes ∧ (p ∈ e.writes ∨ p ∈ e.reads) ∨ p ∈ e.writes ∧ (p ∈ d.writes ∨ p ∈ d.reads)

theorem Interferes.symm {d e : Delta} (h : d.Interferes e) : e.Interferes d := by
  obtain ⟨p, hp⟩ := h
  exact ⟨p, hp.symm⟩

/-- Work that does not interfere wrote different paths, so its changes may be made in either order. -/
theorem extend_comm_of_not_interferes {d e : Delta} (h : ¬ d.Interferes e) (changes : Changes) :
    (changes.extend d.writes).extend e.writes = (changes.extend e.writes).extend d.writes := by
  apply Changes.ext
  intro p
  simp only [Changes.getElem?_extend]
  by_cases hd : p ∈ d.writes
  · have he : p ∉ e.writes := fun he => h ⟨p, .inl ⟨hd, .inl he⟩⟩
    rw [Std.ExtTreeMap.getElem?_eq_none he, Option.none_or, Option.none_or]
  · rw [Std.ExtTreeMap.getElem?_eq_none hd, Option.none_or, Option.none_or]

end Delta

namespace GroupRun

/-- Two groups get on with each other: neither wrote a path that the other one wrote or read. -/
def Apart (r s : GroupRun) : Prop := ¬ r.delta.Interferes s.delta

instance : Std.Symm Apart := ⟨fun _ _ h h' => h h'.symm⟩

/-- The changes of groups that get on with each other come to the same in every order. -/
theorem foldl_extend_eq_of_perm {runs order : List GroupRun} (hruns : runs.Pairwise Apart)
    (h : order.Perm runs) (changes : Changes) :
    order.foldl (fun changes r => changes.extend r.delta.writes) changes =
      runs.foldl (fun changes r => changes.extend r.delta.writes) changes := by
  apply h.foldl_eq'
  intro r hr s hs changes
  by_cases hrs : r = s
  · rw [hrs]
  · exact Delta.extend_comm_of_not_interferes
      (hruns.forall (h.mem_iff.mp hr) (h.mem_iff.mp hs) hrs) changes

end GroupRun

/-! ## What the merge makes of each group -/

namespace Merge

/-- The groups of a merge that goes on, each with whether it is taken in. -/
def judge : Merge → List GroupRun → List (GroupRun × Bool)
  | _, [] => []
  | g, r :: runs => (r, !g.conflicts r.delta) :: (g.add r).judge runs

/-- The groups that are taken in, in order. -/
def taken (judged : List (GroupRun × Bool)) : List GroupRun :=
  (judged.filter Prod.snd).map Prod.fst

/-- The entries of a group by what is made of it: each transaction ends as it ran when the group is
taken in, and all of them end in conflict when it is not. -/
def listed (judged : GroupRun × Bool) : List Entry :=
  judged.1.run.finished.map fun (tx, status) =>
    if judged.2 then ⟨tx, status, .accepted⟩ else ⟨tx, .conflict, .rejected⟩

@[simp] theorem map_fst_judge (g : Merge) (runs : List GroupRun) :
    (g.judge runs).map Prod.fst = runs := by
  induction runs generalizing g with
  | nil => rfl
  | cons r runs ih => rw [judge, List.map_cons, ih]

theorem judge_append (g : Merge) (runs more : List GroupRun) :
    g.judge (runs ++ more) = g.judge runs ++ (runs.foldl add g).judge more := by
  induction runs generalizing g with
  | nil => rfl
  | cons r runs ih => rw [List.cons_append, judge, ih, judge, List.foldl_cons, List.cons_append]

theorem taken_append (judged more : List (GroupRun × Bool)) :
    taken (judged ++ more) = taken judged ++ taken more := by
  simp only [taken, List.filter_append, List.map_append]

/-- The entries of a merge are those of its groups, group by group, by what is made of each. -/
theorem entries_foldl_add (g : Merge) (runs : List GroupRun) :
    (runs.foldl add g).entries = g.entries ++ (g.judge runs).flatMap listed := by
  induction runs generalizing g with
  | nil => exact (List.append_nil _).symm
  | cons r runs ih =>
    rw [List.foldl_cons, ih, judge, List.flatMap_cons, ← List.append_assoc]
    cases hc : g.conflicts r.delta with
    | true =>
      rw [add_of_conflicts hc]
      rfl
    | false =>
      rw [add_of_not_conflicts hc]
      rfl

/-- The changes of a merge are those of the groups taken in, one after the other. -/
theorem changes_foldl_add (g : Merge) (runs : List GroupRun) :
    (runs.foldl add g).state.changes =
      (taken (g.judge runs)).foldl (fun changes r => changes.extend r.delta.writes)
        g.state.changes := by
  induction runs generalizing g with
  | nil => rfl
  | cons r runs ih =>
    rw [List.foldl_cons, ih, judge]
    cases hc : g.conflicts r.delta with
    | true =>
      rw [add_of_conflicts hc]
      rfl
    | false =>
      rw [add_of_not_conflicts hc]
      rfl

/-! ## What the merge knows -/

/-- The paths a merge compares with are those of some groups: the ones they wrote, and the ones they
wrote or read. -/
structure Covers (g : Merge) (groups : List GroupRun) : Prop where
  mem_written : ∀ p, p ∈ g.written ↔ ∃ r ∈ groups, p ∈ r.delta.writes
  mem_touched : ∀ p, p ∈ g.touched ↔ ∃ r ∈ groups, p ∈ r.delta.writes ∨ p ∈ r.delta.reads

theorem covers_start (run : Run) (state : Overlay) : (start run state).Covers [] :=
  ⟨fun _ => ⟨fun hp => absurd hp Std.ExtTreeSet.not_mem_empty, nofun⟩,
    fun _ => ⟨fun hp => absurd hp Std.ExtTreeSet.not_mem_empty, nofun⟩⟩

section Covers
variable {g : Merge} {groups : List GroupRun}

/-- The two tests of the merge together find out whether a group interferes with one of those that
were taken in. -/
theorem Covers.conflicts_iff (h : g.Covers groups) (d : Delta) :
    g.conflicts d = true ↔ ∃ r ∈ groups, d.Interferes r.delta := by
  rw [← Bool.not_eq_false, conflicts_eq_false_iff]
  constructor
  · intro hnot
    by_contra hnone
    refine hnot ⟨fun p hp htouched => ?_, fun p hp hwritten => ?_⟩
    · obtain ⟨r, hr, hrp⟩ := (h.mem_touched p).mp htouched
      exact hnone ⟨r, hr, p, .inl ⟨hp, hrp⟩⟩
    · obtain ⟨r, hr, hrp⟩ := (h.mem_written p).mp hwritten
      exact hnone ⟨r, hr, p, .inr ⟨hrp, .inr hp⟩⟩
  · rintro ⟨r, hr, p, ⟨hp, hrp⟩ | ⟨hrp, hp⟩⟩ ⟨hwrites, hreads⟩
    · exact hwrites p hp ((h.mem_touched p).mpr ⟨r, hr, hrp⟩)
    · rcases hp with hp | hp
      · exact hwrites p hp ((h.mem_touched p).mpr ⟨r, hr, .inl hrp⟩)
      · exact hreads p hp ((h.mem_written p).mpr ⟨r, hr, hrp⟩)

/-- The paths of a group that is taken in are added, those of one that is not are forgotten. -/
theorem Covers.add (h : g.Covers groups) (r : GroupRun) :
    (g.add r).Covers (groups ++ taken [(r, !g.conflicts r.delta)]) := by
  cases hc : g.conflicts r.delta with
  | true =>
    rw [add_of_conflicts hc]
    show Covers _ (groups ++ [])
    rw [List.append_nil]
    exact ⟨h.mem_written, h.mem_touched⟩
  | false =>
    rw [add_of_not_conflicts hc]
    show Covers _ (groups ++ [r])
    constructor
    · intro p
      simp only [Std.ExtTreeSet.mem_insertMany_list, List.contains_iff_mem, Std.ExtTreeMap.mem_keys,
        h.mem_written, List.mem_append, List.mem_singleton, or_and_right, exists_or,
        exists_eq_left]
    · intro p
      simp only [Std.ExtTreeSet.mem_insertMany_list, List.contains_iff_mem, Delta.mem_touched,
        h.mem_touched, List.mem_append, List.mem_singleton, or_and_right, exists_or,
        exists_eq_left]

theorem Covers.foldl_add (h : g.Covers groups) (runs : List GroupRun) :
    (runs.foldl Merge.add g).Covers (groups ++ taken (g.judge runs)) := by
  induction runs generalizing g groups with
  | nil =>
    show g.Covers (groups ++ [])
    rwa [List.append_nil]
  | cons r runs ih =>
    have hnext := ih (h.add r)
    rwa [List.append_assoc, ← taken_append] at hnext

/-- The groups that are taken in get on with each other and with those before. -/
theorem Covers.pairwise_taken (h : g.Covers groups) (hgroups : groups.Pairwise GroupRun.Apart)
    (runs : List GroupRun) :
    (groups ++ taken (g.judge runs)).Pairwise GroupRun.Apart := by
  induction runs generalizing g groups with
  | nil =>
    show (groups ++ []).Pairwise _
    rwa [List.append_nil]
  | cons r runs ih =>
    have hnext := ih (h.add r) (by
      cases hc : g.conflicts r.delta with
      | true =>
        show (groups ++ []).Pairwise _
        rwa [List.append_nil]
      | false =>
        show (groups ++ [r]).Pairwise _
        rw [List.pairwise_append]
        refine ⟨hgroups, List.pairwise_singleton _ _, fun s hs t ht hinterferes => ?_⟩
        rw [List.mem_singleton.mp ht] at hinterferes
        have hconflicts := (h.conflicts_iff r.delta).mpr ⟨s, hs, hinterferes.symm⟩
        rw [hc] at hconflicts
        cases hconflicts)
    rwa [List.append_assoc, ← taken_append] at hnext

/-- A group that is not taken in interferes with one taken in before it. -/
theorem Covers.interferes_of_judge (h : g.Covers groups) {runs : List GroupRun} {r : GroupRun}
    {before after : List (GroupRun × Bool)}
    (hjudge : g.judge runs = before ++ (r, false) :: after) :
    ∃ s ∈ groups ++ taken before, r.delta.Interferes s.delta := by
  have hruns : runs = before.map Prod.fst ++ r :: after.map Prod.fst := by
    rw [← map_fst_judge g runs, hjudge, List.map_append, List.map_cons]
  rw [hruns, judge_append, judge] at hjudge
  obtain ⟨hbefore, hrest⟩ := List.append_inj hjudge (by
    rw [← List.length_map Prod.fst, map_fst_judge, List.length_map])
  have hconflicts := congrArg Prod.snd (List.cons.inj hrest).1
  rw [Bool.not_eq_false'] at hconflicts
  have hcovers := h.foldl_add (before.map Prod.fst)
  rw [hbefore] at hcovers
  exact (hcovers.conflicts_iff r.delta).mp hconflicts

end Covers

end Merge

/-! ## The lists of an execution -/

/-- What an execution hands out about its transactions, each list on its own. -/
structure Ledger where
  results : List Result
  executed : List Transaction
  conflicting : List Transaction
  notExecuted : List Transaction

/-- The lists of an execution, read off its entries. -/
def Execution.ledger (e : Execution) : Ledger :=
  ⟨e.results, e.executed, e.conflicting, e.notExecuted⟩

theorem Execution.ledger_eq (e : Execution) :
    e.ledger = ⟨e.entries.map fun x => ⟨x.transaction.id, x.status⟩,
      (e.entries.filter fun x => x.verdict = .accepted).map Entry.transaction,
      (e.entries.filter fun x => x.verdict = .rejected).map Entry.transaction, e.notExecuted⟩ :=
  rfl

namespace Ledger

/-- The lists before any group. -/
def start (run : Run) : Ledger := ⟨run.results, run.executed, [], run.notStarted⟩

/-- Appends the lists of a group by what is made of it: when it is not taken in, its results are
turned into conflicts and its transactions go to a list of their own. -/
def append (l : Ledger) (judged : GroupRun × Bool) : Ledger :=
  let run := judged.1.run
  let l := { l with notExecuted := l.notExecuted ++ run.notStarted }
  if judged.2 then
    { l with results := l.results ++ run.results, executed := l.executed ++ run.executed }
  else
    { l with
      results := l.results ++ run.results.map fun r => { r with status := .conflict }
      conflicting := l.conflicting ++ run.executed }

/-- Appends the results of the transactions that never run. -/
def finish (l : Ledger) (withoutContract : List Transaction) : Ledger :=
  { l with results := l.results ++ withoutContract.map fun tx => ⟨tx.id, .withoutContract⟩ }

end Ledger

namespace Merge

theorem ledger_start (run : Run) (state : Overlay) :
    ((start run state).finish []).ledger = .start run := by
  simp [Execution.ledger_eq, Ledger.start, finish, start, Run.accepted, Run.results, Run.executed,
    List.filter_map, Function.comp_def]

theorem ledger_finish (g : Merge) (withoutContract : List Transaction) :
    (g.finish withoutContract).ledger = (g.finish []).ledger.finish withoutContract := by
  simp [Execution.ledger_eq, Ledger.finish, finish, List.filter_map, Function.comp_def]

/-- Appending the entries of a group appends its lists. -/
theorem ledger_add (g : Merge) (r : GroupRun) :
    ((g.add r).finish []).ledger = (g.finish []).ledger.append (r, !g.conflicts r.delta) := by
  cases hc : g.conflicts r.delta with
  | true =>
    rw [add_of_conflicts hc]
    simp [Execution.ledger_eq, Ledger.append, finish, Run.rejected, Run.results, Run.executed,
      List.filter_map, Function.comp_def]
  | false =>
    rw [add_of_not_conflicts hc]
    simp [Execution.ledger_eq, Ledger.append, finish, Run.accepted, Run.results, Run.executed,
      List.filter_map, Function.comp_def]

theorem ledger_foldl_add (g : Merge) (runs : List GroupRun) :
    ((runs.foldl add g).finish []).ledger =
      (g.judge runs).foldl Ledger.append (g.finish []).ledger := by
  induction runs generalizing g with
  | nil => rfl
  | cons r runs ih => rw [List.foldl_cons, ih, judge, List.foldl_cons, ledger_add]

end Merge

/-- The lists that an execution reads off its entries are those that come of appending to each list on
its own, group by group. -/
theorem executeGrouped_ledger (execute : Executor Id) (stop : Slot → Id Bool)
    (context : BlockContext) (base : View) (grouping : Grouping Transaction) :
    let first := (executeSequential execute (fun i => stop (.sequential i)) context (.new base)
      grouping.sequential).run
    let runs := (executeGroups execute stop context first.2.view 0 grouping.groups).run
    (executeGrouped execute stop context base grouping).run.ledger =
      (((Merge.start first.1 first.2).judge runs).foldl Ledger.append (.start first.1)).finish
        grouping.withoutContract := by
  intro first runs
  have hout : (executeGrouped execute stop context base grouping).run =
      (runs.foldl Merge.add (.start first.1 first.2)).finish grouping.withoutContract :=
    executeGrouped_eq stop base grouping
  rw [hout, Merge.ledger_finish, Merge.ledger_foldl_add, Merge.ledger_start]

/-! ## Whole executions -/

/-- An execution kept a greedy choice of groups: `first` is what ran before the groups, and `judged`
are the groups in order, each with whether it was kept. -/
structure Execution.Greedy (first : Run × Overlay) (judged : List (GroupRun × Bool))
    (withoutContract : List Transaction) (out : Execution) : Prop where
  /-- Of two groups that were kept, neither wrote a path that the other one wrote or read. -/
  apart : (Merge.taken judged).Pairwise GroupRun.Apart
  /-- A group that was not kept interferes with one that was kept before it. -/
  interferes : ∀ before r after, judged = before ++ (r, false) :: after →
    ∃ s ∈ Merge.taken before, r.delta.Interferes s.delta
  /-- What ran first and the groups that were kept end as they ran; all of a group that was not kept
  ends in conflict. -/
  entries_eq : out.entries = (first.1.finished.map fun (tx, status) => ⟨tx, status, .accepted⟩) ++
    judged.flatMap Merge.listed ++
    withoutContract.map fun tx => ⟨tx, .withoutContract, .withoutContract⟩
  /-- The changes are those made first and then those of the groups that were kept, in any order. -/
  state_eq : ∀ order : List GroupRun, order.Perm (Merge.taken judged) →
    out.state = order.foldl (fun changes r => changes.extend r.delta.writes) first.2.changes

/-- **The merge keeps a greedy choice of groups that do not interfere.** Whatever was declared and
whatever the executor does, each group runs on the state after those that run alone; a group is kept
just when it interferes with no group kept before it, and the others leave no trace in the state. -/
theorem executeGrouped_greedy (execute : Executor Id) (stop : Slot → Id Bool)
    (context : BlockContext) (base : View) (grouping : Grouping Transaction) :
    let first := (executeSequential execute (fun i => stop (.sequential i)) context (.new base)
      grouping.sequential).run
    let runs := grouping.groups.zipIdx.map fun (group, n) =>
      (executeGroup execute (fun j => stop (.grouped n j)) context first.2.view group).run
    ∃ judged : List (GroupRun × Bool), judged.map Prod.fst = runs ∧
      (executeGrouped execute stop context base grouping).run.Greedy first judged
        grouping.withoutContract := by
  intro first runs
  have hruns : (executeGroups execute stop context first.2.view 0 grouping.groups).run = runs :=
    executeGroups_eq_map stop first.2.view 0 grouping.groups
  have hout : (executeGrouped execute stop context base grouping).run =
      (runs.foldl Merge.add (.start first.1 first.2)).finish grouping.withoutContract := by
    rw [← hruns]
    exact executeGrouped_eq stop base grouping
  have hstart := Merge.covers_start first.1 first.2
  have hapart := hstart.pairwise_taken List.Pairwise.nil runs
  refine ⟨(Merge.start first.1 first.2).judge runs, Merge.map_fst_judge _ _, ?_⟩
  rw [hout]
  exact {
    apart := hapart
    interferes := fun before r after hjudge => hstart.interferes_of_judge hjudge
    entries_eq := by
      rw [Merge.finish, Merge.entries_foldl_add]
      rfl
    state_eq := fun order horder => by
      rw [GroupRun.foldl_extend_eq_of_perm hapart horder]
      exact Merge.changes_foldl_add _ _ }

/-- The second group read what the first one wrote, so it is not kept and its transaction ends in
conflict. The third group interferes only with the second, and so it is kept. -/
theorem executeGrouped_greedy_copying :
    let base : View := fun p => if p = ⟨["x"]⟩ ∨ p = ⟨["b"]⟩ then some [7] else none
    let out := (executeGrouped copySlot (fun _ => false) default base
      ⟨[[.copying "x" "a"], [.copying "a" "b"], [.copying "b" "c"]], [], []⟩).run
    out.entries = [⟨.copying "x" "a", .mined, .accepted⟩, ⟨.copying "a" "b", .conflict, .rejected⟩,
        ⟨.copying "b" "c", .mined, .accepted⟩] ∧
      ∃ first judged, out.Greedy first judged [] ∧
        ∃ before r after, judged = before ++ (r, false) :: after ∧
          ∃ s ∈ Merge.taken before, r.delta.Interferes s.delta := by
  intro base out
  have hentries : out.entries = [⟨.copying "x" "a", .mined, .accepted⟩,
      ⟨.copying "a" "b", .conflict, .rejected⟩, ⟨.copying "b" "c", .mined, .accepted⟩] := by
    decide +kernel
  obtain ⟨judged, -, hgreedy⟩ := executeGrouped_greedy copySlot (fun _ => false) default base
    ⟨[[.copying "x" "a"], [.copying "a" "b"], [.copying "b" "c"]], [], []⟩
  refine ⟨hentries, _, judged, hgreedy, ?_⟩
  -- the entry in conflict is that of a group, and of one that was not kept
  have hmem : (⟨.copying "a" "b", .conflict, .rejected⟩ : Entry) ∈ out.entries := by
    rw [hentries]
    simp
  rw [hgreedy.entries_eq, List.map_nil, List.append_nil, List.mem_append, List.mem_flatMap] at hmem
  obtain hmem | ⟨⟨r, kept⟩, hr, hmem⟩ := hmem
  · obtain ⟨x, -, hx⟩ := List.mem_map.mp hmem
    cases (Entry.mk.inj hx).2.2
  · obtain ⟨x, -, hx⟩ := List.mem_map.mp hmem
    cases kept with
    | true => cases (Entry.mk.inj hx).2.2
    | false =>
      obtain ⟨before, after, hjudged⟩ := List.append_of_mem hr
      exact ⟨before, r, after, hjudged, hgreedy.interferes before r after hjudged⟩

end ChainNode

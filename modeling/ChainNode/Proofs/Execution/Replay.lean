import ChainNode.Execution.Sequential
import ChainNode.Proofs.State.Layering

/-!
# Replaying transactions

`replay` runs transactions one after the other on an overlay, with nothing to stop them and nothing
recorded but how each ended and what they left. Executing a list is measured against it: what ran
before the signal to stop replays to the same results and the same state (`replay_executed`). An
executor is faithful when its outcome is settled by the slots it reports as read; what a group
recorded as read then settles how its transactions replay over another state
(`Faithful.replay_group`).

Executors are functions here, and the signal to stop is any function of the position, so every way
to cut a list short is covered.
-/

namespace ChainNode

/-- Transactions one after the other: how each of them ended, and the state they leave. -/
def replay (execute : Executor Id) (context : BlockContext) :
    Overlay → List Transaction → List (Transaction × Status) × Overlay
  | state, [] => ([], state)
  | state, tx :: rest =>
    let outcome := (execute context state.view tx).run
    let after := replay execute context (state.apply outcome.effect) rest
    ((tx, outcome.status) :: after.1, after.2)

/-- The outcome of a transaction depends on the block's context, the transaction and what is stored
at the paths that the outcome itself reports as read. -/
def Faithful (execute : Executor Id) : Prop :=
  ∀ context v w tx, (∀ p ∈ (execute context v tx).run.reads, v p = w p) →
    (execute context w tx).run = (execute context v tx).run

/-- An executor of transactions that copy a slot, named by the sender, to another, named by the
contract; they fail where nothing is stored. -/
def copySlot : Executor Id := fun _ view tx =>
  let content := view ⟨[tx.sender]⟩
  { status := if content.isSome then .mined else .failed "nothing to copy"
    reads := {⟨[tx.sender]⟩}
    writes := .ofList [(⟨[tx.contract]⟩, content)] }

/-- A transaction for `copySlot`. -/
def Transaction.copying (source target : String) : Transaction := ⟨source, target, 0, "", []⟩

theorem faithful_copySlot : Faithful copySlot := by
  intro context v w tx h
  have hread : v ⟨[tx.sender]⟩ = w ⟨[tx.sender]⟩ := by
    apply h
    simp [copySlot, Id.run]
  simp only [copySlot, Id.run, hread]

section Replay
variable {execute : Executor Id} {context : BlockContext}

/-! ## Replays in parts -/

@[simp] theorem replay_base (state : Overlay) (txs : List Transaction) :
    (replay execute context state txs).2.base = state.base := by
  induction txs generalizing state with
  | nil => rfl
  | cons tx rest ih =>
    rw [replay]
    exact ih _

/-- Every transaction of a replay runs, in order. -/
@[simp] theorem map_fst_replay (state : Overlay) (txs : List Transaction) :
    (replay execute context state txs).1.map Prod.fst = txs := by
  induction txs generalizing state with
  | nil => rfl
  | cons tx rest ih =>
    rw [replay, List.map_cons, ih]

theorem replay_append (state : Overlay) (xs ys : List Transaction) :
    replay execute context state (xs ++ ys) =
      ((replay execute context state xs).1 ++
          (replay execute context (replay execute context state xs).2 ys).1,
        (replay execute context (replay execute context state xs).2 ys).2) := by
  induction xs generalizing state with
  | nil => rfl
  | cons tx rest ih =>
    rw [List.cons_append, replay, ih]
    rfl

/-- Changes below those of a replay may as well be part of the view it starts from. -/
theorem replay_extend (base : View) (below changes : Changes) (txs : List Transaction) :
    replay execute context ⟨base, below.extend changes⟩ txs =
      ((replay execute context ⟨below.onto base, changes⟩ txs).1,
        ⟨base, below.extend (replay execute context ⟨below.onto base, changes⟩ txs).2.changes⟩) := by
  induction txs generalizing changes with
  | nil => rfl
  | cons tx rest ih =>
    have hview : (⟨base, below.extend changes⟩ : Overlay).view =
        (⟨below.onto base, changes⟩ : Overlay).view :=
      Changes.onto_extend below changes base
    rw [replay, replay]
    simp only [hview, Overlay.apply, Changes.extend_assoc]
    rw [ih]

/-- A replay on an overlay is a replay on no changes over its view, applied to it. -/
theorem replay_eq_apply (state : Overlay) (txs : List Transaction) :
    replay execute context state txs =
      ((replay execute context (.new state.view) txs).1,
        state.apply (replay execute context (.new state.view) txs).2.changes) := by
  have h := @replay_extend execute context state.base state.changes ∅ txs
  rwa [Changes.extend_empty] at h

/-! ## Lists that may be cut short -/

section Stop
variable {stop : Signal Id}

theorem executeFrom_cons (i : Nat) (state : Overlay) (tx : Transaction) (rest : List Transaction) :
    (executeFrom execute stop context i state (tx :: rest)).run =
      if (stop i).run then (⟨[], tx :: rest⟩, state)
      else
        let outcome := (execute context state.view tx).run
        let after := (executeFrom execute stop context (i + 1) (state.apply outcome.effect) rest).run
        (after.1.cons tx outcome.status, after.2) :=
  rfl

theorem executeGroupFrom_cons (i : Nat) (state : Layered) (tx : Transaction)
    (rest : List Transaction) :
    (executeGroupFrom execute stop context i state (tx :: rest)).run =
      if (stop i).run then (⟨[], tx :: rest⟩, state)
      else
        let outcome := (execute context state.view tx).run
        let after :=
          (executeGroupFrom execute stop context (i + 1) (state.commit outcome.delta) rest).run
        (after.1.cons tx outcome.status, after.2) :=
  rfl

@[simp] theorem executed_cons (tx : Transaction) (status : Status) (r : Run) :
    (r.cons tx status).executed = tx :: r.executed := rfl

/-- What ran of a list replays to the same results and the same state. -/
theorem replay_executed (i : Nat) (state : Overlay) (txs : List Transaction) :
    replay execute context state (executeFrom execute stop context i state txs).run.1.executed =
      ((executeFrom execute stop context i state txs).run.1.finished,
        (executeFrom execute stop context i state txs).run.2) := by
  induction txs generalizing i state with
  | nil => rfl
  | cons tx rest ih =>
    rw [executeFrom_cons]
    by_cases h : (stop i).run = true
    · rw [if_pos h]
      rfl
    · rw [if_neg h, executed_cons, replay, ih]
      rfl

end Stop

/-- With nothing to stop it, a list is replayed. -/
theorem executeFrom_never (i : Nat) (state : Overlay) (txs : List Transaction) :
    (executeFrom execute .never context i state txs).run =
      (⟨(replay execute context state txs).1, []⟩, (replay execute context state txs).2) := by
  induction txs generalizing i state with
  | nil => rfl
  | cons tx rest ih =>
    rw [executeFrom_cons, if_neg (show ¬ (Signal.never (m := Id) i).run = true from nofun)]
    simp only [ih, replay]
    rfl

theorem executeSequential_never (state : Overlay) (txs : List Transaction) :
    (executeSequential execute .never context state txs).run =
      (⟨(replay execute context state txs).1, []⟩, (replay execute context state txs).2) :=
  executeFrom_never 0 state txs

/-! ## Groups -/

section Group
variable {stop : Signal Id}

/-- What a layer has recorded as read stays recorded. -/
theorem mem_reads_executeGroupFrom (i : Nat) {state : Layered} (txs : List Transaction) {p : Path}
    (hp : p ∈ state.delta.reads) :
    p ∈ (executeGroupFrom execute stop context i state txs).run.2.delta.reads := by
  induction txs generalizing i state with
  | nil => exact hp
  | cons tx rest ih =>
    rw [executeGroupFrom_cons]
    by_cases h : (stop i).run = true
    · rw [if_pos h]
      exact hp
    · rw [if_neg h]
      exact ih (i + 1) (Delta.mem_extend_reads.mpr (.inl hp))

/-- What a group records stays within paths that the outcomes of its transactions keep to. -/
theorem executeGroupFrom_within {within : Path → Prop} {txs : List Transaction}
    (htxs : ∀ tx ∈ txs, ∀ v, (∀ p ∈ (execute context v tx).run.reads, within p) ∧
      ∀ p ∈ (execute context v tx).run.effect, within p) (i : Nat) (state : Layered)
    (hstate : ∀ p ∈ state.delta.touched, within p) :
    ∀ p ∈ (executeGroupFrom execute stop context i state txs).run.2.delta.touched, within p := by
  induction txs generalizing i state with
  | nil => exact hstate
  | cons tx rest ih =>
    rw [executeGroupFrom_cons]
    by_cases h : (stop i).run = true
    · rw [if_pos h]
      exact hstate
    · rw [if_neg h]
      apply ih fun tx' htx' => htxs tx' (List.mem_cons_of_mem tx htx')
      intro p hp
      obtain ⟨hreads, hwrites⟩ := htxs tx List.mem_cons_self state.view
      rcases Delta.mem_touched.mp hp with hp | hp
      · rcases Delta.mem_extend_writes.mp hp with hp | hp
        · exact hstate p (Delta.mem_touched.mpr (.inl hp))
        · exact hwrites p hp
      · rcases Delta.mem_extend_reads.mp hp with hp | ⟨hp, _⟩
        · exact hstate p (Delta.mem_touched.mpr (.inr hp))
        · exact hreads p hp

/-- **Recorded reads settle a replay.** Where the state differs from the view a group ran on only at
paths that are not among its recorded reads, the group's transactions replay to the same results and
make the same changes. -/
theorem Faithful.replay_group (hf : Faithful execute) (differs : Path → Prop) (below : Changes)
    (i : Nat) (layer : Layered) (state : Overlay) (txs : List Transaction)
    (hchanges : state.changes = below.extend layer.delta.writes)
    (hview : ∀ p, p ∈ layer.delta.writes ∨ ¬ differs p → layer.view p = state.view p)
    (hreads : ∀ p ∈ (executeGroupFrom execute stop context i layer txs).run.2.delta.reads,
      ¬ differs p) :
    replay execute context state (executeGroupFrom execute stop context i layer txs).run.1.executed =
      ((executeGroupFrom execute stop context i layer txs).run.1.finished,
        ⟨state.base,
          below.extend (executeGroupFrom execute stop context i layer txs).run.2.delta.writes⟩) := by
  induction txs generalizing i layer state with
  | nil =>
    show ([], state) = ([], (⟨state.base, below.extend layer.delta.writes⟩ : Overlay))
    rw [← hchanges]
  | cons tx rest ih =>
    rw [executeGroupFrom_cons] at hreads ⊢
    by_cases h : (stop i).run = true
    · rw [if_pos h]
      show ([], state) = ([], (⟨state.base, below.extend layer.delta.writes⟩ : Overlay))
      rw [← hchanges]
    · rw [if_neg h] at hreads ⊢
      let outcome := (execute context layer.view tx).run
      -- A read that the layer does not record was of a slot the group itself had written.
      have hagree : ∀ p ∈ outcome.reads, layer.view p = state.view p := by
        intro p hp
        by_cases hw : p ∈ layer.delta.writes
        · exact hview p (.inl hw)
        · have hrec : p ∈ (layer.commit outcome.delta).delta.reads :=
            Delta.mem_extend_reads.mpr (.inr ⟨hp, hw⟩)
          exact hview p (.inr (hreads p (mem_reads_executeGroupFrom _ _ hrec)))
      have hsame : (execute context state.view tx).run = outcome :=
        hf context layer.view state.view tx hagree
      have hnext := ih (i + 1) (layer.commit outcome.delta) (state.apply outcome.effect)
        (by
          rw [Overlay.apply, hchanges, Changes.extend_assoc]
          rfl)
        (by
          intro p hp
          rw [Layered.view_commit, Overlay.view_apply]
          apply Changes.onto_congr
          intro hnot
          apply hview p
          rcases hp with hp | hp
          · exact .inl ((Delta.mem_extend_writes.mp hp).resolve_right hnot)
          · exact .inr hp)
        hreads
      rw [executed_cons, replay, hsame]
      exact congrArg (fun after => ((tx, outcome.status) :: after.1, after.2)) hnext

end Group

end Replay

end ChainNode

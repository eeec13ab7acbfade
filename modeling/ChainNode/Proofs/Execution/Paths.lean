import ChainNode.Proofs.Execution.Replay

/-!
# The two paths agree

A list of transactions runs on an overlay when it must run alone and on a layer when it is a group.
A layer with its reads left out is an overlay (`Layered.overlay`), and a transaction that is taken up
by the one is taken up by the other, so both paths show every transaction the same view, whatever the
ones before it did. The monad stays open: the executor may have effects, and the signal to stop may
depend on them; both paths then have the same effects in the same order.
-/

namespace ChainNode

/-! ## A layer as an overlay -/

namespace Layered

/-- A layer without what it knows of reads. -/
def overlay (l : Layered) : Overlay := ⟨l.base, l.delta.writes⟩

@[simp] theorem overlay_new (base : View) : (new base).overlay = .new base := rfl

@[simp] theorem view_overlay (l : Layered) : l.overlay.view = l.view := rfl

@[simp] theorem overlay_commit (l : Layered) (delta : Delta) :
    (l.commit delta).overlay = l.overlay.apply delta.writes := rfl

end Layered

/-! ## Step by step -/

section Monadic
variable {m : Type → Type} [Monad m] [LawfulMonad m] {execute : Executor m} {stop : Signal m}
  {context : BlockContext}

/-- Running on a layer and leaving out the reads is running on an overlay. -/
theorem overlay_executeGroupFrom (i : Nat) (layer : Layered) (txs : List Transaction) :
    (fun after => (after.1, after.2.overlay)) <$> executeGroupFrom execute stop context i layer txs =
      executeFrom execute stop context i layer.overlay txs := by
  induction txs generalizing i layer with
  | nil => simp only [executeGroupFrom, executeFrom, map_pure]
  | cons tx rest ih =>
    simp only [executeGroupFrom, executeFrom, map_bind]
    apply bind_congr
    intro stopped
    cases stopped with
    | true => simp only [if_true, map_pure]
    | false =>
      simp only [Bool.false_eq_true, if_false, map_bind, map_pure, Layered.view_overlay]
      apply bind_congr
      intro outcome
      -- What is left of the list starts on the overlay of the layer it starts on.
      have hrest := ih (i + 1) (layer.commit outcome.delta)
      rw [Layered.overlay_commit] at hrest
      show _ = executeFrom execute stop context (i + 1)
        (layer.overlay.apply outcome.delta.writes) rest >>= _
      rw [← hrest, bind_map_left]

end Monadic

/-- Keeping a layer instead of an overlay changes neither what runs nor what is written. -/
theorem executeGroupFrom_eq_executeFrom {execute : Executor Id} {context : BlockContext}
    {stop : Signal Id} (i : Nat) (layer : Layered) (txs : List Transaction) :
    (executeGroupFrom execute stop context i layer txs).run.1 =
        (executeFrom execute stop context i layer.overlay txs).run.1 ∧
      (executeGroupFrom execute stop context i layer txs).run.2.delta.writes =
        (executeFrom execute stop context i layer.overlay txs).run.2.changes := by
  rw [← overlay_executeGroupFrom]
  exact ⟨rfl, rfl⟩

/-! ## Whole lists -/

/-- **A list runs the same on either path.** For every executor, faithful or not, and every signal to
stop, a group over a view and the same list on a fresh overlay over that view have the same results,
the same transactions that ran and the same that never started, and the group's writes are the
overlay's changes. -/
theorem executeGroup_agrees_executeSequential {m : Type → Type} [Monad m] [LawfulMonad m]
    (execute : Executor m) (stop : Signal m) (context : BlockContext) (base : View)
    (txs : List Transaction) :
    (fun group => (group.run, group.delta.writes)) <$>
        executeGroup execute stop context base txs =
      (fun after => (after.1, after.2.changes)) <$>
        executeSequential execute stop context (.new base) txs := by
  rw [executeSequential, ← Layered.overlay_new, ← overlay_executeGroupFrom, Functor.map_map,
    executeGroup, map_bind]
  simp only [map_pure, bind_pure_comp]
  rfl

/-- A transaction that fails is followed by a signal that counts what has run. -/
theorem executeGroup_agrees_executeSequential_copySlot :
    let execute : Executor (StateM Nat) := fun context view tx => do
      modify (· + 1)
      return (copySlot context view tx).run
    let stop : Signal (StateM Nat) := fun _ => return (← get) == 2
    let base : View := fun p => if p = ⟨["a"]⟩ then some [7] else none
    let txs := [.copying "a" "b", .copying "x" "y", .copying "b" "c"]
    ((executeGroup execute stop default base txs).run 0).run.1.run =
        ⟨[(.copying "a" "b", .mined), (.copying "x" "y", .failed "nothing to copy")],
          [.copying "b" "c"]⟩ ∧
      (fun group => (group.run, group.delta.writes)) <$> executeGroup execute stop default base txs =
        (fun after => (after.1, after.2.changes)) <$>
          executeSequential execute stop default (.new base) txs :=
  ⟨by decide +kernel, executeGroup_agrees_executeSequential _ _ _ _ _⟩

end ChainNode

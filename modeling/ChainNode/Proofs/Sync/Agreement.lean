import ChainNode.Proofs.Sync.Attaching

/-!
# The best chain follows the longest

A block raises the longest chain when it is attached, and the best chain when it is executed. Blocks
are executed in the order in which they were attached: a block that was attached waits for that, first
with the attach queue that hands it over, then on the update queue (`Node.awaiting`). So the longest
chain is what the best chain becomes once all that wait have raised it, and nothing but the waiting
blocks keeps the two apart (`Node.Agreeing`).
-/

namespace ChainNode

namespace BlockTree

/-- A tip, or the block with a hash if that is higher. -/
def raise (t : BlockTree) (tip : Tip) (hash : Hash) : Tip :=
  match t.blocks[hash]? with
  | some b => tip.higher b.tip
  | none => tip

theorem raise_of_getElem? {t : BlockTree} {hash : Hash} {b : Block} (h : t.blocks[hash]? = some b)
    (tip : Tip) : t.raise tip hash = tip.higher b.tip := by
  rw [raise, h]

theorem raise_congr {t t' : BlockTree} {hash : Hash} (h : t'.blocks[hash]? = t.blocks[hash]?)
    (tip : Tip) : t'.raise tip hash = t.raise tip hash := by
  rw [raise, h, raise]

/-- Only the last irreversible block is ever changed by others. -/
theorem askIrreversible_eq (hash : Hash) (t : BlockTree) :
    ∃ tip, askIrreversible hash t = { t with heads := { t.heads with irreversible := tip } } := by
  rw [askIrreversible, setIrreversible]
  split
  · exact ⟨t.heads.irreversible, rfl⟩
  · exact ⟨_, rfl⟩

end BlockTree

namespace Work

/-- The block that a piece of work is to execute. -/
def updates? : Work → Option Hash
  | update hash _ => some hash
  | _ => none

/-- The block that a piece of work has stored and is to hand over. -/
def handsOver? : Work → Option Hash
  | handOver a => some a.block.hash
  | _ => none

end Work

namespace Node

variable {n m : Node BlockTree}

/-- The stored blocks that wait to be executed, in order. -/
def awaiting (n : Node BlockTree) : List Hash :=
  (n.pipeline.lane .update).works.filterMap Work.updates? ++
    ((n.pipeline.lane .attach).running.bind Work.handsOver?).toList

theorem awaiting_eq (n : Node BlockTree) : n.awaiting =
    ((n.pipeline.lane .update).running.bind Work.updates?).toList ++
      (n.pipeline.lane .update).waiting.filterMap Work.updates? ++
        ((n.pipeline.lane .attach).running.bind Work.handsOver?).toList := by
  rw [awaiting, Lane.works, List.filterMap_append]
  cases (n.pipeline.lane .update).running with
  | none => rfl
  | some w => cases w <;> rfl

theorem mem_awaiting {hash : Hash} : hash ∈ n.awaiting ↔
    (∃ c, .update hash c ∈ (n.pipeline.lane .update).works) ∨
      ∃ a, (n.pipeline.lane .attach).running = some (.handOver a) ∧ a.block.hash = hash := by
  rw [awaiting, List.mem_append, List.mem_filterMap]
  refine or_congr ?_ ?_
  · constructor
    · rintro ⟨w, hw, h⟩
      cases w <;> cases h
      exact ⟨_, hw⟩
    · rintro ⟨c, hc⟩
      exact ⟨_, hc, rfl⟩
  · rw [Option.mem_toList, Option.bind_eq_some_iff]
    constructor
    · rintro ⟨w, hw, h⟩
      cases w <;> simp only [Work.handsOver?, reduceCtorEq, Option.some.injEq] at h
      exact ⟨_, hw, h⟩
    · rintro ⟨a, ha, rfl⟩
      exact ⟨_, ha, rfl⟩

/-- Every stored block is executed or waits for it, and the best chain becomes the longest once all
that wait have raised it. -/
structure Agreeing (n : Node BlockTree) : Prop where
  guarded : n.Guarded
  tree : n.chain.WellFormed
  executed : ∀ h ∈ n.chain.blocks, h ∈ n.chain.executed ∨ h ∈ n.awaiting
  stored : ∀ h ∈ n.awaiting, h ∈ n.chain.blocks
  longest : n.awaiting.foldl n.chain.raise n.chain.heads.best = n.chain.heads.longest

theorem agreeing_new (settings : SyncSettings) (now : Instant) {tree : BlockTree}
    (htree : tree.WellFormed) (hs : tree.Settled) : (new settings now tree).Agreeing where
  guarded := guarded_new settings now tree
  tree := htree
  executed h hh := .inl (hs.executed h hh)
  stored h hh := by simp [awaiting, new, Pipeline.empty, Pipeline.lane, Lane.works, Lane.waiting] at hh
  longest := hs.best_eq

/-- As long as the tree and what waits are the same, nothing is to be shown. -/
theorem Agreeing.congr (h : n.Agreeing) (hguarded : m.Guarded) (hchain : m.chain = n.chain)
    (hawaiting : m.awaiting = n.awaiting) : m.Agreeing where
  guarded := hguarded
  tree := hchain ▸ h.tree
  executed := by rw [hchain, hawaiting]; exact h.executed
  stored := by rw [hchain, hawaiting]; exact h.stored
  longest := by rw [hchain, hawaiting]; exact h.longest

/-- A block that is stored is the last to wait. -/
theorem Agreeing.store (h : n.Agreeing) {a : Attachment} {height : UInt64}
    (hr : (n.pipeline.lane .attach).running = some (.store a height))
    (hprevious : a.block.previous ∈ n.chain.blocks) (hguarded : m.Guarded)
    (hchain : m.chain = n.chain.grown a.block)
    (hawaiting : m.awaiting = n.awaiting ++ [a.block.hash]) : m.Agreeing where
  guarded := hguarded
  tree := hchain ▸ h.tree.grown hprevious
  executed hash hh := by
    rw [hchain] at hh ⊢
    rw [hawaiting, List.mem_append, List.mem_singleton]
    obtain rfl | hh := BlockTree.mem_grown.mp hh
    · exact .inr (.inr rfl)
    · exact (h.executed hash hh).imp_right .inl
  stored hash hh := by
    rw [hchain, BlockTree.mem_grown]
    rw [hawaiting, List.mem_append, List.mem_singleton] at hh
    exact hh.symm.imp Eq.symm (h.stored hash)
  longest := by
    have hnew := (h.guarded.store a height hr).1
    have hold : n.awaiting.foldl m.chain.raise n.chain.heads.best = n.chain.heads.longest := by
      rw [← h.longest]
      apply List.foldl_ext
      intro tip hash hh
      apply BlockTree.raise_congr
      rw [hchain, BlockTree.getElem?_grown, if_neg]
      rintro rfl
      exact hnew (h.stored _ hh)
    have hb : m.chain.blocks[a.block.hash]? = some a.block := by
      rw [hchain, BlockTree.getElem?_grown, if_pos rfl]
    rw [hawaiting, List.foldl_append, List.foldl_cons, List.foldl_nil,
      show m.chain.heads.best = n.chain.heads.best by rw [hchain]; rfl, hold,
      BlockTree.raise_of_getElem? hb, hchain]
    rfl

/-- The block that has waited longest is executed. -/
theorem Agreeing.update (h : n.Agreeing) {hash : Hash} {rest : List Hash}
    (hawaiting : n.awaiting = hash :: rest) (hguarded : m.Guarded)
    (hchain : m.chain = (n.chain.update hash).2) (hrest : m.awaiting = rest) : m.Agreeing := by
  obtain ⟨b, hb⟩ := BlockTree.mem_blocks_iff.mp (h.stored hash (hawaiting ▸ List.mem_cons_self))
  obtain ⟨executed, heq, hwf, hmono, hmem⟩ := h.tree.update hb
  rw [heq] at hchain
  refine ⟨hguarded, hchain ▸ hwf.congr rfl rfl, ?_, ?_, ?_⟩
  · intro k hk
    rw [hchain] at hk ⊢
    obtain hk | hk := h.executed k hk
    · exact .inl (hmono k hk)
    · rw [hawaiting] at hk
      obtain rfl | hk := List.mem_cons.mp hk
      · exact .inl hmem
      · exact .inr (hrest ▸ hk)
  · intro k hk
    rw [hchain]
    exact h.stored k (hawaiting ▸ List.mem_cons_of_mem _ (hrest ▸ hk))
  · have hlongest := h.longest
    rw [hawaiting, List.foldl_cons, BlockTree.raise_of_getElem? hb] at hlongest
    rw [hrest, hchain, ← hlongest]
    rfl

theorem Agreeing.attachStep (h : n.Agreeing) (hguarded : m.Guarded) (hm : n.AttachStep m) :
    m.Agreeing := by
  cases hm with
  | @receive p hp =>
    refine h.congr hguarded rfl ?_
    have hnone : (p.lane .attach).running.bind Work.handsOver? = none := by
      rw [Option.bind_eq_none_iff]
      intro w hw
      have hfresh := h.guarded.inPlace.holds.running_receive hp hw
      cases w <;> first | rfl | exact hfresh.elim
    simp only [awaiting, hnone, (Pipeline.receive_cases hp).1,
      ((Pipeline.receive_cases hp).2.2.2 .update nofun).1, Option.bind_none]
  | finish hr | known hr | unknown hr | accept hr | reject hr | orphan hr =>
    refine h.congr hguarded (by simp) ?_
    simp [awaiting_eq, hr, pipeline_complete, Work.handsOver?, Work.done, Work.failed]
  | store hr hprevious =>
    refine h.store hr hprevious hguarded rfl ?_
    simp [awaiting_eq, hr, Work.handsOver?]
  | handOver hr =>
    refine h.congr hguarded rfl ?_
    simp [awaiting_eq, hr, Work.handsOver?, Work.updates?, Work.done]

/-- The running work of the update queue does not fail. -/
theorem Agreeing.update_ok (h : n.Agreeing) {hash : Hash} {c : Option Completion}
    (hr : (n.pipeline.lane .update).running = some (.update hash c)) :
    (n.chain.update hash).1 = .ok () := by
  have hmem : hash ∈ n.chain.blocks := by
    apply h.stored
    simp [awaiting_eq, hr, Work.updates?]
  obtain ⟨b, hb⟩ := BlockTree.mem_blocks_iff.mp hmem
  obtain ⟨executed, heq, -⟩ := h.tree.update hb
  rw [heq]

theorem Agreeing.updateStep (h : n.Agreeing) (hguarded : m.Guarded) (hm : n.UpdateStep m) :
    m.Agreeing := by
  cases hm with
  | receive hp =>
    refine h.congr hguarded rfl ?_
    simp only [awaiting, Pipeline.works_receive hp,
      ((Pipeline.receive_cases hp).2.2.2 .attach nofun).1]
  | finish hr | report hr =>
    refine h.congr hguarded (by simp) ?_
    simp [awaiting_eq, hr, pipeline_complete, Work.updates?, Work.done]
  | @update hash c hr hok =>
    refine h.update (?_ : n.awaiting = hash :: _) hguarded rfl rfl
    simp [awaiting_eq, hr, Work.updates?]
  | fail hr he =>
    rw [h.update_ok hr] at he
    cases he

theorem agreeing_step (h : n.Agreeing) {e : Event Hash}
    (hstep : step BlockTree.askIrreversible n e = some m) : m.Agreeing := by
  have hguarded := guarded_step h.guarded hstep
  cases h.guarded.inPlace.affects hstep with
  | attach hm => exact h.attachStep hguarded hm
  | update hm => exact h.updateStep hguarded hm
  | feed _ hm =>
    refine h.congr hguarded hm.chain ?_
    simp only [awaiting_eq, hm.running .attach nofun, hm.running .update nofun, hm.waiting]
  | chain change =>
    obtain ⟨tip, htip⟩ := BlockTree.askIrreversible_eq change n.chain
    rw [htip] at hguarded ⊢
    exact ⟨hguarded, h.tree.congr rfl rfl, h.executed, h.stored, h.longest⟩

theorem agreeing_run (h : n.Agreeing) {events : List (Event Hash)}
    (hrun : run BlockTree.askIrreversible n events = some m) : m.Agreeing :=
  run_invariant (fun _ _ _ _ hk hstep => agreeing_step hk hstep) h hrun

theorem Agreeing.of_idle (h : n.Agreeing) (hidle : n.pipeline.Idle) : n.chain.Settled := by
  have hnone : n.awaiting = [] := by
    rw [List.eq_nil_iff_forall_not_mem]
    intro hash hh
    obtain ⟨c, hc⟩ | ⟨a, ha, -⟩ := mem_awaiting.mp hh
    · rw [hidle .update] at hc
      cases hc
    · have hworks := hidle .attach
      simp [Lane.works, ha] at hworks
  refine ⟨fun hash hh => ?_, ?_⟩
  · simpa [hnone] using h.executed hash hh
  · simpa [hnone] using h.longest

/-- A node starts with a tree made from some blocks. Whatever happens then, each stored block is
executed, or its execution is enqueued or running, or the running work of the attach queue has just
stored it. When no queue has work, all blocks are executed, and the best chain is the longest. -/
theorem best_eq_longest_of_idle (genesis : Block) (blocks : List Block) {tree : BlockTree}
    (htree : BlockTree.ofBlocks genesis blocks = .ok tree) (settings : SyncSettings) (now : Instant)
    (events : List (Event Hash)) {n : Node BlockTree}
    (hrun : run BlockTree.askIrreversible (new settings now tree) events = some n) :
    (∀ hash ∈ n.chain.blocks, hash ∈ n.chain.executed ∨
      (∃ c, .update hash c ∈ (n.pipeline.lane .update).works) ∨
      ∃ a, (n.pipeline.lane .attach).running = some (.handOver a) ∧ a.block.hash = hash) ∧
    (n.pipeline.Idle →
      (∀ hash ∈ n.chain.blocks, hash ∈ n.chain.executed) ∧
        n.chain.heads.best.hash = n.chain.heads.longest.hash ∧
        n.chain.heads.best.height = n.chain.heads.longest.height) := by
  obtain ⟨hwf, hs⟩ := BlockTree.settled_ofBlocks htree
  have h := agreeing_run (agreeing_new settings now hwf hs) hrun
  refine ⟨fun hash hh => (h.executed hash hh).imp_right mem_awaiting.mp, fun hidle => ?_⟩
  obtain ⟨hexecuted, hbest⟩ := h.of_idle hidle
  exact ⟨hexecuted, by rw [hbest], by rw [hbest]⟩

/-- A pushed block has gone through all queues and is the end of both chains. -/
theorem best_eq_longest_of_idle_push :
    let b := Block.make (Block.genesis 0).hash 2 0 []
    let tree := BlockTree.new (.genesis 0)
    let events := Event.push b "peer" :: List.replicate 6 (.queue .attach) ++
      List.replicate 4 (.queue .update)
    ∃ n, run BlockTree.askIrreversible (new default 0 tree) events = some n ∧ n.pipeline.Idle ∧
      b.hash ∈ n.chain.executed ∧ n.chain.heads.best.hash = n.chain.heads.longest.hash ∧
      n.chain.heads.best.height = n.chain.heads.longest.height := by
  intro b tree events
  obtain ⟨n, hrun, hidle, hb⟩ : ∃ n,
      run BlockTree.askIrreversible (new default 0 tree) events = some n ∧ n.pipeline.Idle ∧
        b.hash ∈ n.chain.blocks := by
    have h : ((run BlockTree.askIrreversible (new default 0 tree) events).any fun n =>
        Queue.all.all (fun q => (n.pipeline.lane q).works.isEmpty) ∧ b.hash ∈ n.chain.blocks) =
          true := by decide +kernel
    obtain ⟨n, hrun, hn⟩ := (Option.any_eq_true _ _).mp h
    simp only [Bool.decide_and, Bool.and_eq_true, decide_eq_true_eq, List.all_eq_true,
      List.isEmpty_iff] at hn
    exact ⟨n, hrun, fun q => hn.1 q q.mem_all, hn.2⟩
  have htree : BlockTree.ofBlocks (.genesis 0) [] = .ok tree := rfl
  have h := best_eq_longest_of_idle (.genesis 0) [] htree default 0 events hrun
  exact ⟨n, hrun, hidle, (h.2 hidle).1 _ hb, (h.2 hidle).2⟩

end Node

end ChainNode

import ChainNode.Proofs.Sync.Feeding

/-!
# What is known about a block before it is stored

A block is attached in three steps of the attach queue: it is looked up, judged by its transactions
and the last irreversible height, and stored. Other things happen between these steps, but nothing
else stores blocks, so what was found out still holds when the block is stored (`Node.Guarded`). A
target is only marked for a block that is stored by then.
-/

namespace ChainNode

namespace BlockTree

theorem executeBranch_eq (t : BlockTree) (fuel : Nat) (hash : Hash) :
    ∃ executed, (t.executeBranch fuel hash).2 = { t with executed } := by
  induction fuel generalizing t hash with
  | zero => exact ⟨t.executed, rfl⟩
  | succ fuel ih =>
    rw [executeBranch]
    split
    · exact ⟨t.executed, rfl⟩
    · split
      · exact ⟨t.executed, rfl⟩
      · rename_i b _
        obtain ⟨executed, h⟩ := ih { t with executed := t.executed.insert hash } b.previous
        exact ⟨executed, h⟩

/-- Executing blocks changes nothing but which are executed and which chain is best. -/
theorem update_eq (t : BlockTree) (hash : Hash) :
    ∃ executed best, (t.update hash).2 =
      { t with executed := executed, heads := { t.heads with best } } := by
  rw [update]
  split
  · exact ⟨t.executed, t.heads.best, rfl⟩
  · obtain ⟨executed, h⟩ := t.executeBranch_eq (t.blocks.size + 1) hash
    split <;> rename_i s hs <;> rw [hs] at h <;> obtain rfl : s = _ := h
    · exact ⟨executed, t.heads.best, rfl⟩
    · dsimp only
      split
      · exact ⟨executed, _, rfl⟩
      · exact ⟨executed, t.heads.best, rfl⟩

theorem blocks_update (t : BlockTree) (hash : Hash) : (t.update hash).2.blocks = t.blocks := by
  obtain ⟨executed, best, h⟩ := t.update_eq hash
  rw [h]

/-- A block that was executed is stored. -/
theorem mem_of_update {t : BlockTree} {hash : Hash} (h : (t.update hash).1 = .ok ()) :
    hash ∈ t.blocks := by
  rw [update] at h
  split at h
  · cases h
  · rename_i b hb
    exact mem_blocks hb

theorem blocks_askIrreversible (hash : Hash) (t : BlockTree) :
    (askIrreversible hash t).blocks = t.blocks := by
  rw [askIrreversible, setIrreversible]
  split <;> rfl

end BlockTree

namespace Node

variable {n m : Node BlockTree}

/-! ## What was found out still holds -/

/-- What the attach queue found out about a block holds until the block is stored, and targets are
marked, or about to be, for stored blocks only. -/
structure Guarded (n : Node BlockTree) : Prop where
  inPlace : n.InPlace
  judge : ∀ a, (n.pipeline.lane .attach).running = some (.judge a) →
    a.block.hash ∉ n.chain.blocks
  store : ∀ a height, (n.pipeline.lane .attach).running = some (.store a height) →
    a.block.hash ∉ n.chain.blocks ∧ a.block.matchesHeader ∧ height < a.block.height
  report : ∀ h, (n.pipeline.lane .update).running = some (.report (some (.markTarget h))) →
    h ∈ n.chain.blocks
  targets : ∀ h : Hash, n.board.targets[h]? = some true → h ∈ n.chain.blocks

theorem guarded_new (settings : SyncSettings) (now : Instant) (tree : BlockTree) :
    (new settings now tree).Guarded where
  inPlace := inPlace_new settings now tree
  judge a h := by simp [new, Pipeline.empty, Pipeline.lane] at h
  store a height h := by simp [new, Pipeline.empty, Pipeline.lane] at h
  report h hh := by simp [new, Pipeline.empty, Pipeline.lane] at hh
  targets h hh := by simp [new, JobBoard.empty] at hh

/-- Completing marks no target but the one it is about. -/
theorem targets_complete {c : Option Completion} {h : Hash}
    (hh : (n.complete c).board.targets[h]? = some true) :
    n.board.targets[h]? = some true ∨ c = some (.markTarget h) := by
  match c with
  | none | some (.note _) => exact .inl hh
  | some (.markTarget k) =>
    simp only [complete, targets_setTargets, Targets.mark] at hh
    split at hh
    · rw [Std.ExtTreeMap.getElem?_insert] at hh
      split at hh
      case isTrue he => exact .inr (by rw [Std.LawfulEqOrd.compare_eq_iff_eq.mp he])
      case isFalse => exact .inl hh
    · exact .inl hh

/-- Only the step that the attach queue has come to is to be looked at when nothing but targets of
stored blocks is marked. -/
theorem Guarded.attachLane (h : n.Guarded) (hinPlace : m.InPlace)
    (hblocks : ∀ hash ∈ n.chain.blocks, hash ∈ m.chain.blocks)
    (hupdate : (m.pipeline.lane .update).running = (n.pipeline.lane .update).running)
    (htargets : ∀ h : Hash, m.board.targets[h]? = some true →
      n.board.targets[h]? = some true ∨ h ∈ n.chain.blocks)
    (hjudge : ∀ a, (m.pipeline.lane .attach).running = some (.judge a) →
      a.block.hash ∉ m.chain.blocks)
    (hstore : ∀ a height, (m.pipeline.lane .attach).running = some (.store a height) →
      a.block.hash ∉ m.chain.blocks ∧ a.block.matchesHeader ∧ height < a.block.height) :
    m.Guarded where
  inPlace := hinPlace
  judge := hjudge
  store := hstore
  report hash hr := hblocks hash (h.report hash (hupdate ▸ hr))
  targets hash hh := hblocks hash ((htargets hash hh).elim (h.targets hash) id)

theorem Guarded.attachStep (h : n.Guarded) (hinPlace : m.InPlace) (hm : n.AttachStep m) :
    m.Guarded := by
  cases hm with
  | receive hp =>
    have hupdate := (Pipeline.receive_cases hp).2.2.2 .update nofun
    exact h.attachLane hinPlace (fun _ => id) (congrArg Lane.running hupdate.1) (fun _ => .inl)
      (fun a ha => (h.inPlace.holds.running_receive hp ha).elim)
      (fun a height ha => (h.inPlace.holds.running_receive hp ha).elim)
  | finish hr =>
    exact h.attachLane hinPlace (fun _ => id) (by simp) (fun _ => .inl)
      (fun a ha => by simp at ha) (fun a height ha => by simp at ha)
  | @known a hr hmem =>
    refine h.attachLane hinPlace (by simp) (by simp [pipeline_complete]) ?_
      (fun a ha => by simp [Work.done] at ha) (fun a height ha => by simp [Work.done] at ha)
    intro hash hh
    refine (targets_complete hh).imp_right fun hc => ?_
    rw [h.inPlace.holds.running .attach _ hr hash hc]
    exact hmem
  | unknown hr hnew =>
    refine h.attachLane hinPlace (fun _ => id) (by simp) (fun _ => .inl) (fun a ha => ?_)
      (fun a height ha => by simp at ha)
    simp only [pipeline_advance, Pipeline.running_advance, if_true, Option.some.injEq,
      Work.judge.injEq] at ha
    exact ha ▸ hnew
  | accept hr ha =>
    refine h.attachLane hinPlace (fun _ => id) (by simp) (fun _ => .inl)
      (fun a ha => by simp at ha) (fun a height he => ?_)
    simp only [pipeline_advance, Pipeline.running_advance, if_true, Option.some.injEq,
      Work.store.injEq] at he
    obtain ⟨rfl, rfl⟩ := he
    rw [Validation.acceptable, Bool.and_eq_true, decide_eq_true_eq] at ha
    exact ⟨h.judge _ hr, ha.2, ha.1⟩
  | reject | orphan | handOver =>
    exact h.attachLane hinPlace (fun _ => id) (by simp) (fun _ => .inl)
      (fun a ha => by simp [Work.done, Work.failed] at ha)
      (fun a height ha => by simp [Work.done, Work.failed] at ha)
  | store hr hprevious =>
    exact h.attachLane hinPlace (fun _ hmem => BlockTree.mem_grown.mpr (.inr hmem)) (by simp)
      (fun _ => .inl) (fun a ha => by simp at ha) (fun a height ha => by simp at ha)

/-- The same for the update queue, which does not change which blocks are stored. -/
theorem Guarded.updateLane (h : n.Guarded) (hinPlace : m.InPlace)
    (hblocks : m.chain.blocks = n.chain.blocks)
    (hattach : (m.pipeline.lane .attach).running = (n.pipeline.lane .attach).running)
    (htargets : ∀ h : Hash, m.board.targets[h]? = some true →
      n.board.targets[h]? = some true ∨ h ∈ n.chain.blocks)
    (hreport : ∀ h, (m.pipeline.lane .update).running = some (.report (some (.markTarget h))) →
      h ∈ n.chain.blocks) :
    m.Guarded where
  inPlace := hinPlace
  judge a ha := hblocks ▸ h.judge a (hattach ▸ ha)
  store a height ha := hblocks ▸ h.store a height (hattach ▸ ha)
  report hash hr := hblocks ▸ hreport hash hr
  targets hash hh := hblocks ▸ (htargets hash hh).elim (h.targets hash) id

theorem Guarded.updateStep (h : n.Guarded) (hinPlace : m.InPlace) (hm : n.UpdateStep m) :
    m.Guarded := by
  cases hm with
  | receive hp =>
    have hattach := (Pipeline.receive_cases hp).2.2.2 .attach nofun
    exact h.updateLane hinPlace rfl (congrArg Lane.running hattach.1) (fun _ => .inl)
      (fun hash hh => (h.inPlace.holds.running_receive hp hh).elim)
  | finish hr =>
    exact h.updateLane hinPlace rfl (by simp) (fun _ => .inl) (fun hash hh => by simp at hh)
  | update hr hok =>
    refine h.updateLane hinPlace (BlockTree.blocks_update ..) (by simp) (fun _ => .inl)
      fun hash hh => ?_
    simp only [pipeline_advance, Pipeline.running_advance, if_true, Option.some.injEq,
      Work.report.injEq] at hh
    rw [h.inPlace.holds.running .update _ hr hash hh]
    exact BlockTree.mem_of_update hok
  | fail hr he =>
    exact h.updateLane hinPlace (BlockTree.blocks_update ..) (by simp) (fun _ => .inl)
      (fun hash hh => by simp [Work.failed] at hh)
  | report hr =>
    refine h.updateLane hinPlace (by simp) (by simp [pipeline_complete]) ?_
      (fun hash hh => by simp [Work.done] at hh)
    intro hash hh
    refine (targets_complete hh).imp_right ?_
    rintro rfl
    exact h.report hash hr

theorem guarded_step (h : n.Guarded) {e : Event Hash}
    (hstep : step BlockTree.askIrreversible n e = some m) : m.Guarded := by
  have hinPlace := inPlace_step h.inPlace hstep
  cases h.inPlace.affects hstep with
  | attach hm => exact h.attachStep hinPlace hm
  | update hm => exact h.updateStep hinPlace hm
  | feed _ hm =>
    exact h.attachLane hinPlace (fun _ hmem => by rwa [hm.chain]) (hm.running .update nofun)
      (fun hash hh => .inl (hm.targets hash hh))
      (fun a ha => hm.chain ▸ h.judge a (hm.running .attach nofun ▸ ha))
      (fun a height ha => hm.chain ▸ h.store a height (hm.running .attach nofun ▸ ha))
  | chain change =>
    exact h.updateLane hinPlace (BlockTree.blocks_askIrreversible change n.chain) rfl
      (fun _ => .inl) h.report

end Node

end ChainNode

import ChainNode.Proofs.Sync.Growth
import ChainNode.Proofs.Sync.Placement

/-!
# A node over a tree of blocks

What the events do to a tree of blocks, to the work that attaches and executes blocks, and to the
targets. Reading the tree changes nothing, so most events only feed the pipeline (`Node.Feeds`): they
enqueue work. The tree changes in a step of the attach queue (`Node.AttachStep`), in a step of the
update queue (`Node.UpdateStep`), or by others.
-/

namespace ChainNode.Node

variable {κ : Type} {n m k : Node BlockTree}

/-! ## Reading and writing the tree -/

@[simp] theorem heads_tree (n : Node BlockTree) : n.heads = (.ok n.chain.heads, n) := rfl

@[simp] theorem lookUp_tree (n : Node BlockTree) (hash : Hash) :
    n.lookUp hash = (.ok n.chain.blocks[hash]?, n) := rfl

theorem attachBlock_tree (n : Node BlockTree) (b : Block) :
    n.attachBlock b = if b.previous ∈ n.chain.blocks then (.ok (), { n with chain := n.chain.grown b })
      else (.error (.unknownParent b.previous), n) := by
  simp only [attachBlock, ChainService.attach, BlockTree.attach_eq]
  by_cases h : b.previous ∈ n.chain.blocks
  · rw [if_pos h, if_pos h]
  · rw [if_neg h, if_neg h]

/-- The running work of a queue is exchanged. -/
def advance (n : Node BlockTree) (q : Queue) (w : Work) : Node BlockTree :=
  { n with pipeline := n.pipeline.advance q w }

@[simp] theorem chain_advance (n : Node BlockTree) (q : Queue) (w : Work) :
    (n.advance q w).chain = n.chain := rfl

@[simp] theorem pipeline_advance (n : Node BlockTree) (q : Queue) (w : Work) :
    (n.advance q w).pipeline = n.pipeline.advance q w := rfl

@[simp] theorem chain_complete (n : Node BlockTree) (c : Option Completion) :
    (n.complete c).chain = n.chain := by
  match c with
  | none | some (.markTarget _) | some (.note _) => rfl

/-! ## Steps of the queues -/

/-- A step of the attach queue. -/
inductive AttachStep (n : Node BlockTree) : Node BlockTree → Prop
  | receive {p : Pipeline Work} (hp : n.pipeline.receive .attach = some p) :
    AttachStep n { n with pipeline := p }
  | finish {e : Ending} (hr : (n.pipeline.lane .attach).running = some (.ended e)) :
    AttachStep n { n with pipeline := n.pipeline.finish .attach }
  /-- The block is stored already. -/
  | known {a : Attachment} (hr : (n.pipeline.lane .attach).running = some (.attach a))
    (hmem : a.block.hash ∈ n.chain.blocks) :
    AttachStep n ((n.complete a.completion).advance .attach .done)
  | unknown {a : Attachment} (hr : (n.pipeline.lane .attach).running = some (.attach a))
    (hnew : a.block.hash ∉ n.chain.blocks) : AttachStep n (n.advance .attach (.judge a))
  | accept {a : Attachment} (hr : (n.pipeline.lane .attach).running = some (.judge a))
    (ha : Validation.acceptable a.block n.chain.heads) :
    AttachStep n (n.advance .attach (.store a n.chain.heads.irreversible.height))
  | reject {a : Attachment} (hr : (n.pipeline.lane .attach).running = some (.judge a))
    (ha : ¬ Validation.acceptable a.block n.chain.heads) : AttachStep n (n.advance .attach .done)
  | store {a : Attachment} {height : UInt64}
    (hr : (n.pipeline.lane .attach).running = some (.store a height))
    (hprevious : a.block.previous ∈ n.chain.blocks) :
    AttachStep n ({ n with chain := n.chain.grown a.block }.advance .attach (.handOver a))
  /-- The parent of the block is unknown. -/
  | orphan {a : Attachment} {height : UInt64}
    (hr : (n.pipeline.lane .attach).running = some (.store a height))
    (hprevious : a.block.previous ∉ n.chain.blocks) :
    AttachStep n (n.advance .attach (.failed (.unknownParent a.block.previous)))
  | handOver {a : Attachment} (hr : (n.pipeline.lane .attach).running = some (.handOver a)) :
    AttachStep n ((n.enqueue .update (.update a.block.hash a.completion)).advance .attach .done)

/-- A step of the update queue. -/
inductive UpdateStep (n : Node BlockTree) : Node BlockTree → Prop
  | receive {p : Pipeline Work} (hp : n.pipeline.receive .update = some p) :
    UpdateStep n { n with pipeline := p }
  | finish {e : Ending} (hr : (n.pipeline.lane .update).running = some (.ended e)) :
    UpdateStep n { n with pipeline := n.pipeline.finish .update }
  | update {hash : Hash} {c : Option Completion}
    (hr : (n.pipeline.lane .update).running = some (.update hash c))
    (hok : (n.chain.update hash).1 = .ok ()) :
    UpdateStep n ({ n with chain := (n.chain.update hash).2 }.advance .update (.report c))
  | fail {hash : Hash} {c : Option Completion} {e : ChainError}
    (hr : (n.pipeline.lane .update).running = some (.update hash c))
    (he : (n.chain.update hash).1 = .error e) :
    UpdateStep n ({ n with chain := (n.chain.update hash).2 }.advance .update (.failed e))
  | report {c : Option Completion} (hr : (n.pipeline.lane .update).running = some (.report c)) :
    UpdateStep n ((n.complete c).advance .update .done)

theorem InPlace.attachStep (h : n.InPlace) (hm : n.queueStep .attach = some m) : n.AttachStep m := by
  obtain ⟨p, hp, rfl⟩ | ⟨r, hr, rfl⟩ | ⟨w, w', k, hr, hk, rfl⟩ := queueStep_cases hm
  · exact .receive hp
  · exact .finish hr
  · have hbegun := h.holds.running .attach w hr
    cases w <;> simp only [Node.workStep, Option.some.injEq, reduceCtorEq] at hk
    case fetch | update | report => exact hbegun.elim
    case attach a =>
      rw [lookUp_tree] at hk
      cases hb : n.chain.blocks[a.block.hash]? with
      | none =>
        rw [hb] at hk
        obtain ⟨rfl, rfl⟩ := Prod.mk.inj hk
        refine .unknown hr fun hmem => ?_
        obtain ⟨b, hb'⟩ := BlockTree.mem_blocks_iff.mp hmem
        rw [hb] at hb'
        cases hb'
      | some b =>
        rw [hb] at hk
        obtain ⟨rfl, rfl⟩ := Prod.mk.inj hk
        exact .known hr (BlockTree.mem_blocks hb)
    case judge a =>
      rw [heads_tree] at hk
      by_cases ha : Validation.acceptable a.block n.chain.heads
      · simp only [ha, if_true] at hk
        obtain ⟨rfl, rfl⟩ := Prod.mk.inj hk
        exact .accept hr ha
      · simp only [ha] at hk
        obtain ⟨rfl, rfl⟩ := Prod.mk.inj hk
        exact .reject hr ha
    case store a height =>
      rw [attachBlock_tree] at hk
      by_cases hprevious : a.block.previous ∈ n.chain.blocks
      · rw [if_pos hprevious] at hk
        obtain ⟨rfl, rfl⟩ := Prod.mk.inj hk
        exact .store hr hprevious
      · rw [if_neg hprevious] at hk
        obtain ⟨rfl, rfl⟩ := Prod.mk.inj hk
        exact .orphan hr hprevious
    case handOver a =>
      obtain ⟨rfl, rfl⟩ := Prod.mk.inj hk
      exact .handOver hr

theorem InPlace.updateStep (h : n.InPlace) (hm : n.queueStep .update = some m) : n.UpdateStep m := by
  obtain ⟨p, hp, rfl⟩ | ⟨r, hr, rfl⟩ | ⟨w, w', k, hr, hk, rfl⟩ := queueStep_cases hm
  · exact .receive hp
  · exact .finish hr
  · have hbegun := h.holds.running .update w hr
    cases w <;> simp only [Node.workStep, Option.some.injEq, reduceCtorEq] at hk
    case fetch | attach | judge | store | handOver => exact hbegun.elim
    case update hash c =>
      rw [updateChain] at hk
      simp only [ChainService.update] at hk
      cases hu : (n.chain.update hash).1 with
      | ok =>
        rw [hu] at hk
        obtain ⟨rfl, rfl⟩ := Prod.mk.inj hk
        exact .update hr hu
      | error e =>
        rw [hu] at hk
        obtain ⟨rfl, rfl⟩ := Prod.mk.inj hk
        exact .fail hr hu
    case report c =>
      obtain ⟨rfl, rfl⟩ := Prod.mk.inj hk
      exact .report hr

/-! ## Feeding the pipeline -/

/-- The tree, the running work of the attach and update queues and what waits to be executed stay as
they are, and no target becomes marked. -/
structure Feeds (n m : Node BlockTree) : Prop where
  chain : m.chain = n.chain
  running : ∀ q ≠ .fetch, (m.pipeline.lane q).running = (n.pipeline.lane q).running
  waiting : (m.pipeline.lane .update).waiting = (n.pipeline.lane .update).waiting
  targets : ∀ h : Hash, m.board.targets[h]? = some true → n.board.targets[h]? = some true

namespace Feeds

theorem refl (n : Node BlockTree) : n.Feeds n := ⟨rfl, fun _ _ => rfl, rfl, fun _ => id⟩

theorem trans (h : n.Feeds m) (h' : m.Feeds k) : n.Feeds k where
  chain := h'.chain.trans h.chain
  running q hq := (h'.running q hq).trans (h.running q hq)
  waiting := h'.waiting.trans h.waiting
  targets hash hh := h.targets hash (h'.targets hash hh)

theorem of_board (hchain : m.chain = n.chain) (hpipeline : m.pipeline = n.pipeline)
    (htargets : ∀ h : Hash, m.board.targets[h]? = some true → n.board.targets[h]? = some true) :
    n.Feeds m :=
  ⟨hchain, fun _ _ => by rw [hpipeline], by rw [hpipeline], htargets⟩

theorem enqueue (n : Node BlockTree) {q : Queue} (hq : q ≠ .update) (w : Work) :
    n.Feeds (n.enqueue q w) where
  chain := rfl
  running r _ := Pipeline.running_enqueue
  waiting := by simp [Node.enqueue, hq]
  targets _ := id

theorem intake (hm : Intake n m) : n.Feeds m := by
  cases hm with
  | fetch => exact enqueue n (q := .fetch) nofun _
  | attach => exact enqueue n (q := .attach) nofun _
  | post q => exact ⟨rfl, fun _ _ => Pipeline.lane_post_running, Pipeline.lane_post_waiting, fun _ => id⟩
  | job target batch peer =>
    exact of_board rfl rfl fun _ hh => by rwa [enqueueJob, JobBoard.targets_enqueue] at hh
  | wait | announcements | heads | lookUp => exact of_board rfl rfl fun _ => id

theorem intakes (hm : n.Intakes m) : n.Feeds m :=
  hm.keep (fun _ _ hab ha => ha.trans (intake hab)) (refl n)

theorem workerMove (hm : WorkerMove n m) : n.Feeds m := by
  cases hm with
  | attach => exact enqueue n (q := .attach) nofun _
  | remove id =>
    refine of_board rfl rfl fun h hh => ?_
    simp only [removeJob, JobBoard.remove] at hh
    split at hh
    · exact hh
    · dsimp only at hh
      split at hh
      · exact Targets.getElem?_of_erase hh
      · exact hh
  | register hash =>
    refine of_board rfl rfl fun h hh => ?_
    rw [targets_setTargets, Std.ExtTreeMap.getElem?_insert] at hh
    split at hh
    · cases hh
    · exact hh
  | erase hash => exact of_board rfl rfl fun h hh => Targets.getElem?_of_erase hh
  | call | heads | update => exact of_board rfl rfl fun _ => id

theorem workerMoves (hm : n.WorkerMoves m) : n.Feeds m :=
  hm.keep (fun _ _ hab ha => ha.trans (workerMove hab)) (refl n)

/-- Nothing that happens on the fetch queue matters here. -/
theorem fetchLane {p : Pipeline Work} (hlane : ∀ r ≠ .fetch, p.lane r = n.pipeline.lane r) :
    n.Feeds { n with pipeline := p } where
  chain := rfl
  running r hr := by rw [hlane r hr]
  waiting := by rw [hlane .update nofun]
  targets _ := id

theorem advance_fetch (n : Node BlockTree) (w : Work) : n.Feeds (n.advance .fetch w) :=
  fetchLane fun r hr => by simp [Pipeline.advance, Ne.symm hr]

end Feeds

theorem InPlace.fetchStep (h : n.InPlace) (hm : n.queueStep .fetch = some m) : n.Feeds m := by
  obtain ⟨p, hp, rfl⟩ | ⟨r, hr, rfl⟩ | ⟨w, w', k, hr, hk, rfl⟩ := queueStep_cases hm
  · exact .fetchLane fun r hr => ((Pipeline.receive_cases hp).2.2.2 r hr.symm).1
  · exact .fetchLane fun r hr => by simp [Pipeline.finish, Ne.symm hr]
  · have hbegun := h.holds.running .fetch w hr
    cases w <;> simp only [Node.workStep, Option.some.injEq, reduceCtorEq] at hk
    case fetch wanted retries =>
      have hin := intakes_beginFetch n wanted retries
      rw [hk] at hin
      exact (Feeds.intakes hin).trans (.advance_fetch k w')
    case attach | judge | store | handOver | update | report => exact hbegun.elim

/-- What an event does to a node over a tree. -/
inductive Affects (act : κ → BlockTree → BlockTree) (n : Node BlockTree) :
    Event κ → Node BlockTree → Prop
  | feed {e : Event κ} {m : Node BlockTree} (he : e ≠ .queue .attach) (h : n.Feeds m) :
    Affects act n e m
  | attach {m : Node BlockTree} (h : n.AttachStep m) : Affects act n (.queue .attach) m
  | update {m : Node BlockTree} (h : n.UpdateStep m) : Affects act n (.queue .update) m
  | chain (change : κ) : Affects act n (.chain change) { n with chain := act change n.chain }

theorem InPlace.affects {act : κ → BlockTree → BlockTree} (h : n.InPlace) {e : Event κ}
    (hstep : step act n e = some m) : Affects act n e m := by
  cases happens_of_step hstep with
  | intake he hm => exact .feed (he .attach) (.intakes hm)
  | @fetched q answer w retries k e hrunning hk =>
    have hbegun := h.holds.running q _ hrunning
    cases q with
    | fetch => exact .feed nofun ((Feeds.intakes hk).trans (.advance_fetch k _))
    | attach | update => exact hbegun.elim
  | @queue q m hm =>
    cases q with
    | fetch => exact .feed nofun (h.fetchStep hm)
    | attach => exact .attach (h.attachStep hm)
    | update => exact .update (h.updateStep hm)
  | call hm => exact .feed nofun (.workerMoves (workerMoves_beginCall hm))
  | callStep ht => exact .feed nofun (.workerMoves (workerMoves_callStep ht))
  | answerCall answer => exact .feed nofun (.workerMoves (workerMoves_answerCall n answer))
  | chain change => exact .chain change

end ChainNode.Node

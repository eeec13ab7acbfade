import ChainNode.Proofs.Sync.Admissions

/-!
# Announcements after a drop

When queues are busy, what comes in is dropped, and so is a fetch (`Node.Drops`). A later announcement
brings the block in again, but not before everything has expired that let the block through: the
announcement that was dropped is remembered like any other. So for as long as announcements are
remembered, a block that was dropped where it came in stays dropped.
-/

namespace ChainNode.Node

variable {χ κ : Type} {n m : Node χ} {hash : Hash}

/-! ## What is taken up -/

/-- Something is to be done for a block that was not: it is enqueued to be fetched, or becomes the
target of a job. -/
def TakesUp (n m : Node χ) (hash : Hash) : Prop :=
  (∃ w retries, w.block.hash = hash ∧ (m.pipeline.lane .fetch).waiting =
      (n.pipeline.lane .fetch).waiting ++ [.fetch w retries]) ∨
    hash ∉ n.board.store.jobs ∧ hash ∈ m.board.store.jobs

theorem not_takesUp (hpipeline : (m.pipeline.lane .fetch).waiting = (n.pipeline.lane .fetch).waiting)
    (hboard : m.board.store = n.board.store) : ¬ n.TakesUp m hash := by
  rintro (⟨w, retries, -, hwaiting⟩ | ⟨hnew, hmem⟩)
  · rw [hpipeline] at hwaiting
    exact List.cons_ne_nil _ _ (List.self_eq_append_right.mp hwaiting)
  · rw [hboard] at hmem
    exact hnew hmem

/-- A block that is not far above the longest chain is enqueued to be fetched. -/
theorem takesUp_syncAnnounced_of_near {heads : Heads} {w : Wanted} (batch : Nat)
    (hnear : n.isNear heads w.block.height = .ok true) (hopen : n.available .fetch = true) :
    n.TakesUp (n.syncAnnounced heads w batch).2 w.block.hash := by
  refine .inl ⟨w, n.settings.retries, rfl, ?_⟩
  rw [syncAnnounced, hnear]
  dsimp only
  rw [if_pos hopen]
  exact Pipeline.waiting_enqueue.trans (if_pos rfl)

/-- There is room for a job with that target, and its deadline is an instant. -/
structure RoomFor (n : Node χ) (target : Hash) : Prop where
  size_lt : n.board.store.size < n.board.store.capacity
  not_mem : target ∉ n.board.store.jobs
  deadline_le : n.now.after n.board.timeout ≤ Instant.last

/-- A block further up becomes the target of a job, if there is room for one. -/
theorem takesUp_syncAnnounced_of_far {heads : Heads} {w : Wanted} (batch : Nat)
    (hfar : n.isNear heads w.block.height = .ok false) (hroom : n.RoomFor w.block.hash) :
    n.TakesUp (n.syncAnnounced heads w batch).2 w.block.hash := by
  refine .inr ⟨hroom.not_mem, ?_⟩
  have hdeadline : n.now.plus n.board.timeout = .ok (n.now.after n.board.timeout) :=
    if_pos hroom.deadline_le
  have hadd : ¬(n.board.store.capacity ≤ n.board.store.size ∨
      w.block.hash ∈ n.board.store.jobs) :=
    not_or.mpr ⟨Nat.not_le.mpr hroom.size_lt, hroom.not_mem⟩
  rw [syncAnnounced, hfar]
  dsimp only
  rw [orderJob, enqueueJob, JobBoard.enqueue_eq, hdeadline]
  dsimp only
  rw [JobStore.add]
  exact (if_neg hadd).symm ▸ Std.ExtTreeMap.mem_insert_self

/-- Only an announcement that is let through brings anything in. -/
theorem announceUnder_eq (heads : Heads) (block : Tip) (sender : Peer) :
    (n.announceUnder heads block sender).2 =
      if n.lets ⟨heads, block, sender⟩ then
        ((n.screen heads block sender).2.syncAnnounced heads ⟨block, some sender⟩
          n.settings.batch).2
      else (n.screen heads block sender).2 := by
  rw [announceUnder, lets]
  split <;> rename_i k hk <;> obtain rfl := congrArg Prod.snd hk <;> rw [hk] <;> rfl

theorem pushUnder_eq (heads : Heads) (b : Block) (sender : Peer) :
    (n.pushUnder heads b sender).2 =
      if n.lets ⟨heads, b.tip, sender⟩ then
        ((n.screen heads b.tip sender).2.syncBlock heads b n.settings.batch (some sender)).2
      else (n.screen heads b.tip sender).2 := by
  rw [pushUnder, lets]
  split <;> rename_i k hk <;> obtain rfl := congrArg Prod.snd hk <;> rw [hk] <;> rfl

/-- While the fetch queue is busy, an announcement is only taken note of. -/
theorem announceUnder_of_busy {heads : Heads} {block : Tip} {sender : Peer}
    (hnear : n.isNear heads block.height = .ok true) (hbusy : n.available .fetch = false) :
    (n.announceUnder heads block sender).2 = (n.screen heads block sender).2 := by
  have hnear' : (n.screen heads block sender).2.isNear heads block.height = .ok true := hnear
  have hskip : ((n.screen heads block sender).2.syncAnnounced heads ⟨block, some sender⟩
      n.settings.batch).2 = (n.screen heads block sender).2 := by
    rw [syncAnnounced, hnear']
    exact if_neg (Bool.eq_false_iff.mp hbusy)
  rw [announceUnder_eq, hskip, ite_self]

/-- While attaching is held up, a pushed block is only taken note of. -/
theorem pushUnder_of_busy {heads : Heads} {b : Block} {sender : Peer}
    (hnear : n.isNear heads b.height = .ok true) (hbusy : n.attachAvailable = false) :
    (n.pushUnder heads b sender).2 = (n.screen heads b.tip sender).2 := by
  have hnear' : (n.screen heads b.tip sender).2.isNear heads b.height = .ok true := hnear
  have hskip : ((n.screen heads b.tip sender).2.syncBlock heads b n.settings.batch
      (some sender)).2 = (n.screen heads b.tip sender).2 := by
    rw [syncBlock, hnear']
    exact if_neg (Bool.eq_false_iff.mp hbusy)
  rw [pushUnder_eq, hskip, ite_self]

/-- When the queues are open, just what is let through is taken up. -/
theorem takesUp_announceUnder_iff {heads : Heads} {block : Tip} {sender : Peer}
    (hopen : n.available .fetch = true)
    (hroom : n.isNear heads block.height = .ok true ∨
      n.isNear heads block.height = .ok false ∧ n.RoomFor block.hash) :
    n.TakesUp (n.announceUnder heads block sender).2 block.hash ↔
      n.lets ⟨heads, block, sender⟩ = true := by
  rw [announceUnder_eq]
  cases hlets : n.lets ⟨heads, block, sender⟩ with
  | false => exact iff_of_false (not_takesUp rfl rfl) nofun
  | true =>
    refine iff_of_true ?_ rfl
    obtain hnear | ⟨hfar, hjob⟩ := hroom
    · exact takesUp_syncAnnounced_of_near (n := (n.screen heads block sender).2)
        (w := ⟨block, some sender⟩) n.settings.batch hnear hopen
    · exact takesUp_syncAnnounced_of_far (n := (n.screen heads block sender).2)
        (w := ⟨block, some sender⟩) n.settings.batch hfar ⟨hjob.1, hjob.2, hjob.3⟩

variable [ChainService χ]

theorem announce_eq {heads : Heads} (h : n.heads.1 = .ok heads) (block : Tip) (sender : Peer) :
    (n.announce block sender).2 = (n.heads.2.announceUnder heads block sender).2 := by
  rw [announce]
  split <;> rename_i k hk <;> rw [hk] at h <;> cases h
  rw [hk]

theorem push_eq {heads : Heads} (h : n.heads.1 = .ok heads) (b : Block) (sender : Peer) :
    (n.push b sender).2 = (n.heads.2.pushUnder heads b sender).2 := by
  rw [push]
  split <;> rename_i k hk <;> rw [hk] at h <;> cases h
  rw [hk]

/-! ## Drops -/

/-- The block that an event pushes. -/
def Event.pushed? : Event κ → Option Block
  | push b _ => some b
  | pushUnder _ b _ => some b
  | _ => none

/-- Something for a block is dropped at an event, since a queue counts as busy. -/
inductive Drops (n : Node χ) (hash : Hash) : Event κ → Prop
  /-- An announcement was let through, but the fetch queue is busy. -/
  | announced {e : Event κ} {x : Notice} (he : n.notice? e = some x) (hpushed : e.pushed? = none)
    (hhash : x.block.hash = hash) (hlets : n.lets x = true)
    (hnear : n.isNear x.heads x.block.height = .ok true) (hbusy : n.available .fetch = false) :
    Drops n hash e
  /-- A block that was pushed was let through, but attaching is held up. -/
  | pushed {e : Event κ} {x : Notice} {b : Block} (he : n.notice? e = some x)
    (hpushed : e.pushed? = some b) (hhash : x.block.hash = hash) (hlets : n.lets x = true)
    (hnear : n.isNear x.heads x.block.height = .ok true) (hbusy : n.attachAvailable = false) :
    Drops n hash e
  /-- A fetch begins, but attaching is held up. -/
  | fetch {w : Wanted} {retries : Nat}
    (hrunning : (n.pipeline.lane .fetch).running = some (.fetch w retries))
    (hhash : w.block.hash = hash) (hbusy : n.attachAvailable = false) :
    Drops n hash (.queue .fetch)

/-- What an event announces comes in under the heads that it is judged by. -/
theorem step_of_notice {act : κ → χ → χ} {e : Event κ} {x : Notice} (he : n.notice? e = some x)
    (hstep : step act n e = some m) :
    ∃ chain : χ, match e.pushed? with
      | none => m = ({ n with chain }.announceUnder x.heads x.block x.sender).2
      | some b => x.block = b.tip ∧ m = ({ n with chain }.pushUnder x.heads b x.sender).2 := by
  cases e <;> simp only [notice?, reduceCtorEq] at he
  case announce block sender =>
    cases hheads : n.heads.1 with
    | error => rw [hheads] at he; cases he
    | ok heads =>
      rw [hheads] at he
      obtain rfl := Option.some.inj he
      exact ⟨_, (Option.some.inj hstep).symm.trans (announce_eq hheads _ _)⟩
  case push b sender =>
    cases hheads : n.heads.1 with
    | error => rw [hheads] at he; cases he
    | ok heads =>
      rw [hheads] at he
      obtain rfl := Option.some.inj he
      exact ⟨_, rfl, (Option.some.inj hstep).symm.trans (push_eq hheads _ _)⟩
  case announceUnder heads block sender =>
    obtain rfl := Option.some.inj he
    exact ⟨n.chain, (Option.some.inj hstep).symm⟩
  case pushUnder heads b sender =>
    obtain rfl := Option.some.inj he
    exact ⟨n.chain, rfl, (Option.some.inj hstep).symm⟩

/-- A drop leaves neither work nor a job behind. -/
theorem Drops.frame {act : κ → χ → χ} {e : Event κ} (h : n.Drops hash e)
    (hstep : step act n e = some m) :
    (∀ q, (m.pipeline.lane q).waiting = (n.pipeline.lane q).waiting) ∧ m.board = n.board := by
  cases h with
  | announced he hpushed hhash hlets hnear hbusy =>
    obtain ⟨chain, hm⟩ := step_of_notice he hstep
    rw [hpushed] at hm
    rw [hm, announceUnder_of_busy (n := { n with chain }) hnear hbusy]
    exact ⟨fun _ => rfl, rfl⟩
  | pushed he hpushed hhash hlets hnear hbusy =>
    obtain ⟨chain, hm⟩ := step_of_notice he hstep
    rw [hpushed] at hm
    obtain ⟨hblock, rfl⟩ := hm
    rw [hblock] at hnear
    rw [pushUnder_of_busy (n := { n with chain }) hnear hbusy]
    exact ⟨fun _ => rfl, rfl⟩
  | fetch hrunning hhash hbusy =>
    obtain ⟨p, hp, rfl⟩ | ⟨r, hr, rfl⟩ | ⟨w, w', k, hr, hk, rfl⟩ := queueStep_cases hstep
    · rw [(Pipeline.receive_cases hp).1] at hrunning
      cases hrunning
    · rw [hr] at hrunning
      cases hrunning
    · rw [hrunning] at hr
      obtain rfl := Option.some.inj hr
      rw [workStep, beginFetch, if_neg (Bool.eq_false_iff.mp hbusy)] at hk
      obtain ⟨rfl, rfl⟩ := Prod.mk.inj (Option.some.inj hk)
      exact ⟨fun q => Pipeline.waiting_advance, rfl⟩

/-! ## After a drop -/

/-- **What comes back after a drop.** A drop leaves neither work nor a job behind, but what is dropped
where it comes in was let through just then. Later, once the queues are open and there is room for a
job, an announcement of the block is taken up exactly when all that let the block through has
expired. That needs a cache that can be used, as it can be while what is announced expires at an
instant. -/
theorem takesUp_of_drops {act : κ → χ → χ} {settings : SyncSettings} {now : Instant} {chain : χ}
    {past later : List (Event κ)} {e : Event κ} {k : Node χ} {heads : Heads} {block : Tip}
    (hk : run act (new settings now chain) past = some k) (hdrops : k.Drops block.hash e)
    (hrun : run act (new settings now chain) (past ++ e :: later) = some n)
    (hheads : n.heads.1 = .ok heads) (hheight : heads.irreversible.height < block.height)
    (hopen : n.available .fetch = true)
    (hroom : n.isNear heads block.height = .ok true ∨
      n.isNear heads block.height = .ok false ∧ n.RoomFor block.hash)
    (sender : Peer) :
    let admitted := admissions act (new settings now chain) (past ++ e :: later)
    (∃ k', step act k e = some k' ∧
        (∀ q, (k'.pipeline.lane q).waiting = (k.pipeline.lane q).waiting) ∧ k'.board = k.board) ∧
      (e ≠ .queue .fetch → (block.hash, k.now) ∈ admitted) ∧
      (n.TakesUp (n.announce block sender).2 block.hash ↔ n.announcements.Usable n.now ∧
        ∀ t, (block.hash, t) ∈ admitted → t.after settings.announcementTtl ≤ n.now) ∧
      (n.now.after settings.announcementTtl ≤ Instant.last → n.announcements.Usable n.now) := by
  intro admitted
  have hnotice {x : Notice} (he : k.notice? e = some x) (hhash : x.block.hash = block.hash)
      (hlets : k.lets x = true) : (block.hash, k.now) ∈ admitted := by
    show _ ∈ admissions _ _ _
    rw [admissions_append hk, admissions, he, Node.admitted, if_pos hlets, hhash]
    simp
  refine ⟨?_, ?_, ?_, (remembers_run hrun).usable⟩
  · rw [run_append, hk, Option.bind_some, run_cons] at hrun
    obtain ⟨k', hstep, -⟩ := Option.bind_eq_some_iff.mp hrun
    exact ⟨k', hstep, hdrops.frame hstep⟩
  · intro hne
    cases hdrops with
    | announced he _ hhash hlets => exact hnotice he hhash hlets
    | pushed he _ hhash hlets => exact hnotice he hhash hlets
    | fetch => exact absurd rfl hne
  · rw [announce_eq hheads]
    refine Iff.trans ?_ ((remembers_run hrun).lets_iff (x := ⟨heads, block, sender⟩) hheight)
    refine takesUp_announceUnder_iff (n := n.heads.2) hopen ?_
    exact hroom.imp_right (And.imp_right fun hjob => ⟨hjob.1, hjob.2, hjob.3⟩)

/-- The fetch of one block takes long, so the announcement of another is dropped. -/
theorem exists_drops :
    let b := Block.make (Block.genesis 0).hash 2 0 []
    let c := (Block.make (Block.genesis 0).hash 2 1 []).tip
    let past : List (Event Hash) := [.announce b.tip "a", .queue .fetch, .queue .fetch, .wait 1001]
    ∃ k, run BlockTree.askIrreversible (new default 0 (BlockTree.new (.genesis 0))) past = some k ∧
      k.Drops c.hash (.announce c "a" : Event Hash) := by
  intro b c past
  have h : ((run BlockTree.askIrreversible (new default 0 (BlockTree.new (.genesis 0))) past).any
      fun k => k.lets ⟨k.chain.heads, c, "a"⟩ = true ∧
        k.isNear k.chain.heads c.height = .ok true ∧ k.available .fetch = false) = true := by
    decide +kernel
  obtain ⟨k, hk, hdrops⟩ := (Option.any_eq_true _ _).mp h
  obtain ⟨hlets, hnear, hbusy⟩ := of_decide_eq_true hdrops
  exact ⟨k, hk, .announced rfl rfl rfl hlets hnear hbusy⟩

/-- Half a minute later it is taken up. -/
theorem takesUp_of_drops_expired :
    let b := Block.make (Block.genesis 0).hash 2 0 []
    let c := (Block.make (Block.genesis 0).hash 2 1 []).tip
    let start := new default 0 (BlockTree.new (.genesis 0))
    let past : List (Event Hash) := [.announce b.tip "a", .queue .fetch, .queue .fetch, .wait 1001]
    let later : List (Event Hash) :=
      [.answerQueue .fetch (.ok (some b)), .queue .fetch, .wait 30000]
    let admitted := admissions BlockTree.askIrreversible start (past ++ .announce c "a" :: later)
    ∃ k n, run BlockTree.askIrreversible start past = some k ∧
      k.Drops c.hash (.announce c "a" : Event Hash) ∧
      run BlockTree.askIrreversible start (past ++ .announce c "a" :: later) = some n ∧
      admitted = [(b.hash, 0), (c.hash, 1001)] ∧ n.now = 31001 ∧
      n.TakesUp (n.announce c "b").2 c.hash := by
  intro b c start past later admitted
  obtain ⟨k, hk, hdrops⟩ := exists_drops
  have h : ((run BlockTree.askIrreversible start (past ++ .announce c "a" :: later)).any fun n =>
      n.now = 31001 ∧ n.chain.heads.irreversible.height < c.height ∧ n.available .fetch = true ∧
        n.isNear n.chain.heads c.height = .ok true) = true := by decide +kernel
  obtain ⟨n, hn, hfacts⟩ := (Option.any_eq_true _ _).mp h
  obtain ⟨hnow, hheight, hopen, hnear⟩ := of_decide_eq_true hfacts
  have hadmitted : admitted = [(b.hash, 0), (c.hash, 1001)] := by decide +kernel
  refine ⟨k, n, hk, hdrops, hn, hadmitted, hnow, ?_⟩
  obtain ⟨-, -, htakes, husable⟩ := takesUp_of_drops hk hdrops hn rfl hheight hopen
    (.inl hnear) "b"
  refine htakes.mpr ⟨husable (by rw [hnow]; decide), ?_⟩
  show ∀ t, (c.hash, t) ∈ admitted → _
  rw [hadmitted, hnow]
  intro t ht
  obtain h | h := List.mem_pair.mp ht
  · obtain rfl := (Prod.mk.inj h).2
    decide
  · obtain rfl := (Prod.mk.inj h).2
    decide

/-- Until then it is not, though nothing is busy any more, nothing is left to be done and the block is
not part of the chain. -/
theorem not_takesUp_of_drops :
    let b := Block.make (Block.genesis 0).hash 2 0 []
    let c := (Block.make (Block.genesis 0).hash 2 1 []).tip
    let start := new default 0 (BlockTree.new (.genesis 0))
    let past : List (Event Hash) := [.announce b.tip "a", .queue .fetch, .queue .fetch, .wait 1001]
    let later : List (Event Hash) :=
      [.answerQueue .fetch (.ok (some b)), .queue .fetch] ++ List.replicate 6 (.queue .attach) ++
        List.replicate 4 (.queue .update)
    ∃ k n, run BlockTree.askIrreversible start past = some k ∧
      k.Drops c.hash (.announce c "a" : Event Hash) ∧
      run BlockTree.askIrreversible start (past ++ .announce c "a" :: later) = some n ∧
      (∀ q, n.available q = true ∧ (n.pipeline.lane q).works = []) ∧ n.board.store.size = 0 ∧
      c.hash ∉ n.chain.blocks ∧ n.chain.heads.irreversible.height < c.height ∧
      ¬ n.TakesUp (n.announce c "b").2 c.hash := by
  intro b c start past later
  obtain ⟨k, hk, hdrops⟩ := exists_drops
  have h : ((run BlockTree.askIrreversible start (past ++ .announce c "a" :: later)).any fun n =>
      (∀ q ∈ Queue.all, n.available q = true ∧ (n.pipeline.lane q).works = []) ∧
        n.board.store.size = 0 ∧ c.hash ∉ n.chain.blocks ∧
        n.chain.heads.irreversible.height < c.height ∧
        n.lets ⟨n.chain.heads, c, "b"⟩ = false) = true := by decide +kernel
  obtain ⟨n, hn, hfacts⟩ := (Option.any_eq_true _ _).mp h
  obtain ⟨hidle, hjobs, hnew, hheight, hlets⟩ := of_decide_eq_true hfacts
  refine ⟨k, n, hk, hdrops, hn, fun q => hidle q q.mem_all, hjobs, hnew, hheight, ?_⟩
  rw [announce_eq rfl, announceUnder_eq]
  exact (if_neg (Bool.eq_false_iff.mp hlets)).symm ▸ not_takesUp rfl rfl

end ChainNode.Node

import ChainNode.Proofs.Sync.JobBoard
import ChainNode.Proofs.Sync.Lanes
import ChainNode.Proofs.Sync.Linked
import ChainNode.Proofs.Sync.Runs

/-!
# Where work is found

Each queue only ever holds work of its own kind: what waits there is as it was enqueued
(`Work.Fresh`), what runs there has come some way from that (`Work.Begun`). A block that is to be
attached or executed marks no target but its own hash. Together with the numbers of the pipeline this
is `Node.InPlace`, which every event keeps.

The worker, too, does what it does in small moves (`Node.WorkerMove`).
-/

namespace ChainNode

/-- Nothing but the target of one block is marked. -/
def Completion.For (hash : Hash) (c : Option Completion) : Prop :=
  ∀ h, c = some (.markTarget h) → h = hash

theorem Completion.for_none (hash : Hash) : Completion.For hash none := nofun

namespace Work

/-- Work as it is enqueued on a queue. -/
def Fresh : Queue → Work → Prop
  | .fetch, fetch _ _ => True
  | .attach, attach a => Completion.For a.block.hash a.completion
  | .update, update hash c => Completion.For hash c
  | _, _ => False

/-- Work as it runs on a queue. -/
def Begun : Queue → Work → Prop
  | _, ended _ => True
  | .fetch, fetch _ _ | .fetch, fetching _ _ => True
  | .attach, attach a | .attach, judge a | .attach, store a _ | .attach, handOver a =>
    Completion.For a.block.hash a.completion
  | .update, update hash c => Completion.For hash c
  | .update, report _ => True
  | _, _ => False

theorem begun_ended (q : Queue) (e : Ending) : (ended e).Begun q := by
  cases q <;> trivial

theorem Fresh.begun {q : Queue} {w : Work} (h : w.Fresh q) : w.Begun q := by
  cases q <;> cases w <;> first | exact h | exact h.elim

end Work

namespace Node

variable {χ κ : Type} [ChainService χ]

/-! ## What the worker does -/

/-- A small move of the worker. -/
inductive WorkerMove : Node χ → Node χ → Prop
  | call (n : Node χ) (c : Option Call) : WorkerMove n { n with call := c }
  | heads (n : Node χ) : WorkerMove n n.heads.2
  | remove (n : Node χ) (id : Hash) : WorkerMove n (n.removeJob id)
  | update (n : Node χ) (j : Job) : WorkerMove n (n.updateJob j)
  | register (n : Node χ) (hash : Hash) :
    WorkerMove n (n.setTargets (n.board.targets.insert hash false))
  | erase (n : Node χ) (hash : Hash) : WorkerMove n (n.setTargets (n.board.targets.erase hash))
  | attach (n : Node χ) (b : Block) (peer : Option Peer) (c : Option Completion)
    (hc : Completion.For b.hash c) : WorkerMove n (n.enqueueAttach ⟨b, peer, c⟩)

/-- Some small moves of the worker, one after the other. -/
abbrev WorkerMoves : Node χ → Node χ → Prop := Relation.ReflTransGen WorkerMove

/-- What each small move of the worker keeps is kept. -/
theorem WorkerMoves.keep {n m : Node χ} {P : Node χ → Prop} (h : n.WorkerMoves m)
    (hP : ∀ a b, WorkerMove a b → P a → P b) (hn : P n) : P m := by
  induction h with
  | refl => exact hn
  | tail _ hab ih => exact hP _ _ hab ih

/-- The worker takes no time, and no part in what is remembered. -/
theorem WorkerMoves.frame {n m : Node χ} (h : n.WorkerMoves m) :
    m.now = n.now ∧ m.announcements = n.announcements := by
  refine h.keep (P := fun k => k.now = n.now ∧ k.announcements = n.announcements) ?_ ⟨rfl, rfl⟩
  intro a b hab ha
  cases hab <;> exact ha

theorem workerMoves_endCall (n : Node χ) (r : Except SyncError Unit) :
    n.WorkerMoves (n.endCall r).node := .single (.call n none)

theorem workerMoves_breakOff (n : Node χ) (p : Panic) : n.WorkerMoves (n.breakOff p).node :=
  .single (.call n none)

theorem workerMoves_nextRound (n : Node χ) : n.WorkerMoves n.nextRound.node :=
  .single (.call n _)

theorem workerMoves_pruneFirst (n : Node χ) (best : UInt64) (fuel : Nat) :
    n.WorkerMoves { n with board := (n.board.pruneFirst best fuel).2 } := by
  induction fuel generalizing n with
  | zero => exact .refl
  | succ fuel ih =>
    rw [JobBoard.pruneFirst]
    split
    · exact .refl
    · rename_i j _
      split
      · exact .refl
      · exact .head (.remove n j.id) (ih (n.removeJob j.id))

theorem workerMoves_downloadFrom (n : Node χ) (j : Job) (origins : List Tip) :
    n.WorkerMoves (n.downloadFrom j origins).node := by
  induction origins with
  | nil => exact .head (.remove n j.id) (workerMoves_nextRound _)
  | cons origin rest ih =>
    rw [downloadFrom]
    split
    · exact .single (.call n _)
    · exact ih

theorem workerMoves_lookForJob (n : Node χ) (heads : Heads) :
    n.WorkerMoves (n.lookForJob heads).node := by
  have hprune : n.WorkerMoves { n with board := (n.board.firstWaiting heads).2 } :=
    workerMoves_pruneFirst n heads.best.height (n.board.store.order.length + 1)
  rw [lookForJob]
  split <;> rename_i board hb <;> obtain rfl := congrArg Prod.snd hb
  · exact hprune.trans (workerMoves_endCall ..)
  · dsimp only
    refine hprune.trans ?_
    split
    · exact workerMoves_endCall ..
    · split
      · exact .head (.remove _ _) (workerMoves_nextRound _)
      · split
        · exact workerMoves_downloadFrom ..
        · exact workerMoves_breakOff ..

theorem workerMoves_beginRound (n : Node χ) : n.WorkerMoves n.beginRound.node := by
  rw [beginRound]
  split <;> rename_i m h <;> obtain rfl := congrArg Prod.snd h
  · exact .head (.heads n) (workerMoves_endCall ..)
  · exact .head (.heads n) (.single (.call _ _))

theorem workerMoves_callStep {n : Node χ} {t : CallTurn χ} (h : n.callStep = some t) :
    n.WorkerMoves t.node := by
  rw [callStep] at h
  split at h
  · exact Option.some.inj h ▸ workerMoves_beginRound n
  · exact Option.some.inj h ▸ workerMoves_lookForJob n _
  · cases h

theorem workerMoves_beginCall {n m : Node χ} (h : n.beginCall = some m) : n.WorkerMoves m := by
  rw [beginCall] at h
  split at h
  · exact Option.some.inj h ▸ .single (.call n _)
  · cases h

theorem workerMoves_withdrawTarget (n : Node χ) (registered : Option Hash) :
    n.WorkerMoves (n.withdrawTarget registered) := by
  cases registered with
  | none => exact .refl
  | some p => exact .single (.erase n p)

theorem workerMoves_registerTarget (n : Node χ) (previous : Option Hash) (target : Hash) :
    n.WorkerMoves (n.registerTarget previous target) := by
  cases previous with
  | none => exact .single (.register n target)
  | some p => exact .head (.register n target) (.single (.erase _ p))

theorem workerMoves_enqueueBatch (n : Node χ) (blocks : List Block) (peer : Option Peer)
    (target : Hash) : n.WorkerMoves (n.enqueueBatch blocks peer target) := by
  induction blocks generalizing n with
  | nil => exact .refl
  | cons b rest ih =>
    refine .head (.attach n b peer _ ?_) (ih _)
    intro h hmark
    split at hmark
    case isTrue hb => rw [hb, ← Completion.markTarget.inj (Option.some.inj hmark)]
    case isFalse => cases hmark

theorem workerMoves_receiveBatch (n : Node χ) (d : Download) (answer : BatchAnswer) :
    n.WorkerMoves (n.receiveBatch d answer).2 := by
  obtain ⟨e, h⟩ | ⟨-, h⟩ | ⟨blocks, last, -, -, -, h⟩ := n.receiveBatch_cases d answer
  · exact h ▸ workerMoves_withdrawTarget n _
  · exact h ▸ .refl
  · exact h ▸ (workerMoves_registerTarget ..).trans (workerMoves_enqueueBatch ..)

theorem workerMoves_downloadFailed (n : Node χ) (j : Job) (e : SyncError) :
    n.WorkerMoves (n.downloadFailed j e).node := by
  rw [downloadFailed]
  split
  · exact workerMoves_endCall ..
  · exact .head (.remove n j.id) (workerMoves_endCall ..)

theorem workerMoves_dropTarget (n : Node χ) (j : Job) : n.WorkerMoves (n.dropTarget j) := by
  rw [dropTarget]
  split
  · exact .single (.erase n j.current.hash)
  · exact .refl

theorem workerMoves_recordProgress (n : Node χ) (j : Job) (d : Download) :
    n.WorkerMoves (n.recordProgress j d).2 := by
  rw [recordProgress_eq]
  split
  · exact (workerMoves_dropTarget n j).tail (.update _ _)
  · exact workerMoves_dropTarget n j

theorem workerMoves_downloadOver (n : Node χ) (d : JobDownload) :
    n.WorkerMoves (n.downloadOver d).node := by
  have hrecord := workerMoves_recordProgress n d.job d.download
  rw [downloadOver]
  split
  · exact workerMoves_downloadFrom ..
  · split <;> rename_i m h <;> obtain rfl := congrArg Prod.snd h
    · exact hrecord.trans (workerMoves_endCall ..)
    · exact hrecord.trans (workerMoves_breakOff ..)

theorem workerMoves_answerCall (n : Node χ) (answer : BatchAnswer) :
    n.WorkerMoves (n.answerCall answer).node := by
  rw [answerCall]
  split
  case h_2 => exact .refl
  case h_1 d _ =>
    have hreceive := workerMoves_receiveBatch n d.download answer
    split <;> rename_i m h <;> rw [h] at hreceive
    · exact hreceive.trans (workerMoves_downloadFailed ..)
    · dsimp only
      split
      · exact hreceive.trans (.single (.call _ _))
      · exact hreceive.trans (workerMoves_downloadOver ..)

/-! ## Each queue holds its own kind of work -/

/-- The numbers of the pipeline are right, and each queue holds its own kind of work. -/
structure InPlace (n : Node χ) : Prop where
  sound : n.pipeline.Sound
  holds : n.pipeline.Holds (fun q w => w.Fresh q) (fun q w => w.Begun q)

variable {n : Node χ}

omit [ChainService χ] in
theorem inPlace_new (settings : SyncSettings) (now : Instant) (chain : χ) :
    (new settings now chain).InPlace := ⟨Pipeline.sound_empty, .empty⟩

omit [ChainService χ] in
theorem InPlace.enqueue (h : n.InPlace) {q : Queue} {w : Work} (hw : w.Fresh q) :
    (n.enqueue q w).InPlace :=
  ⟨h.sound.enqueue n.now q w, h.holds.enqueue n.now hw⟩

omit [ChainService χ] in
theorem InPlace.congr (h : n.InPlace) {m : Node χ} (hm : m.pipeline = n.pipeline) : m.InPlace :=
  ⟨hm ▸ h.sound, hm ▸ h.holds⟩

omit [ChainService χ] in
theorem InPlace.advance (h : n.InPlace) {q : Queue} {w w' : Work}
    (hrunning : (n.pipeline.lane q).running = some w) (hw : w'.Begun q) :
    ({ n with pipeline := n.pipeline.advance q w' } : Node χ).InPlace :=
  ⟨h.sound.advance (by rw [hrunning]; rfl) w', h.holds.advance hw⟩

theorem InPlace.intake (h : n.InPlace) {m : Node χ} (hm : Intake n m) : m.InPlace := by
  cases hm with
  | fetch => exact h.enqueue trivial
  | attach => exact h.enqueue (Completion.for_none _)
  | post q => exact ⟨h.sound.post q, h.holds.post q⟩
  | wait | announcements | job | heads | lookUp => exact h.congr rfl

theorem InPlace.workerMove (h : n.InPlace) {m : Node χ} (hm : WorkerMove n m) : m.InPlace := by
  cases hm with
  | attach b peer c hc => exact h.enqueue hc
  | call | heads | remove | update | register | erase => exact h.congr rfl

theorem InPlace.intakes (h : n.InPlace) {m : Node χ} (hm : n.Intakes m) : m.InPlace :=
  hm.keep (fun _ _ hab ha => ha.intake hab) h

theorem InPlace.workerMoves (h : n.InPlace) {m : Node χ} (hm : n.WorkerMoves m) : m.InPlace :=
  hm.keep (fun _ _ hab ha => ha.workerMove hab) h

theorem running_intakes {m : Node χ} (h : n.Intakes m) (q : Queue) :
    (m.pipeline.lane q).running = (n.pipeline.lane q).running := by
  apply h.keep (P := fun k => (k.pipeline.lane q).running = (n.pipeline.lane q).running) ?_ rfl
  intro a b hab ha
  rw [← ha]
  cases hab with
  | fetch | attach => exact Pipeline.running_enqueue
  | post => exact Pipeline.lane_post_running
  | wait | announcements | job | heads | lookUp => rfl

theorem begun_beginFetch (n : Node χ) (w : Wanted) (retries : Nat) :
    (n.beginFetch w retries).1.Begun .fetch := by
  rw [beginFetch]
  split
  · split <;> trivial
  · trivial

/-- Work that comes further stays on its queue; what it enqueues is in its place. -/
theorem InPlace.workStep (h : n.InPlace) {q : Queue} {w w' : Work} {m : Node χ}
    (hrunning : (n.pipeline.lane q).running = some w) (hw : n.workStep w = some (w', m)) :
    ({ m with pipeline := m.pipeline.advance q w' } : Node χ).InPlace := by
  have hbegun := h.holds.running q w hrunning
  have hsame {k : Node χ} (v : Work) (hv : v.Begun q)
      (hk : k.pipeline = n.pipeline.advance q v) : k.InPlace :=
    (h.advance hrunning hv).congr hk
  cases w <;> simp only [Node.workStep, Option.some.injEq, reduceCtorEq] at hw
  case fetch wanted retries =>
    cases q with
    | attach | update => exact hbegun.elim
    | fetch =>
      have hfetch := begun_beginFetch n wanted retries
      have hin := intakes_beginFetch n wanted retries
      rw [hw] at hfetch hin
      exact (h.intakes hin).advance (running_intakes hin _ ▸ hrunning) hfetch
  case attach a =>
    split at hw <;> rename_i hk <;> obtain ⟨rfl, rfl⟩ := Prod.mk.inj hw <;>
      obtain rfl := congrArg Prod.snd hk
    · exact hsame _ (Work.begun_ended q _) rfl
    · exact hsame _ (Work.begun_ended q _) (by rw [pipeline_complete]; rfl)
    · exact hsame _ (by cases q <;> exact hbegun) rfl
  case judge a =>
    split at hw <;> rename_i hk <;> obtain rfl := congrArg Prod.snd hk
    · obtain ⟨rfl, rfl⟩ := Prod.mk.inj hw
      exact hsame _ (Work.begun_ended q _) rfl
    · split at hw <;> obtain ⟨rfl, rfl⟩ := Prod.mk.inj hw
      · exact hsame _ (by cases q <;> exact hbegun) rfl
      · exact hsame _ (Work.begun_ended q _) rfl
  case store a irreversible =>
    split at hw <;> rename_i hk <;> obtain ⟨rfl, rfl⟩ := Prod.mk.inj hw <;>
      obtain rfl := congrArg Prod.snd hk
    · exact hsame _ (Work.begun_ended q _) rfl
    · exact hsame _ (by cases q <;> exact hbegun) rfl
  case handOver a =>
    obtain ⟨rfl, rfl⟩ := Prod.mk.inj hw
    have hfresh : (Work.update a.block.hash a.completion).Fresh .update := by
      cases q <;> first | exact hbegun | exact hbegun.elim
    exact (h.enqueue hfresh).advance (Pipeline.running_enqueue.trans hrunning)
      (Work.begun_ended q _)
  case update hash c =>
    split at hw <;> rename_i hk <;> obtain ⟨rfl, rfl⟩ := Prod.mk.inj hw <;>
      obtain rfl := congrArg Prod.snd hk
    · exact hsame _ (Work.begun_ended q _) rfl
    · exact hsame _ (by cases q <;> trivial) rfl
  case report c =>
    obtain ⟨rfl, rfl⟩ := Prod.mk.inj hw
    exact hsame _ (Work.begun_ended q _) (by rw [pipeline_complete]; rfl)

theorem InPlace.queueStep (h : n.InPlace) {q : Queue} {m : Node χ} (hm : n.queueStep q = some m) :
    m.InPlace := by
  obtain ⟨p, hp, rfl⟩ | ⟨r, hr, rfl⟩ | ⟨w, w', k, hrunning, hk, rfl⟩ := queueStep_cases hm
  · exact ⟨h.sound.receive hp, h.holds.receive (fun _ => Work.Fresh.begun) hp⟩
  · exact ⟨h.sound.finish (by rw [hr]; rfl), h.holds.finish q⟩
  · exact h.workStep hrunning hk

/-- A queue that has work can take a step, unless it waits for a peer. -/
theorem InPlace.queueStep_isSome (h : n.InPlace) {q : Queue} (hq : q ≠ .fetch)
    (hworks : (n.pipeline.lane q).works ≠ []) : (n.queueStep q).isSome := by
  rw [Node.queueStep]
  split
  case h_1 hr =>
    rw [Option.isSome_map]
    exact Pipeline.receive_isSome hr fun hw => hworks (by rw [Lane.works, hr, hw]; rfl)
  case h_2 => rfl
  case h_3 w hne hr =>
    have hbegun := h.holds.running q w hr
    rw [Option.isSome_map]
    cases w with
    | ended r => exact absurd rfl (hne r)
    | fetching => cases q <;> first | exact absurd rfl hq | exact hbegun.elim
    | fetch | attach | judge | store | handOver | update | report => rfl

/-- A pipeline without work can only answer barriers. -/
theorem queueStep_of_idle (hidle : n.pipeline.Idle) {q : Queue} {m : Node χ}
    (hm : n.queueStep q = some m) : ∃ p, p.Idle ∧ m = { n with pipeline := p } := by
  have hnone : (n.pipeline.lane q).running = none := by
    simpa [Lane.works] using (List.append_eq_nil_iff.mp (hidle q)).1
  obtain ⟨p, hp, rfl⟩ | ⟨r, hr, -⟩ | ⟨w, w', k, hr, -⟩ := queueStep_cases hm
  · exact ⟨p, fun r => by rw [Pipeline.works_receive hp, hidle], rfl⟩
  · rw [hnone] at hr
    cases hr
  · rw [hnone] at hr
    cases hr

/-- Whatever happens, each queue holds its own kind of work. -/
theorem inPlace_step {act : κ → χ → χ} (h : n.InPlace) {e : Event κ} {m : Node χ}
    (hstep : step act n e = some m) : m.InPlace := by
  cases happens_of_step hstep with
  | intake _ hm => exact h.intakes hm
  | fetched hrunning hk =>
    exact (h.intakes hk).advance (running_intakes hk _ ▸ hrunning) (Work.begun_ended _ _)
  | queue hm => exact h.queueStep hm
  | call hm => exact h.workerMoves (workerMoves_beginCall hm)
  | callStep ht => exact h.workerMoves (workerMoves_callStep ht)
  | answerCall answer => exact h.workerMoves (workerMoves_answerCall n answer)
  | chain change => exact h.congr rfl

theorem inPlace_run {act : κ → χ → χ} {settings : SyncSettings} {now : Instant} {chain : χ}
    {events : List (Event κ)} (hrun : run act (new settings now chain) events = some n) : n.InPlace :=
  run_invariant (fun _ _ _ _ hm hstep => inPlace_step hm hstep) (inPlace_new settings now chain) hrun

/-! ## What every event keeps -/

/-- The settings never change. -/
theorem settings_step {act : κ → χ → χ} {e : Event κ} {m : Node χ} (hstep : step act n e = some m) :
    m.settings = n.settings := by
  have hintakes {k : Node χ} (hk : n.Intakes k) : k.settings = n.settings := by
    refine hk.keep (P := fun k => k.settings = n.settings) (fun a b hab ha => ?_) rfl
    rw [← ha]
    cases hab <;> rfl
  have hworker {k : Node χ} (hk : n.WorkerMoves k) : k.settings = n.settings := by
    refine hk.keep (P := fun k => k.settings = n.settings) (fun a b hab ha => ?_) rfl
    rw [← ha]
    cases hab <;> rfl
  cases happens_of_step hstep with
  | intake _ hm => exact hintakes hm
  | fetched _ hk => exact (hintakes hk :)
  | queue hm => exact (queueStep_frame hm).1
  | call hm => exact hworker (workerMoves_beginCall hm)
  | callStep ht => exact hworker (workerMoves_callStep ht)
  | answerCall answer => exact hworker (workerMoves_answerCall n answer)
  | chain change => rfl

theorem settings_run {act : κ → χ → χ} {events : List (Event κ)} {m : Node χ}
    (hrun : run act n events = some m) : m.settings = n.settings :=
  run_invariant (P := fun k => k.settings = n.settings)
    (fun _ _ _ _ hk hstep => (settings_step hstep).trans hk) rfl hrun

/-- The stored jobs are listed once each. -/
theorem valid_step {act : κ → χ → χ} (h : n.board.store.Valid) {e : Event κ} {m : Node χ}
    (hstep : step act n e = some m) : m.board.store.Valid := by
  have hintakes {k : Node χ} (hk : n.Intakes k) : k.board.store.Valid := by
    refine hk.keep (P := fun k => k.board.store.Valid) (fun a b hab ha => ?_) h
    cases hab with
    | job target batch peer =>
      rw [enqueueJob]
      obtain hj | ⟨j, -, hj⟩ := JobBoard.store_enqueue (b := a.board) a.now target batch peer
      · rwa [hj]
      · rw [hj]
        exact ha.add j
    | wait | post | announcements | fetch | attach | heads | lookUp => exact ha
  have hworker {k : Node χ} (hk : n.WorkerMoves k) : k.board.store.Valid := by
    refine hk.keep (P := fun k => k.board.store.Valid) (fun a b hab ha => ?_) h
    cases hab with
    | remove id =>
      rw [removeJob, JobBoard.store_remove]
      exact ha.remove id
    | update j => exact ha.update j
    | call | heads | register | erase | attach => exact ha
  cases happens_of_step hstep with
  | intake _ hm => exact hintakes hm
  | fetched _ hk => exact (hintakes hk :)
  | queue hm =>
    obtain ⟨-, -, c, hboard⟩ := queueStep_frame hm
    rwa [hboard, store_complete]
  | call hm => exact hworker (workerMoves_beginCall hm)
  | callStep ht => exact hworker (workerMoves_callStep ht)
  | answerCall answer => exact hworker (workerMoves_answerCall n answer)
  | chain change => exact h

theorem valid_run {act : κ → χ → χ} (h : n.board.store.Valid) {events : List (Event κ)} {m : Node χ}
    (hrun : run act n events = some m) : m.board.store.Valid :=
  run_invariant (P := fun k => k.board.store.Valid) (fun _ _ _ _ hk hstep => valid_step hk hstep) h hrun

end Node

end ChainNode

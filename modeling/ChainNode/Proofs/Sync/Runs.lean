import ChainNode.Sync.Node.Run
import Mathlib.Data.List.Induction
import Mathlib.Logic.Relation

/-!
# Runs and what happens in them

What every event that can happen keeps, a whole run keeps (`Node.run_invariant`). Where the events so
far matter, `Node.run_history` carries them along.

What an event does is said once, by `Node.Happens`: it brings something in, or a queue or a call of
the worker comes a step further, or others change the chain. Bringing in is done in a few small moves
(`Node.Intake`), so what each of them keeps is kept wherever blocks come in.
-/

namespace ChainNode.Node

variable {χ κ : Type}

/-! ## Runs -/

section Run
variable [ChainService χ] {act : κ → χ → χ} {n n' : Node χ}

@[simp] theorem run_nil : run act n [] = some n := rfl

theorem run_cons (e : Event κ) (events : List (Event κ)) :
    run act n (e :: events) = (step act n e).bind fun m => run act m events := rfl

theorem run_append (first second : List (Event κ)) :
    run act n (first ++ second) = (run act n first).bind fun m => run act m second :=
  List.foldlM_append ..

theorem run_concat (events : List (Event κ)) (e : Event κ) :
    run act n (events ++ [e]) = (run act n events).bind fun m => step act m e := by
  rw [run_append]
  congr 1
  funext m
  simp [run_cons]

/-- What each event keeps, a run keeps. -/
theorem run_invariant {P : Node χ → Prop} {events : List (Event κ)}
    (hstep : ∀ e ∈ events, ∀ m m', P m → step act m e = some m' → P m') (h : P n)
    (hrun : run act n events = some n') : P n' := by
  induction events generalizing n with
  | nil => exact Option.some.inj hrun ▸ h
  | cons e events ih =>
    rw [run_cons] at hrun
    obtain ⟨m, hm, hrest⟩ := Option.bind_eq_some_iff.mp hrun
    exact ih (fun e' he' => hstep e' (List.mem_cons_of_mem _ he'))
      (hstep e List.mem_cons_self n m h hm) hrest

/-- What holds at first and is kept along the events so far, holds of a run. -/
theorem run_history {P : List (Event κ) → Node χ → Prop} {events : List (Event κ)}
    (hstep : ∀ past m e m', run act n past = some m → P past m → step act m e = some m' →
      P (past ++ [e]) m') (h : P [] n) (hrun : run act n events = some n') : P events n' := by
  induction events using List.reverseRecOn generalizing n' with
  | nil => exact Option.some.inj hrun ▸ h
  | append_singleton past e ih =>
    rw [run_concat] at hrun
    obtain ⟨m, hm, hlast⟩ := Option.bind_eq_some_iff.mp hrun
    exact hstep past m e n' hm (ih hm) hlast

end Run

/-! ## What operations leave alone -/

section Fields
variable (n : Node χ)

@[simp] theorem chain_enqueue (q : Queue) (w : Work) : (n.enqueue q w).chain = n.chain := rfl
@[simp] theorem pipeline_enqueue (q : Queue) (w : Work) :
    (n.enqueue q w).pipeline = n.pipeline.enqueue n.now q w := rfl
@[simp] theorem board_enqueue (q : Queue) (w : Work) : (n.enqueue q w).board = n.board := rfl

@[simp] theorem store_setTargets (ts : Targets) : (n.setTargets ts).board.store = n.board.store := rfl
@[simp] theorem targets_setTargets (ts : Targets) : (n.setTargets ts).board.targets = ts := rfl

@[simp] theorem settings_complete (c : Option Completion) : (n.complete c).settings = n.settings := by
  match c with
  | none | some (.markTarget _) | some (.note _) => rfl

@[simp] theorem now_complete (c : Option Completion) : (n.complete c).now = n.now := by
  match c with
  | none | some (.markTarget _) | some (.note _) => rfl

@[simp] theorem call_complete (c : Option Completion) : (n.complete c).call = n.call := by
  match c with
  | none | some (.markTarget _) | some (.note _) => rfl

@[simp] theorem pipeline_complete (c : Option Completion) : (n.complete c).pipeline = n.pipeline := by
  match c with
  | none | some (.markTarget _) | some (.note _) => rfl

@[simp] theorem store_complete (c : Option Completion) :
    (n.complete c).board.store = n.board.store := by
  match c with
  | none | some (.markTarget _) | some (.note _) => rfl

@[simp] theorem settings_enqueueBatch (blocks : List Block) (peer : Option Peer) (target : Hash) :
    (n.enqueueBatch blocks peer target).settings = n.settings := by
  induction blocks generalizing n with
  | nil => rfl
  | cons b rest ih => exact ih (n.enqueueAttach _)

@[simp] theorem now_enqueueBatch (blocks : List Block) (peer : Option Peer) (target : Hash) :
    (n.enqueueBatch blocks peer target).now = n.now := by
  induction blocks generalizing n with
  | nil => rfl
  | cons b rest ih => exact ih (n.enqueueAttach _)

@[simp] theorem chain_enqueueBatch (blocks : List Block) (peer : Option Peer) (target : Hash) :
    (n.enqueueBatch blocks peer target).chain = n.chain := by
  induction blocks generalizing n with
  | nil => rfl
  | cons b rest ih => exact ih (n.enqueueAttach _)

@[simp] theorem board_enqueueBatch (blocks : List Block) (peer : Option Peer) (target : Hash) :
    (n.enqueueBatch blocks peer target).board = n.board := by
  induction blocks generalizing n with
  | nil => rfl
  | cons b rest ih => exact ih (n.enqueueAttach _)

@[simp] theorem settings_registerTarget (previous : Option Hash) (target : Hash) :
    (n.registerTarget previous target).settings = n.settings := rfl
@[simp] theorem now_registerTarget (previous : Option Hash) (target : Hash) :
    (n.registerTarget previous target).now = n.now := rfl
@[simp] theorem chain_registerTarget (previous : Option Hash) (target : Hash) :
    (n.registerTarget previous target).chain = n.chain := rfl
@[simp] theorem pipeline_registerTarget (previous : Option Hash) (target : Hash) :
    (n.registerTarget previous target).pipeline = n.pipeline := rfl
@[simp] theorem store_registerTarget (previous : Option Hash) (target : Hash) :
    (n.registerTarget previous target).board.store = n.board.store := rfl

@[simp] theorem store_updateJob (j : Job) :
    (n.updateJob j).board.store = (n.board.store.update j).2 := rfl

@[simp] theorem settings_dropTarget (j : Job) : (n.dropTarget j).settings = n.settings := by
  rw [dropTarget]
  split <;> rfl

@[simp] theorem now_dropTarget (j : Job) : (n.dropTarget j).now = n.now := by
  rw [dropTarget]
  split <;> rfl

@[simp] theorem chain_dropTarget (j : Job) : (n.dropTarget j).chain = n.chain := by
  rw [dropTarget]
  split <;> rfl

@[simp] theorem pipeline_dropTarget (j : Job) : (n.dropTarget j).pipeline = n.pipeline := by
  rw [dropTarget]
  split <;> rfl

@[simp] theorem store_dropTarget (j : Job) : (n.dropTarget j).board.store = n.board.store := by
  rw [dropTarget]
  split <;> rfl

@[simp] theorem batchDeadline_dropTarget (j : Job) (d : Download) :
    (n.dropTarget j).batchDeadline d = n.batchDeadline d := by
  rw [batchDeadline, settings_dropTarget, now_dropTarget, batchDeadline]

@[simp] theorem batchDeadline_registerTarget (previous : Option Hash) (target : Hash) (d : Download) :
    (n.registerTarget previous target).batchDeadline d = n.batchDeadline d := rfl

@[simp] theorem batchDeadline_enqueueBatch (blocks : List Block) (peer : Option Peer) (target : Hash)
    (d : Download) : (n.enqueueBatch blocks peer target).batchDeadline d = n.batchDeadline d := by
  rw [batchDeadline, settings_enqueueBatch, now_enqueueBatch, batchDeadline]

/-- There is a deadline now if there is one at some later instant. -/
theorem exists_batchDeadline {n : Node χ} {latest : Instant} (hnow : n.now ≤ latest) {d : Download}
    {span : Duration} (hspan : n.settings.perBlock.times (d.count % UInt32.size) = .ok span)
    (hlast : latest.after span ≤ Instant.last) : ∃ deadline, n.batchDeadline d = .ok deadline := by
  have hplus : n.now.plus span = .ok (n.now.after span) :=
    if_pos (Int.le_trans (Int.add_le_add_right hnow _) hlast)
  rw [batchDeadline, hspan]
  exact ⟨_, hplus⟩

/-- Progress takes back the old target; the job is exchanged unless its deadline is no instant. -/
theorem recordProgress_eq (n : Node χ) (j : Job) (d : Download) :
    n.recordProgress j d = match n.batchDeadline d with
      | .ok deadline => (.ok (), (n.dropTarget j).updateJob (advancedJob j d deadline))
      | .error p => (.error p, n.dropTarget j) := by
  cases hdeadline : n.batchDeadline d with
  | ok _ | error _ => simp only [recordProgress, batchDeadline_dropTarget, hdeadline]

@[simp] theorem settings_recordProgress (j : Job) (d : Download) :
    (n.recordProgress j d).2.settings = n.settings := by
  rw [recordProgress_eq]
  split <;> exact settings_dropTarget n j

@[simp] theorem chain_recordProgress (j : Job) (d : Download) :
    (n.recordProgress j d).2.chain = n.chain := by
  rw [recordProgress_eq]
  split <;> exact chain_dropTarget n j

@[simp] theorem pipeline_recordProgress (j : Job) (d : Download) :
    (n.recordProgress j d).2.pipeline = n.pipeline := by
  rw [recordProgress_eq]
  split <;> exact pipeline_dropTarget n j

/-- A job that has started goes on from its last block, unless that is too far ahead. -/
theorem origins_of_started {n : Node χ} {heads : Heads} {j : Job} (hs : j.started) {places : List Tip}
    (h : n.origins heads j = .ok places) :
    ∃ furthest, n.settings.overflow.sum heads.longest.height lead = .ok furthest ∧
      places = if j.current.height ≤ furthest then [j.current] else [] := by
  rw [origins, if_pos hs] at h
  cases hsum : n.settings.overflow.sum heads.longest.height lead with
  | error p =>
    rw [hsum] at h
    cases h
  | ok furthest =>
    rw [hsum] at h
    exact ⟨furthest, rfl, (Except.ok.inj h).symm⟩

/-- A job that is brought further is exchanged in the store. -/
theorem recordProgress_ok {n m : Node χ} {j : Job} {d : Download}
    (h : n.recordProgress j d = (.ok (), m)) :
    ∃ deadline, n.batchDeadline d = .ok deadline ∧
      m.board.store = (n.board.store.update (advancedJob j d deadline)).2 := by
  rw [recordProgress_eq] at h
  cases hdeadline : n.batchDeadline d with
  | error p =>
    rw [hdeadline] at h
    cases h
  | ok deadline =>
    rw [hdeadline] at h
    obtain rfl := (Prod.mk.inj h).2
    exact ⟨deadline, rfl, by rw [store_updateJob, store_dropTarget]⟩

/-- A download begins, or the next round does: a call does not end here. -/
@[simp] theorem ending?_downloadFrom (j : Job) (origins : List Tip) :
    (n.downloadFrom j origins).ending? = none := by
  induction origins with
  | nil => rfl
  | cons origin rest ih =>
    rw [downloadFrom]
    split
    · rfl
    · exact ih

end Fields

/-! ## What is brought in -/

/-- A small move of the code through which things come in. -/
inductive Intake [ChainService χ] : Node χ → Node χ → Prop
  | wait (n : Node χ) (millis : Nat) : Intake n { n with now := n.now + millis }
  | post (n : Node χ) (q : Queue) : Intake n { n with pipeline := (n.pipeline.post q).2 }
  | announcements (n : Node χ) (cache : AnnouncementCache) :
    Intake n { n with announcements := cache }
  | fetch (n : Node χ) (w : Wanted) (retries : Nat) : Intake n (n.enqueueFetch w retries)
  | attach (n : Node χ) (b : Block) (sender : Option Peer) :
    Intake n (n.enqueueAttach ⟨b, sender, none⟩)
  | job (n : Node χ) (target : Tip) (batch : Nat) (peer : Option Peer) :
    Intake n (n.enqueueJob target batch peer).2
  | heads (n : Node χ) : Intake n n.heads.2
  | lookUp (n : Node χ) (hash : Hash) : Intake n (n.lookUp hash).2

section Intakes
variable [ChainService χ]

/-- Some small moves, one after the other. -/
abbrev Intakes : Node χ → Node χ → Prop := Relation.ReflTransGen Intake

/-- What each small move keeps is kept. -/
theorem Intakes.keep {n m : Node χ} {P : Node χ → Prop} (h : n.Intakes m)
    (hP : ∀ a b, Intake a b → P a → P b) (hn : P n) : P m := by
  induction h with
  | refl => exact hn
  | tail _ hab ih => exact hP _ _ hab ih

theorem intakes_syncAnnounced (n : Node χ) (heads : Heads) (wanted : Wanted) (batch : Nat) :
    n.Intakes (n.syncAnnounced heads wanted batch).2 := by
  rw [syncAnnounced]
  split
  · simp only
    split
    · exact .single (.fetch n _ _)
    · exact .refl
  · exact .single (.job n _ _ _)
  · exact .refl

theorem intakes_syncBlock (n : Node χ) (heads : Heads) (b : Block) (batch : Nat)
    (peer : Option Peer) : n.Intakes (n.syncBlock heads b batch peer).2 := by
  rw [syncBlock]
  split
  · simp only
    split
    · exact .single (.attach n _ _)
    · exact .refl
  · exact .single (.job n _ _ _)
  · exact .refl

theorem intakes_announceUnder (n : Node χ) (heads : Heads) (block : Tip) (sender : Peer) :
    n.Intakes (n.announceUnder heads block sender).2 := by
  rw [announceUnder]
  split <;> rename_i m h <;> obtain rfl := congrArg Prod.snd h
  · exact .head (.announcements n _) (intakes_syncAnnounced ..)
  · exact .single (.announcements n _)
  · exact .single (.announcements n _)

theorem intakes_pushUnder (n : Node χ) (heads : Heads) (b : Block) (sender : Peer) :
    n.Intakes (n.pushUnder heads b sender).2 := by
  rw [pushUnder]
  split <;> rename_i m h <;> obtain rfl := congrArg Prod.snd h
  · exact .head (.announcements n _) (intakes_syncBlock ..)
  · exact .single (.announcements n _)
  · exact .single (.announcements n _)

theorem intakes_announce (n : Node χ) (block : Tip) (sender : Peer) :
    n.Intakes (n.announce block sender).2 := by
  rw [announce]
  split <;> rename_i m h <;> obtain rfl := congrArg Prod.snd h
  · exact .single (.heads n)
  · exact .head (.heads n) (intakes_announceUnder ..)

theorem intakes_push (n : Node χ) (b : Block) (sender : Peer) :
    n.Intakes (n.push b sender).2 := by
  rw [push]
  split <;> rename_i m h <;> obtain rfl := congrArg Prod.snd h
  · exact .single (.heads n)
  · exact .head (.heads n) (intakes_pushUnder ..)

/-- The block that was asked for is enqueued to be attached, and nothing else is. -/
theorem intakes_acceptBlock (n : Node χ) (w : Wanted) (answer : BlockAnswer) :
    n.Intakes (n.acceptBlock w answer).2 := by
  unfold acceptBlock
  split
  · split
    · exact .single (.attach n _ _)
    · exact .refl
  · exact .refl

theorem intakes_notFetched (n : Node χ) (w : Wanted) (retries : Nat) :
    n.Intakes (n.notFetched w retries).2 := by
  cases retries with
  | succ retries => exact .single (.fetch n _ _)
  | zero =>
    simp only [notFetched]
    split
    · exact .head (.announcements n _) (.single (.fetch _ _ _))
    · exact .single (.announcements n _)
    · exact .single (.announcements n _)

theorem intakes_finishFetch (n : Node χ) (w : Wanted) (retries : Nat) (answer : BlockAnswer) :
    n.Intakes (n.finishFetch w retries answer).2 := by
  have haccept := intakes_acceptBlock n w answer
  rw [finishFetch]
  split <;> rename_i m h <;> obtain rfl := congrArg Prod.snd h
  · exact haccept.tail (.announcements _ _)
  · exact haccept.trans (intakes_notFetched ..)

theorem intakes_beginFetch (n : Node χ) (w : Wanted) (retries : Nat) :
    n.Intakes (n.beginFetch w retries).2 := by
  rw [beginFetch]
  split
  · have hlookUp : n.Intakes (n.lookUp w.block.hash).2 := .single (.lookUp n _)
    split <;> rename_i m h <;> obtain rfl := congrArg Prod.snd h
    · exact hlookUp
    · exact hlookUp.tail (.announcements _ _)
    · exact hlookUp
  · exact .refl

end Intakes

/-! ## What happens -/

/-- What a step of work does to the node, whatever it does to the chain. -/
inductive WorkEffect (n : Node χ) : Node χ → Prop
  /-- Nothing else. -/
  | chain (c : χ) : WorkEffect n { n with chain := c }
  /-- A block that was to be fetched is here. -/
  | fetched (c : χ) (w : Wanted) : WorkEffect n ({ n with chain := c }.fetched w).2
  /-- Somebody is told. -/
  | complete (c : χ) (completion : Option Completion) :
    WorkEffect n ({ n with chain := c }.complete completion)
  /-- A block is to be executed. -/
  | handOver (hash : Hash) (completion : Option Completion) :
    WorkEffect n (n.enqueue .update (.update hash completion))

theorem workEffect_of_workStep [ChainService χ] {n m : Node χ} {w w' : Work}
    (h : n.workStep w = some (w', m)) : n.WorkEffect m := by
  cases w <;> simp only [workStep, Option.some.injEq, reduceCtorEq] at h
  case fetch wanted retries =>
    obtain rfl := congrArg Prod.snd h
    rw [beginFetch]
    split
    · split <;> rename_i k hk <;> obtain rfl := congrArg Prod.snd hk
      · exact .chain _
      · exact .fetched _ wanted
      · exact .chain _
    · exact .chain n.chain
  case attach a =>
    split at h <;> rename_i k hk <;> obtain ⟨-, rfl⟩ := Prod.mk.inj h <;>
      obtain rfl := congrArg Prod.snd hk
    · exact .chain _
    · exact .complete _ a.completion
    · exact .chain _
  case judge a =>
    split at h <;> rename_i k hk <;> obtain rfl := congrArg Prod.snd hk
    · obtain ⟨-, rfl⟩ := Prod.mk.inj h
      exact .chain _
    · split at h <;> obtain ⟨-, rfl⟩ := Prod.mk.inj h <;> exact .chain _
  case store a irreversible =>
    split at h <;> rename_i k hk <;> obtain ⟨-, rfl⟩ := Prod.mk.inj h <;>
      obtain rfl := congrArg Prod.snd hk <;> exact .chain _
  case handOver a =>
    obtain ⟨-, rfl⟩ := Prod.mk.inj h
    exact .handOver a.block.hash a.completion
  case update hash c =>
    split at h <;> rename_i k hk <;> obtain ⟨-, rfl⟩ := Prod.mk.inj h <;>
      obtain rfl := congrArg Prod.snd hk <;> exact .chain _
  case report c =>
    obtain ⟨-, rfl⟩ := Prod.mk.inj h
    exact .complete n.chain c

/-- Work in the queues takes no part in the worker's call. All that it does to the board is to mark a
target. -/
theorem workStep_frame [ChainService χ] {n m : Node χ} {w w' : Work}
    (h : n.workStep w = some (w', m)) :
    m.settings = n.settings ∧ m.call = n.call ∧ ∃ c, m.board = (n.complete c).board := by
  cases workEffect_of_workStep h with
  | chain | fetched | handOver => exact ⟨rfl, rfl, none, rfl⟩
  | complete _ c =>
    refine ⟨settings_complete .., call_complete .., c, ?_⟩
    match c with
    | none | some (.markTarget _) | some (.note _) => rfl

/-- A queue receives its next message, puts ended work away, or its running work comes further. -/
theorem queueStep_cases [ChainService χ] {n m : Node χ} {q : Queue} (h : n.queueStep q = some m) :
    (∃ p, n.pipeline.receive q = some p ∧ m = { n with pipeline := p }) ∨
    (∃ r, (n.pipeline.lane q).running = some (.ended r) ∧
      m = { n with pipeline := n.pipeline.finish q }) ∨
    ∃ w w' k, (n.pipeline.lane q).running = some w ∧ n.workStep w = some (w', k) ∧
      m = { k with pipeline := k.pipeline.advance q w' } := by
  rw [queueStep] at h
  split at h
  case h_1 =>
    obtain ⟨p, hp, rfl⟩ := Option.map_eq_some_iff.mp h
    exact .inl ⟨p, hp, rfl⟩
  case h_2 r hr => exact .inr (.inl ⟨r, hr, (Option.some.inj h).symm⟩)
  case h_3 w _ hw =>
    obtain ⟨⟨w', k⟩, hk, rfl⟩ := Option.map_eq_some_iff.mp h
    exact .inr (.inr ⟨w, w', k, hw, hk, rfl⟩)

theorem queueStep_frame [ChainService χ] {n m : Node χ} {q : Queue} (h : n.queueStep q = some m) :
    m.settings = n.settings ∧ m.call = n.call ∧ ∃ c, m.board = (n.complete c).board := by
  obtain ⟨p, -, rfl⟩ | ⟨r, -, rfl⟩ | ⟨w, w', k, -, hk, rfl⟩ := queueStep_cases h
  · exact ⟨rfl, rfl, none, rfl⟩
  · exact ⟨rfl, rfl, none, rfl⟩
  · obtain ⟨hsettings, hcall, hboard⟩ := workStep_frame hk
    exact ⟨hsettings, hcall, hboard⟩

/-- A step of a queue takes no time. -/
theorem now_queueStep [ChainService χ] {n m : Node χ} {q : Queue} (h : n.queueStep q = some m) :
    m.now = n.now := by
  obtain ⟨p, -, rfl⟩ | ⟨r, -, rfl⟩ | ⟨w, w', k, -, hk, rfl⟩ := queueStep_cases h
  · rfl
  · rfl
  · cases workEffect_of_workStep hk with
    | chain | fetched | handOver => rfl
    | complete _ c => exact now_complete _ c

theorem now_notFetched (n : Node χ) (w : Wanted) (retries : Nat) :
    (n.notFetched w retries).2.now = n.now := by
  cases retries with
  | succ retries => rfl
  | zero =>
    simp only [notFetched]
    split <;> rfl

theorem now_finishFetch (n : Node χ) (w : Wanted) (retries : Nat) (answer : BlockAnswer) :
    (n.finishFetch w retries answer).2.now = n.now := by
  have haccept : (n.acceptBlock w answer).2.now = n.now := by
    rw [acceptBlock.eq_def]
    repeat' split
    all_goals rfl
  rw [finishFetch]
  split <;> rename_i m h <;> obtain rfl := congrArg Prod.snd h
  · exact haccept
  · exact (now_notFetched _ w retries).trans haccept

/-- The answer to a queue's work takes no time. -/
theorem now_answerQueue (n : Node χ) (q : Queue) (answer : BlockAnswer) :
    (n.answerQueue q answer).now = n.now := by
  rw [answerQueue]
  split
  · exact now_finishFetch n _ _ answer
  · rfl

/-- What an event does. -/
inductive Happens [ChainService χ] (act : κ → χ → χ) (n : Node χ) : Event κ → Node χ → Prop
  /-- Something is brought in. -/
  | intake {e : Event κ} {m : Node χ} (he : ∀ q, e ≠ .queue q) (h : n.Intakes m) : Happens act n e m
  /-- A fetch ends with the peer's answer. -/
  | fetched {q : Queue} {answer : BlockAnswer} {w : Wanted} {retries : Nat} {k : Node χ} {e : Ending}
    (hrunning : (n.pipeline.lane q).running = some (.fetching w retries)) (h : n.Intakes k) :
    Happens act n (.answerQueue q answer) { k with pipeline := k.pipeline.advance q (.ended e) }
  | queue {q : Queue} {m : Node χ} (h : n.queueStep q = some m) : Happens act n (.queue q) m
  | call {m : Node χ} (h : n.beginCall = some m) : Happens act n .call m
  | callStep {t : CallTurn χ} (h : n.callStep = some t) : Happens act n .callStep t.node
  | answerCall (answer : BatchAnswer) : Happens act n (.answerCall answer) (n.answerCall answer).node
  /-- Others change the chain. -/
  | chain (change : κ) : Happens act n (.chain change) { n with chain := act change n.chain }

theorem happens_of_step [ChainService χ] {act : κ → χ → χ} {n m : Node χ} {e : Event κ}
    (h : step act n e = some m) : Happens act n e m := by
  cases e <;> simp only [step, Option.some.injEq] at h
  case wait millis => exact .intake nofun (h ▸ .single (.wait n millis))
  case announce block sender => exact .intake nofun (h ▸ intakes_announce n block sender)
  case push block sender => exact .intake nofun (h ▸ intakes_push n block sender)
  case announceUnder heads block sender =>
    exact .intake nofun (h ▸ intakes_announceUnder n heads block sender)
  case pushUnder heads block sender => exact .intake nofun (h ▸ intakes_pushUnder n heads block sender)
  case syncAnnounced heads wanted batch =>
    exact .intake nofun (h ▸ intakes_syncAnnounced n heads wanted batch)
  case syncBlock heads block batch peer =>
    exact .intake nofun (h ▸ intakes_syncBlock n heads block batch peer)
  case enqueueJob target batch peer => exact .intake nofun (h ▸ .single (.job n target batch peer))
  case call => exact .call h
  case callStep =>
    obtain ⟨t, ht, rfl⟩ := Option.map_eq_some_iff.mp h
    exact .callStep ht
  case answerCall answer =>
    obtain ⟨r, -, rfl⟩ := Option.map_eq_some_iff.mp h
    exact .answerCall answer
  case queue q => exact .queue h
  case answerQueue q answer =>
    obtain ⟨r, hr, rfl⟩ := Option.map_eq_some_iff.mp h
    obtain ⟨w, hw, hrequest⟩ := Option.bind_eq_some_iff.mp hr
    cases w <;> simp only [Work.request?, reduceCtorEq] at hrequest
    case fetching wanted retries =>
      simp only [answerQueue, hw]
      exact .fetched hw (intakes_finishFetch n wanted retries answer)
  case post q => exact .intake nofun (h ▸ .single (.post n q))
  case chain change => exact h ▸ .chain change

end ChainNode.Node

import ChainNode.Proofs.Sync.Histories
import ChainNode.Proofs.Sync.Placement
import ChainNode.Sim.Chores

/-!
# Queues serve in order

The queues are watched while moves are made (`Pipeline.Watched`), and each guarantees the order of its
work, its numbers and its barriers (`Watched.Serves`).

One equation carries the order: what was put into a queue is what it took up followed by what waits
there (`Watched.Faithful.sent_eq`). Work and barriers wait in one line, so when a barrier is answered
all work before it has started, and nothing is running.

A node and the chores of a script make nothing but such moves (`Node.reaches_run`,
`Sim.ChoreWorld.reaches_queueStep`).
-/

namespace ChainNode

namespace Pipeline

variable {τ : Type}

/-- The queues with their history. -/
structure Watched (τ : Type) where
  pipeline : Pipeline τ
  history : History τ
  deriving DecidableEq, Repr

namespace Watched

/-- Nothing has happened. -/
def start : Watched τ := ⟨.empty, []⟩

/-- A move is made, and what is of note about it is noted. -/
def move? (s : Watched τ) (m : Move τ) : Option (Watched τ) :=
  (s.pipeline.move? m).map fun p => ⟨p, s.history ++ (m.entry? s.pipeline p).toList⟩

/-- Moves one after the other. -/
def moves? (s : Watched τ) (ms : List (Move τ)) : Option (Watched τ) := ms.foldlM move? s

/-- What a queue guarantees. -/
structure Serves (s : Watched τ) (q : Queue) : Prop where
  /-- What started, followed by what waits, is what was enqueued: work starts in the order in which it
  was enqueued and under its own time, each piece once, and none is left out. -/
  in_order : s.history.enqueued q =
    s.history.started q ++ (s.pipeline.lane q).inbox.filterMap Message.dated?
  /-- Whenever work started, all that started before it had ended. -/
  serial : s.history.Serial q
  /-- All that started has ended, but for what is running. -/
  started_eq : (s.history.started q).length =
    (s.history.endings q).length + (s.pipeline.lane q).running.isSome.toNat
  /-- What is pending is what was enqueued and has not ended. -/
  pending_eq : s.pipeline.pending q + (s.history.endings q).length = (s.history.enqueued q).length
  /-- When work ends there is something pending to take it off. -/
  pending_pos : (s.pipeline.lane q).running.isSome → 0 < s.pipeline.pending q
  /-- While work runs, the time shown is the one at which it was enqueued. -/
  time_running : (s.pipeline.lane q).running.isSome → ∃ t w,
    (s.history.enqueued q)[(s.history.endings q).length]? = some (t, w) ∧ s.pipeline.time q = some t
  /-- Otherwise none is shown. -/
  time_absent : (s.pipeline.lane q).running = none → s.pipeline.time q = none
  /-- When a barrier is answered, all work enqueued before it has ended. -/
  flushed : ∀ (past : History τ) k, past ++ [.sent q (.barrier k)] <+: s.history →
    s.pipeline.isAnswered k → (past.enqueued q).length ≤ (s.history.endings q).length
  /-- A queue that runs nothing takes up what waits, however the work before it ended. -/
  goes_on : (s.pipeline.lane q).running = none → (s.pipeline.lane q).inbox ≠ [] →
    (s.pipeline.receive q).isSome

/-- The queues are as their history says. -/
structure Faithful (s : Watched τ) : Prop where
  sound : s.pipeline.Sound
  sent_eq : ∀ q, s.history.sent q = s.history.taken q ++ (s.pipeline.lane q).inbox
  started_eq : ∀ q, (s.history.started q).length =
    (s.history.endings q).length + (s.pipeline.lane q).running.isSome.toNat
  time_eq : ∀ q, (s.pipeline.lane q).running.isSome →
    s.pipeline.time q = (s.history.started q).getLast?.map Prod.fst
  serial : ∀ q, s.history.Serial q
  tickets_eq : s.history.tickets = List.range s.pipeline.nextTicket
  flushed : ∀ k ∈ s.pipeline.answered, ∃ q, s.history.Flushed q k

variable {p p' : Pipeline τ} {h : History τ} {q : Queue} {m : Message τ}

theorem faithful_start : (start : Watched τ).Faithful where
  sound := sound_empty
  sent_eq q := by simp [start, empty, lane, History.sent, History.taken]
  started_eq q := by simp [start, empty, lane, History.started, History.endings, History.taken]
  time_eq q hq := by simp [start, empty, lane] at hq
  serial q past t w hpast := by simp [start] at hpast
  tickets_eq := rfl
  flushed k hk := by simp [start, empty] at hk

/-- A message is put at the end of a queue, and nothing else changes. -/
theorem Faithful.send (hs : Faithful ⟨p, h⟩) (hsound : p'.Sound)
    (hinbox : ∀ r, (p'.lane r).inbox = (p.lane r).inbox ++ if q = r then [m] else [])
    (hrunning : ∀ r, (p'.lane r).running = (p.lane r).running)
    (htime : ∀ r, p'.time r = p.time r) (hanswered : p'.answered = p.answered)
    (htickets : History.tickets (h ++ [.sent q m]) = List.range p'.nextTicket) :
    Faithful ⟨p', h ++ [.sent q m]⟩ where
  sound := hsound
  sent_eq r := by simp [hs.sent_eq r, hinbox]
  started_eq r := by simp [hs.started_eq r, hrunning]
  time_eq r hr := by
    rw [hrunning] at hr
    simp [hs.time_eq r hr, htime]
  serial r := (hs.serial r).concat nofun
  tickets_eq := htickets
  flushed k hk := by
    obtain ⟨r, hr⟩ := hs.flushed k (hanswered ▸ hk)
    exact ⟨r, hr.append _⟩

theorem Faithful.enqueue (hs : Faithful ⟨p, h⟩) (now : Instant) (q : Queue) (w : τ) :
    Faithful ⟨p.enqueue now q w, h ++ [.sent q (.work now w)]⟩ :=
  hs.send (hs.sound.enqueue now q w) (fun _ => inbox_enqueue) (fun _ => running_enqueue)
    (fun _ => time_enqueue) rfl
    (by simpa using hs.tickets_eq)

theorem Faithful.post (hs : Faithful ⟨p, h⟩) (q : Queue) :
    Faithful ⟨(p.post q).2, h ++ [.sent q (.barrier (p.post q).1)]⟩ :=
  hs.send (hs.sound.post q) (fun _ => inbox_post) (fun _ => lane_post_running)
    (fun _ => time_post) rfl
    (by
      have htickets : h.tickets = List.range p.nextTicket := hs.tickets_eq
      simp [htickets, List.range_succ])

/-- A queue that runs nothing takes up a message, and runs something then just if it is work. -/
theorem Faithful.take (hs : Faithful ⟨p, h⟩) (hsound : p'.Sound)
    (hnone : (p.lane q).running = none) (hinbox : (p.lane q).inbox = m :: (p'.lane q).inbox)
    (hrunning : (p'.lane q).running.isSome = m.dated?.isSome)
    (htime : ∀ t w, m = .work t w → p'.time q = some t)
    (hanswered : ∀ k ∈ p'.answered, k ∈ p.answered ∨ m = .barrier k)
    (htickets : p'.nextTicket = p.nextTicket)
    (hother : ∀ r, q ≠ r → p'.lane r = p.lane r ∧ p'.time r = p.time r) :
    Faithful ⟨p', h ++ [.taken q m]⟩ := by
  have hended : (h.endings q).length = (h.started q).length := by
    simpa [hnone] using (hs.started_eq q).symm
  refine ⟨hsound, fun r => ?_, fun r => ?_, fun r hr => ?_, fun r => (hs.serial r).concat ?_, ?_,
    fun k hk => ?_⟩
  · have hsent : h.sent r = h.taken r ++ (p.lane r).inbox := hs.sent_eq r
    by_cases hr : q = r
    · subst hr
      simp [hsent, hinbox]
    · simp [hsent, hr, (hother r hr).1]
  · by_cases hr : q = r
    · subst hr
      cases m <;> simp [hended, hrunning, Message.dated?]
    · simpa [hr, (hother r hr).1] using hs.started_eq r
  · by_cases he : q = r
    · subst he
      cases m with
      | work t w => simp [htime t w rfl, Message.dated?]
      | barrier k => simp [hrunning, Message.dated?] at hr
    · simpa [he, hother r he] using hs.time_eq r (by rwa [← (hother r he).1])
  · rintro t w heq
    obtain ⟨rfl, -⟩ := Entry.taken.inj heq
    exact hended
  · simpa [htickets] using hs.tickets_eq
  · rcases hanswered k hk with hk | rfl
    · obtain ⟨r, hr⟩ := hs.flushed k hk
      exact ⟨r, hr.append _⟩
    · -- What was put into the queue before the barrier is what the queue took up, and that has ended.
      obtain ⟨past, hpast, hsent⟩ := History.exists_sent ((hs.sent_eq q).trans (by rw [hinbox]))
      refine ⟨q, History.Flushed.append ⟨past, hpast, ?_⟩ _⟩
      rw [hended, History.enqueued, hsent]
      exact Nat.le_refl _

theorem Faithful.receive (hs : Faithful ⟨p, h⟩) (hp : p.receive q = some p') :
    Faithful ⟨p', h ++ ((p'.latest q).map (Entry.taken q)).toList⟩ := by
  obtain ⟨hnone, htakes, -, htickets, hother⟩ := receive_takes hp
  have hsound := hs.sound.receive hp
  obtain ⟨t, w, hinbox, hrunning, htime, hanswered⟩ | ⟨k, hinbox, hrunning, -, hanswered⟩ := htakes
  · rw [show p'.latest q = some (.work t w) by simp [latest, hrunning, htime]]
    refine hs.take hsound hnone hinbox (by rw [hrunning]; rfl) ?_ (fun k hk => .inl (hanswered ▸ hk))
      htickets hother
    rintro t' w' ⟨⟩
    exact htime
  · rw [show p'.latest q = some (.barrier k) by simp [latest, hrunning, hanswered]]
    refine hs.take hsound hnone hinbox (by rw [hrunning]; rfl) nofun (fun k' hk => ?_) htickets hother
    rcases List.mem_cons.mp (hanswered ▸ hk) with rfl | hk
    · exact .inr rfl
    · exact .inl hk

theorem Faithful.advance (hs : Faithful ⟨p, h⟩) (hq : (p.lane q).running.isSome) (w : τ) :
    Faithful ⟨p.advance q w, h⟩ := by
  have hrunning (r : Queue) : ((p.advance q w).lane r).running.isSome = (p.lane r).running.isSome := by
    rw [running_advance]
    split_ifs with hr
    · rw [← hr, hq, Option.isSome_some]
    · rfl
  exact {
    sound := hs.sound.advance hq w
    sent_eq r := by simp [hs.sent_eq r]
    started_eq r := by
      rw [hrunning]
      exact hs.started_eq r
    time_eq r hr := by
      rw [hrunning] at hr
      exact hs.time_eq r hr
    serial := hs.serial
    tickets_eq := hs.tickets_eq
    flushed := hs.flushed }

theorem Faithful.finish (hs : Faithful ⟨p, h⟩) (hq : (p.lane q).running.isSome) (e : Ending) :
    Faithful ⟨p.finish q, h ++ [.ended q e]⟩ where
  sound := hs.sound.finish hq
  sent_eq r := by simp [hs.sent_eq r]
  started_eq r := by
    have hstarted : (h.started r).length = _ := hs.started_eq r
    rw [running_finish]
    by_cases hr : q = r
    · subst hr
      simp [hstarted, hq]
    · simp [hstarted, hr]
  time_eq r hr := by
    rw [running_finish] at hr
    split_ifs at hr with he
    · cases hr
    · simpa [he] using hs.time_eq r hr
  serial r := (hs.serial r).concat nofun
  tickets_eq := by simpa using hs.tickets_eq
  flushed k hk := by
    obtain ⟨r, hr⟩ := hs.flushed k hk
    exact ⟨r, hr.append _⟩

theorem Faithful.move {s s' : Watched τ} {m : Move τ} (hs : s.Faithful) (hm : s.move? m = some s') :
    s'.Faithful := by
  obtain ⟨p, h⟩ := s
  obtain ⟨p', hp, rfl⟩ := Option.map_eq_some_iff.mp hm
  cases m with
  | enqueue now q w => exact Option.some.inj hp ▸ hs.enqueue now q w
  | post q => exact Option.some.inj hp ▸ hs.post q
  | receive q => exact hs.receive hp
  | advance q w =>
    obtain ⟨hq, hp⟩ := Option.ite_none_right_eq_some.mp hp
    exact Option.some.inj hp ▸ (List.append_nil h).symm ▸ hs.advance hq w
  | finish q e =>
    obtain ⟨hq, hp⟩ := Option.ite_none_right_eq_some.mp hp
    exact Option.some.inj hp ▸ hs.finish hq e

theorem Faithful.moves {ms : List (Move τ)} {s s' : Watched τ} (hs : s.Faithful)
    (hms : s.moves? ms = some s') : s'.Faithful := by
  induction ms generalizing s with
  | nil => exact Option.some.inj hms ▸ hs
  | cons m ms ih =>
    obtain ⟨t, hm, hrest⟩ := Option.bind_eq_some_iff.mp hms
    exact ih (hs.move hm) hrest

/-! ## What is read off a faithful history -/

namespace Faithful

variable {s : Watched τ} (hs : s.Faithful) (q : Queue)
include hs

theorem enqueued_eq : s.history.enqueued q =
    s.history.started q ++ (s.pipeline.lane q).inbox.filterMap Message.dated? := by
  rw [History.enqueued, hs.sent_eq, List.filterMap_append]
  rfl

theorem pending_eq :
    s.pipeline.pending q + (s.history.endings q).length = (s.history.enqueued q).length := by
  have hworks : (s.pipeline.lane q).works.length =
      (s.pipeline.lane q).running.isSome.toNat + (s.pipeline.lane q).waiting.length := by
    rw [Lane.works, List.length_append]
    cases (s.pipeline.lane q).running <;> rfl
  rw [hs.sound.pending_eq, hworks, Lane.length_waiting, hs.enqueued_eq, List.length_append, hs.started_eq]
  omega

theorem time_running (hq : (s.pipeline.lane q).running.isSome) : ∃ t w,
    (s.history.enqueued q)[(s.history.endings q).length]? = some (t, w) ∧
      s.pipeline.time q = some t := by
  have hstarted : (s.history.started q).length = (s.history.endings q).length + 1 := by
    rw [hs.started_eq, hq]
    rfl
  have hlast : (s.history.started q).getLast? =
      (s.history.enqueued q)[(s.history.endings q).length]? := by
    rw [List.getLast?_eq_getElem?, hstarted, hs.enqueued_eq, List.getElem?_append_left (by omega)]
    rfl
  obtain ⟨t, ht⟩ := Option.isSome_iff_exists.mp ((hs.sound.time_isSome q).trans hq)
  obtain ⟨⟨t', w⟩, hw, rfl⟩ := Option.map_eq_some_iff.mp ((hs.time_eq q hq).symm.trans ht)
  exact ⟨t', w, hlast ▸ hw, ht⟩

theorem flushed_before {past : History τ} {k : Nat}
    (hpast : past ++ [.sent q (.barrier k)] <+: s.history) (hk : s.pipeline.isAnswered k) :
    (past.enqueued q).length ≤ (s.history.endings q).length := by
  obtain ⟨r, past', hpast', hle⟩ := hs.flushed k (List.contains_iff_mem.mp hk)
  obtain ⟨rfl, heq⟩ := History.ticket_unique (hs.tickets_eq ▸ List.nodup_range) rfl rfl hpast' hpast
  obtain ⟨rfl, -⟩ := Entry.sent.inj heq
  exact hle

end Faithful

end Watched

/-- **Queues serve in order.** Whatever moves are made from the start, in whatever order, each queue
guarantees what `Watched.Serves` says: its work starts one piece after the other in the order in which
it was enqueued, none is left out however the work before it ended, the numbers and times that are
shown are right, and a barrier is answered only when all work enqueued before it has ended. -/
theorem serves_in_order {ms : List (Move τ)} {s : Watched τ} (hms : Watched.start.moves? ms = some s)
    (q : Queue) : s.Serves q := by
  have hs : s.Faithful := Watched.faithful_start.moves hms
  have hpending := hs.sound.pending_eq q
  have htime := hs.sound.time_isSome q
  exact {
    in_order := hs.enqueued_eq q
    serial := hs.serial q
    started_eq := hs.started_eq q
    pending_eq := hs.pending_eq q
    pending_pos := fun hq => by
      obtain ⟨w, hw⟩ := Option.isSome_iff_exists.mp hq
      rw [hpending, Lane.works, hw]
      exact Nat.succ_pos _
    time_running := hs.time_running q
    time_absent := fun hq => by simpa [hq] using htime
    flushed := fun _ _ => hs.flushed_before q
    goes_on := receive_isSome_of_inbox }

/-- Work that enqueues more while it runs and then panics, work that fails, a barrier behind the two,
and work that is running. -/
def badEnds : List (Move Nat) :=
  [.enqueue 5 .fetch 1, .enqueue 6 .fetch 2, .post .fetch, .receive .fetch, .enqueue 7 .attach 9,
    .enqueue 8 .fetch 3, .advance .fetch 0, .finish .fetch .panicked, .receive .fetch,
    .finish .fetch .failed, .receive .fetch, .receive .fetch]

theorem serves_in_order_badEnds : ∃ s : Watched Nat, Watched.start.moves? badEnds = some s ∧
    s.history.started .fetch = [(5, 1), (6, 2), (8, 3)] ∧ s.pipeline.pending .fetch = 1 ∧
    s.pipeline.time .fetch = some 8 ∧ s.pipeline.isAnswered 0 ∧ s.Serves .fetch :=
  ⟨_, rfl, by decide, by decide, by decide, by decide,
    serves_in_order (show Watched.start.moves? badEnds = some _ from rfl) .fetch⟩

/-! ## Who makes the moves -/

/-- How the work of a node ends. -/
def Ending.ofWork : ChainNode.Ending → Ending
  | .returned (.ok _) => well
  | .returned (.error _) => failed
  | .panicked _ => panicked

/-- Some moves lead from one state of the queues to another, whatever has happened so far. -/
def Reaches (p p' : Pipeline τ) : Prop :=
  ∀ h, ∃ ms h', Watched.moves? ⟨p, h⟩ ms = some ⟨p', h'⟩

namespace Reaches

variable {p p' p'' : Pipeline τ} {m : Move τ}

theorem refl (p : Pipeline τ) : p.Reaches p := fun h => ⟨[], h, rfl⟩

theorem tail (hp : p.Reaches p') (hm : p'.move? m = some p'') : p.Reaches p'' := by
  intro h
  obtain ⟨ms, h', hms⟩ := hp h
  refine ⟨ms ++ [m], h' ++ (m.entry? p' p'').toList, ?_⟩
  rw [Watched.moves?] at hms ⊢
  simp [hms, Watched.move?, hm]

theorem single (hm : p.move? m = some p') : p.Reaches p' := (refl p).tail hm

theorem enqueue (h : p.Reaches p') (now : Instant) (q : Queue) (w : τ) :
    p.Reaches (p'.enqueue now q w) := h.tail (m := .enqueue now q w) rfl

theorem post (h : p.Reaches p') (q : Queue) : p.Reaches (p'.post q).2 := h.tail (m := .post q) rfl

theorem advance {q : Queue} (h : p.Reaches p') (hq : (p'.lane q).running.isSome) (w : τ) :
    p.Reaches (p'.advance q w) := h.tail (m := .advance q w) (if_pos hq)

theorem finish {q : Queue} (h : p.Reaches p') (hq : (p'.lane q).running.isSome) (e : Ending) :
    p.Reaches (p'.finish q) := h.tail (m := .finish q e) (if_pos hq)

end Reaches

end Pipeline

namespace Node

variable {χ κ : Type} [ChainService χ] {p : Pipeline Work} {n m : Node χ}

theorem reaches_intakes (hp : p.Reaches n.pipeline) (h : n.Intakes m) : p.Reaches m.pipeline := by
  refine h.keep (P := fun k => p.Reaches k.pipeline) (fun a b hab ha => ?_) hp
  cases hab with
  | post q => exact ha.post q
  | fetch | attach => exact ha.enqueue _ _ _
  | wait | announcements | job | heads | lookUp => exact ha

theorem reaches_workerMoves (hp : p.Reaches n.pipeline) (h : n.WorkerMoves m) :
    p.Reaches m.pipeline := by
  refine h.keep (P := fun k => p.Reaches k.pipeline) (fun a b hab ha => ?_) hp
  cases hab with
  | attach => exact ha.enqueue _ _ _
  | call | heads | remove | update | register | erase => exact ha

theorem reaches_queueStep {q : Queue} (hp : p.Reaches n.pipeline) (h : n.queueStep q = some m) :
    p.Reaches m.pipeline := by
  obtain ⟨p', hp', rfl⟩ | ⟨r, hr, rfl⟩ | ⟨w, w', k, hrunning, hk, rfl⟩ := queueStep_cases h
  · exact hp.tail (m := .receive q) hp'
  · exact hp.finish (by rw [hr]; rfl) (.ofWork r)
  · have hsome : (n.pipeline.lane q).running.isSome := by rw [hrunning]; rfl
    cases workEffect_of_workStep hk with
    | chain | fetched => exact hp.advance hsome w'
    | complete c completion =>
      simp only [pipeline_complete]
      exact hp.advance hsome w'
    | handOver hash completion =>
      exact (hp.enqueue _ _ _).advance (by rwa [Pipeline.running_enqueue]) w'

/-- Whatever happens to a node, its queues make moves. -/
theorem reaches_step {act : κ → χ → χ} {e : Event κ} (hp : p.Reaches n.pipeline)
    (hstep : step act n e = some m) : p.Reaches m.pipeline := by
  cases happens_of_step hstep with
  | intake _ hm => exact reaches_intakes hp hm
  | fetched hrunning hk =>
    exact (reaches_intakes hp hk).advance (by rw [running_intakes hk, hrunning]; rfl) _
  | queue hm => exact reaches_queueStep hp hm
  | call hm => exact reaches_workerMoves hp (workerMoves_beginCall hm)
  | callStep ht => exact reaches_workerMoves hp (workerMoves_callStep ht)
  | answerCall answer => exact reaches_workerMoves hp (workerMoves_answerCall n answer)
  | chain change => exact hp

/-- The queues of a node are where moves from the start lead. -/
theorem reaches_run {act : κ → χ → χ} {settings : SyncSettings} {now : Instant} {chain : χ}
    {events : List (Event κ)} (hrun : run act (new settings now chain) events = some n) :
    Pipeline.empty.Reaches n.pipeline :=
  run_invariant (P := fun k => Pipeline.empty.Reaches k.pipeline)
    (fun _ _ _ _ hp hstep => reaches_step hp hstep) (.refl _) hrun

end Node

namespace Sim.ChoreWorld

variable {ν : Type}

/-- Chores, too, make nothing but moves, whatever they enqueue and however they end. -/
theorem reaches_queueStep (w : ChoreWorld ν) (q : Queue) :
    w.pipeline.Reaches (w.queueStep q).2.pipeline := by
  rw [queueStep]
  split
  case h_1 c hrunning =>
    have hsome : (w.pipeline.lane q).running.isSome := by rw [hrunning]; rfl
    have here : w.pipeline.Reaches w.pipeline := .refl _
    simp only [choreStep]
    split
    · exact here.advance hsome _
    · split
      case h_1 => exact here.finish hsome .well
      case h_8 => exact (here.enqueue _ _ _).advance (by rwa [Pipeline.running_enqueue]) _
      case h_9 => exact here.finish hsome .failed
      all_goals exact here.advance hsome _
  case h_2 =>
    split
    case h_1 p hp => exact .single (m := .receive q) hp
    case h_2 => exact .refl _

end Sim.ChoreWorld

end ChainNode

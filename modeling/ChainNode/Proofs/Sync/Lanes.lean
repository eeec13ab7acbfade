import ChainNode.Sync.Node.Basic

/-!
# What is in the queues

The work of a queue is the piece that is running followed by those that wait, in order. Each operation
of the pipeline says what it does to the running piece and to those that wait, and changes no other
queue.

Two things hold whatever is enqueued: the numbers a pipeline keeps are right (`Pipeline.Sound`), and
what is enqueued under a condition waits and runs under it (`Pipeline.Holds`).
-/

namespace ChainNode

variable {τ : Type}

/-- The piece of work in a message, if it is not a barrier. -/
def Message.work? : Message τ → Option τ
  | work _ w => some w
  | barrier _ => none

/-- The work in a message with the time at which it was enqueued, if it is not a barrier. -/
def Message.dated? : Message τ → Option (Instant × τ)
  | work t w => some (t, w)
  | barrier _ => none

namespace Lane

/-- The pieces of work that wait, in order. -/
def waiting (l : Lane τ) : List τ := l.inbox.filterMap Message.work?

/-- The pieces of work that have not ended, in order. -/
def works (l : Lane τ) : List τ := l.running.toList ++ l.waiting

theorem length_waiting (l : Lane τ) :
    l.waiting.length = (l.inbox.filterMap Message.dated?).length := by
  have hwaiting : l.waiting = (l.inbox.filterMap Message.dated?).map Prod.snd := by
    rw [waiting, List.map_filterMap]
    congr 1
    funext m
    cases m <;> rfl
  rw [hwaiting, List.length_map]

end Lane

namespace Pipeline

variable {p p' : Pipeline τ} {q r : Queue} {now : Instant} {w : τ}

/-- No queue has work that waits or runs. -/
def Idle (p : Pipeline τ) : Prop := ∀ q, (p.lane q).works = []

@[simp] theorem lane_setLane (l : Lane τ) :
    (p.setLane q l).lane r = if q = r then l else p.lane r := by
  simp [setLane, lane]

@[simp] theorem lane_setTime (t : Option Instant) : (p.setTime q t).lane r = p.lane r := rfl

@[simp] theorem lane_answered (ks : List Nat) : lane { p with answered := ks } r = p.lane r := rfl

@[simp] theorem time_setLane (l : Lane τ) : (p.setLane q l).time r = p.time r := rfl

@[simp] theorem time_setTime (t : Option Instant) :
    (p.setTime q t).time r = if q = r then t else p.time r := by
  simp [setTime, time]

/-! ## Enqueueing -/

@[simp] theorem running_enqueue : ((p.enqueue now q w).lane r).running = (p.lane r).running := by
  simp only [enqueue, lane_setLane]
  split
  case isTrue h => rw [h]
  case isFalse => rfl

@[simp] theorem inbox_enqueue : ((p.enqueue now q w).lane r).inbox =
    (p.lane r).inbox ++ if q = r then [.work now w] else [] := by
  simp only [enqueue, lane_setLane]
  split
  case isTrue h => rw [h]
  case isFalse => rw [List.append_nil]

@[simp] theorem waiting_enqueue : ((p.enqueue now q w).lane r).waiting =
    if q = r then (p.lane r).waiting ++ [w] else (p.lane r).waiting := by
  rw [Lane.waiting, inbox_enqueue]
  split <;> simp [Lane.waiting, Message.work?]

@[simp] theorem pending_enqueue :
    (p.enqueue now q w).pending r = if q = r then p.pending r + 1 else p.pending r := by
  simp only [pending, enqueue, lane_setLane]
  split
  case isTrue h => rw [h]
  case isFalse => rfl

@[simp] theorem time_enqueue : (p.enqueue now q w).time r = p.time r := rfl

@[simp] theorem nextTicket_enqueue : (p.enqueue now q w).nextTicket = p.nextTicket := rfl

/-! ## Barriers -/

@[simp] theorem lane_post_running : ((p.post q).2.lane r).running = (p.lane r).running := by
  simp only [post, lane, setLane, PerQueue.get_set]
  split
  case isTrue h => rw [h]
  case isFalse => rfl

@[simp] theorem inbox_post : ((p.post q).2.lane r).inbox =
    (p.lane r).inbox ++ if q = r then [.barrier p.nextTicket] else [] := by
  simp only [post, lane, setLane, PerQueue.get_set]
  split
  case isTrue h => rw [h]
  case isFalse => rw [List.append_nil]

@[simp] theorem lane_post_waiting : ((p.post q).2.lane r).waiting = (p.lane r).waiting := by
  rw [Lane.waiting, inbox_post]
  split <;> simp [Lane.waiting, Message.work?]

@[simp] theorem pending_post : (p.post q).2.pending r = p.pending r := by
  simp only [pending, post, lane, setLane, PerQueue.get_set]
  split
  case isTrue h => rw [h]
  case isFalse => rfl

@[simp] theorem time_post : (p.post q).2.time r = p.time r := rfl

@[simp] theorem ticket_post : (p.post q).1 = p.nextTicket := rfl

@[simp] theorem nextTicket_post : (p.post q).2.nextTicket = p.nextTicket + 1 := rfl

/-! ## Receiving -/

/-- A queue that runs nothing takes up the first message: its work starts to run and its time is
shown, or its ticket is answered. -/
theorem receive_takes (h : p.receive q = some p') :
    (p.lane q).running = none ∧
    ((∃ t w, (p.lane q).inbox = .work t w :: (p'.lane q).inbox ∧ (p'.lane q).running = some w ∧
        p'.time q = some t ∧ p'.answered = p.answered) ∨
      ∃ k, (p.lane q).inbox = .barrier k :: (p'.lane q).inbox ∧ (p'.lane q).running = none ∧
        p'.time q = p.time q ∧ p'.answered = k :: p.answered) ∧
    p'.pending q = p.pending q ∧ p'.nextTicket = p.nextTicket ∧
    ∀ r, q ≠ r → p'.lane r = p.lane r ∧ p'.time r = p.time r := by
  simp only [receive] at h
  split at h
  case h_1 t w rest hrunning hinbox =>
    obtain rfl := Option.some.inj h
    exact ⟨hrunning, .inl ⟨t, w, by simp [hinbox], by simp, by simp, rfl⟩, by simp [pending], rfl,
      fun r hr => by simp [hr]⟩
  case h_2 k rest hrunning hinbox =>
    obtain rfl := Option.some.inj h
    exact ⟨hrunning, .inr ⟨k, by simp [hinbox], by simp [hrunning], rfl, rfl⟩, by simp [pending], rfl,
      fun r hr => ⟨by simp [hr], rfl⟩⟩
  case h_3 => cases h

/-- A queue receives its next message: the first piece of work that waits starts to run, or nothing
does. -/
theorem receive_cases (h : p.receive q = some p') :
    (p.lane q).running = none ∧
    ((∃ t w, (p.lane q).waiting = w :: (p'.lane q).waiting ∧ (p'.lane q).running = some w ∧
        p'.time q = some t) ∨
      ((p'.lane q).waiting = (p.lane q).waiting ∧ (p'.lane q).running = none ∧
        p'.time q = p.time q)) ∧
    p'.pending q = p.pending q ∧ ∀ r, q ≠ r → p'.lane r = p.lane r ∧ p'.time r = p.time r := by
  obtain ⟨hnone, hq, hpending, -, hr⟩ := receive_takes h
  refine ⟨hnone, ?_, hpending, hr⟩
  obtain ⟨t, w, hinbox, hrunning, htime, -⟩ | ⟨k, hinbox, hrunning, htime, -⟩ := hq
  · exact .inl ⟨t, w, by simp [Lane.waiting, hinbox, Message.work?], hrunning, htime⟩
  · exact .inr ⟨by rw [Lane.waiting, Lane.waiting, hinbox, List.filterMap_cons_none rfl], hrunning,
      htime⟩

/-- Receiving neither adds nor removes work. -/
theorem works_receive (h : p.receive q = some p') (r : Queue) :
    (p'.lane r).works = (p.lane r).works := by
  obtain ⟨hnone, hq, -, hr⟩ := receive_cases h
  by_cases he : q = r
  · subst he
    obtain ⟨t, w, hwaiting, hrunning, -⟩ | ⟨hwaiting, hrunning, -⟩ := hq
    · simp [Lane.works, hnone, hrunning, hwaiting]
    · simp [Lane.works, hnone, hrunning, hwaiting]
  · rw [(hr r he).1]

theorem receive_isSome_of_inbox (hr : (p.lane q).running = none) (hin : (p.lane q).inbox ≠ []) :
    (p.receive q).isSome := by
  simp only [receive, hr]
  cases hinbox : (p.lane q).inbox with
  | nil => exact absurd hinbox hin
  | cons first rest => cases first <;> rfl

theorem receive_isSome (hr : (p.lane q).running = none) (hw : (p.lane q).waiting ≠ []) :
    (p.receive q).isSome :=
  receive_isSome_of_inbox hr fun hinbox => hw (by rw [Lane.waiting, hinbox]; rfl)

/-! ## Running work -/

@[simp] theorem running_advance :
    ((p.advance q w).lane r).running = if q = r then some w else (p.lane r).running := by
  simp only [advance, lane_setLane]
  split <;> rfl

@[simp] theorem inbox_advance : ((p.advance q w).lane r).inbox = (p.lane r).inbox := by
  simp only [advance, lane_setLane]
  split
  case isTrue h => rw [h]
  case isFalse => rfl

@[simp] theorem waiting_advance : ((p.advance q w).lane r).waiting = (p.lane r).waiting := by
  rw [Lane.waiting, inbox_advance, Lane.waiting]

@[simp] theorem pending_advance : (p.advance q w).pending r = p.pending r := by
  simp only [pending, advance, lane_setLane]
  split
  case isTrue h => rw [h]
  case isFalse => rfl

@[simp] theorem time_advance : (p.advance q w).time r = p.time r := rfl

@[simp] theorem running_finish :
    ((p.finish q).lane r).running = if q = r then none else (p.lane r).running := by
  simp only [finish, lane_setTime, lane_setLane]
  split <;> rfl

@[simp] theorem inbox_finish : ((p.finish q).lane r).inbox = (p.lane r).inbox := by
  simp only [finish, lane_setTime, lane_setLane]
  split
  case isTrue h => rw [h]
  case isFalse => rfl

@[simp] theorem waiting_finish : ((p.finish q).lane r).waiting = (p.lane r).waiting := by
  rw [Lane.waiting, inbox_finish, Lane.waiting]

@[simp] theorem pending_finish :
    (p.finish q).pending r = if q = r then p.pending r - 1 else p.pending r := by
  simp only [pending, finish, lane_setTime, lane_setLane]
  split
  case isTrue h => rw [h]
  case isFalse => rfl

@[simp] theorem time_finish : (p.finish q).time r = if q = r then none else p.time r := by
  simp [finish]

@[simp] theorem nextTicket_finish : (p.finish q).nextTicket = p.nextTicket := rfl

/-! ## The numbers kept -/

/-- The number of pieces of work is right, and a time is shown exactly while one runs. -/
structure Sound (p : Pipeline τ) : Prop where
  pending_eq : ∀ q, p.pending q = (p.lane q).works.length
  time_isSome : ∀ q, (p.time q).isSome = (p.lane q).running.isSome

theorem sound_empty : (empty : Pipeline τ).Sound where
  pending_eq q := by simp [empty, pending, lane, Lane.works, Lane.waiting]
  time_isSome q := by simp [empty, time, lane]

/-- A sound pipeline is idle when it counts no work. -/
theorem Sound.idle_iff (h : p.Sound) : p.Idle ↔ ∀ q, p.pending q = 0 := by
  simp only [Idle, h.pending_eq, List.length_eq_zero_iff]

theorem Sound.enqueue (h : p.Sound) (now : Instant) (q : Queue) (w : τ) :
    (p.enqueue now q w).Sound where
  pending_eq r := by
    simp only [pending_enqueue, h.pending_eq, Lane.works, running_enqueue, waiting_enqueue]
    split <;> simp [Nat.add_assoc]
  time_isSome r := by rw [time_enqueue, running_enqueue, h.time_isSome]

theorem Sound.post (h : p.Sound) (q : Queue) : (p.post q).2.Sound where
  pending_eq r := by simp only [pending_post, h.pending_eq, Lane.works, lane_post_running,
    lane_post_waiting]
  time_isSome r := by rw [time_post, lane_post_running, h.time_isSome]

theorem Sound.receive (h : p.Sound) (hp : p.receive q = some p') : p'.Sound where
  pending_eq r := by
    rw [works_receive hp, ← h.pending_eq]
    obtain ⟨-, -, hq, hr⟩ := receive_cases hp
    by_cases he : q = r
    · rw [← he, hq]
    · rw [pending, pending, (hr r he).1]
  time_isSome r := by
    obtain ⟨hnone, hq, -, hr⟩ := receive_cases hp
    by_cases he : q = r
    · subst he
      obtain ⟨t, w, -, hrunning, htime⟩ | ⟨-, hrunning, htime⟩ := hq
      · rw [hrunning, htime]
        rfl
      · rw [hrunning, htime, h.time_isSome, hnone]
    · rw [(hr r he).1, (hr r he).2, h.time_isSome]

theorem Sound.advance (h : p.Sound) (hq : (p.lane q).running.isSome) (w : τ) :
    (p.advance q w).Sound where
  pending_eq r := by
    rw [pending_advance, h.pending_eq]
    simp only [Lane.works, running_advance, waiting_advance, List.length_append]
    split
    case isTrue he =>
      subst he
      obtain ⟨w', hw'⟩ := Option.isSome_iff_exists.mp hq
      simp [hw']
    case isFalse => rfl
  time_isSome r := by
    rw [time_advance, running_advance, h.time_isSome]
    split
    case isTrue he => rw [← he, hq]; rfl
    case isFalse => rfl

theorem Sound.finish (h : p.Sound) (hq : (p.lane q).running.isSome) : (p.finish q).Sound where
  pending_eq r := by
    rw [pending_finish, h.pending_eq]
    simp only [Lane.works, running_finish, waiting_finish, List.length_append]
    split
    case isTrue he =>
      subst he
      obtain ⟨w', hw'⟩ := Option.isSome_iff_exists.mp hq
      simp [hw']
    case isFalse => rfl
  time_isSome r := by
    rw [time_finish, running_finish]
    split
    · rfl
    · exact h.time_isSome r

/-! ## Conditions on the work -/

/-- Work waits under one condition and runs under another. -/
structure Holds (fresh begun : Queue → τ → Prop) (p : Pipeline τ) : Prop where
  waiting : ∀ q, ∀ w ∈ (p.lane q).waiting, fresh q w
  running : ∀ q w, (p.lane q).running = some w → begun q w

namespace Holds

variable {fresh begun : Queue → τ → Prop}

theorem empty : (Pipeline.empty : Pipeline τ).Holds fresh begun where
  waiting q w hw := by simp [Pipeline.empty, lane, Lane.waiting] at hw
  running q w hw := by simp [Pipeline.empty, lane] at hw

theorem enqueue (h : p.Holds fresh begun) (now : Instant) (hw : fresh q w) :
    (p.enqueue now q w).Holds fresh begun where
  waiting r v hv := by
    rw [waiting_enqueue] at hv
    split at hv
    case isTrue he =>
      subst he
      rcases List.mem_append.mp hv with hv | hv
      · exact h.waiting _ v hv
      · exact List.mem_singleton.mp hv ▸ hw
    case isFalse => exact h.waiting _ v hv
  running r v hv := h.running r v (by rwa [running_enqueue] at hv)

theorem post (h : p.Holds fresh begun) (q : Queue) : (p.post q).2.Holds fresh begun where
  waiting r v hv := h.waiting r v (by rwa [lane_post_waiting] at hv)
  running r v hv := h.running r v (by rwa [lane_post_running] at hv)

/-- What starts to run has waited. -/
theorem running_receive (h : p.Holds fresh begun) (hp : p.receive q = some p')
    (hw : (p'.lane q).running = some w) : fresh q w := by
  obtain ⟨-, ⟨t, w', hwaiting, hrunning, -⟩ | ⟨-, hrunning, -⟩, -⟩ := receive_cases hp
  · obtain rfl : w' = w := Option.some.inj (hrunning.symm.trans hw)
    exact h.waiting q w' (hwaiting ▸ List.mem_cons_self)
  · rw [hrunning] at hw
    cases hw

theorem receive (h : p.Holds fresh begun) (hstart : ∀ w, fresh q w → begun q w)
    (hp : p.receive q = some p') : p'.Holds fresh begun := by
  obtain ⟨-, hq, -, hr⟩ := receive_cases hp
  constructor
  · intro r v hv
    by_cases he : q = r
    · subst he
      obtain ⟨t, w, hwaiting, -⟩ | ⟨hwaiting, -⟩ := hq
      · exact h.waiting _ v (hwaiting ▸ List.mem_cons_of_mem _ hv)
      · exact h.waiting _ v (hwaiting ▸ hv)
    · exact h.waiting r v (by rwa [(hr r he).1] at hv)
  · intro r v hv
    by_cases he : q = r
    · subst he
      exact hstart v (h.running_receive hp hv)
    · exact h.running r v (by rwa [(hr r he).1] at hv)

theorem advance (h : p.Holds fresh begun) (hw : begun q w) :
    (p.advance q w).Holds fresh begun where
  waiting r v hv := h.waiting r v (by rwa [waiting_advance] at hv)
  running r v hv := by
    rw [running_advance] at hv
    split at hv
    case isTrue he => exact he ▸ Option.some.inj hv ▸ hw
    case isFalse => exact h.running r v hv

theorem finish (h : p.Holds fresh begun) (q : Queue) : (p.finish q).Holds fresh begun where
  waiting r v hv := h.waiting r v (by rwa [waiting_finish] at hv)
  running r v hv := by
    rw [running_finish] at hv
    split at hv
    case isTrue => cases hv
    case isFalse => exact h.running r v hv

end Holds

end Pipeline

end ChainNode

import ChainNode.Proofs.Sync.Placement
import ChainNode.Sync.Drain
import Mathlib.Data.List.Infix

/-!
# What a wait for all queues has seen

While somebody waits until the queues are empty, the queues go on: the wait looks at one queue after
the other, and whatever it has seen can have changed when it looks at the next. It relies on the order
of the queues. Work only puts work on its own queue or on the next one (`Queue.feeds`), and the queues
are looked at in that order.

Enqueueing is not one access but two. A piece of work is counted first, and then put into the queue
(`Pipeline.enqueue_eq`); a wait can look at the number, or post its barrier, in between. What it relies
on is that the numbers are never behind the work (`Pipeline.Counted`).

The queues that the wait has passed in its round count nothing, and will not: what could put work on
them was passed before (`Draining.Passed`).
-/

namespace ChainNode

variable {τ : Type}

/-- Work on a queue can put work on another, or on its own. -/
def Queue.feeds : Queue → Queue → Bool
  | fetch, fetch | fetch, attach | attach, update => true
  | _, _ => false

/-- What is at the end of the order of the queues puts no work on what is before it. -/
theorem Queue.not_mem_of_feeds {rest : List Queue} (h : rest <:+ all) {r q : Queue}
    (hfeeds : r.feeds q) (hq : q ∉ rest) : r ∉ rest := by
  have htails : ∀ rest ∈ all.tails, r.feeds q → q ∉ rest → r ∉ rest := by
    cases r <;> cases q <;> decide
  exact htails rest ((List.mem_tails ..).mpr h) hfeeds hq

namespace Pipeline

variable {p p' : Pipeline τ} {q r : Queue} {now : Instant} {w : τ}

/-! ## One access after the other -/

/-- A piece of work for a queue is counted. -/
def count (p : Pipeline τ) (q : Queue) : Pipeline τ :=
  p.setLane q { p.lane q with pending := p.pending q + 1 }

/-- A piece of work is put at the end of a queue. -/
def send (p : Pipeline τ) (now : Instant) (q : Queue) (w : τ) : Pipeline τ :=
  p.setLane q { p.lane q with inbox := (p.lane q).inbox ++ [.work now w] }

theorem enqueue_eq : p.enqueue now q w = (p.count q).send now q w := by
  cases q <;> rfl

/-- An access to the queues. -/
inductive Access (τ : Type)
  /-- Work that is running on a queue begins to enqueue, or somebody outside does: its work is
  counted. -/
  | count (source : Option Queue) (q : Queue)
  /-- Work that was counted is put into its queue. -/
  | send (now : Instant) (q : Queue) (w : τ)
  | post (q : Queue)
  | receive (q : Queue)
  | advance (q : Queue) (w : τ)
  | finish (q : Queue)
  deriving DecidableEq, Repr

namespace Access

/-- Nobody outside begins to enqueue. -/
def isInner : Access τ → Bool
  | count none _ => false
  | _ => true

/-- Something is enqueued. -/
def enqueues : Access τ → Bool
  | count _ _ | send _ _ _ => true
  | _ => false

end Access

/-- The queues after an access, if it can be made. Only work that is running enqueues, and only where
it may. Nothing is put into a queue whose number is not ahead of its work; who puts it there is not
asked, so more is possible here than work that counts and puts in one piece after the other. -/
def access? (p : Pipeline τ) : Access τ → Option (Pipeline τ)
  | .count none q => some (p.count q)
  | .count (some r) q =>
    if r.feeds q ∧ (p.lane r).running.isSome then some (p.count q) else none
  | .send now q w => if (p.lane q).works.length < p.pending q then some (p.send now q w) else none
  | .post q => some (p.post q).2
  | .receive q => p.receive q
  | .advance q w => if (p.lane q).running.isSome then some (p.advance q w) else none
  | .finish q => if (p.lane q).running.isSome then some (p.finish q) else none

/-- Accesses one after the other. -/
def accesses? (p : Pipeline τ) (as : List (Access τ)) : Option (Pipeline τ) := as.foldlM access? p

@[simp] theorem pending_count :
    (p.count q).pending r = if q = r then p.pending r + 1 else p.pending r := by
  simp only [pending, count, lane_setLane]
  split
  case isTrue h => rw [h]
  case isFalse => rfl

@[simp] theorem works_count : ((p.count q).lane r).works = (p.lane r).works := by
  simp only [count, lane_setLane]
  split
  case isTrue h => rw [h]; rfl
  case isFalse => rfl

@[simp] theorem pending_send : (p.send now q w).pending r = p.pending r := by
  simp only [pending, send, lane_setLane]
  split
  case isTrue h => rw [h]
  case isFalse => rfl

@[simp] theorem works_send :
    ((p.send now q w).lane r).works = (p.lane r).works ++ if q = r then [w] else [] := by
  simp only [send, lane_setLane]
  split
  case isTrue h => simp [h, Lane.works, Lane.waiting, Message.work?]
  case isFalse => rw [List.append_nil]

@[simp] theorem works_post : ((p.post q).2.lane r).works = (p.lane r).works := by
  simp [Lane.works]

theorem length_works_advance (h : (p.lane q).running.isSome) :
    ((p.advance q w).lane r).works.length = (p.lane r).works.length := by
  obtain ⟨v, hv⟩ := Option.isSome_iff_exists.mp h
  simp only [Lane.works, running_advance, waiting_advance, List.length_append]
  split
  case isTrue he => simp [← he, hv]
  case isFalse => rfl

theorem length_works_finish (h : (p.lane q).running.isSome) :
    ((p.finish q).lane r).works.length =
      if q = r then (p.lane r).works.length - 1 else (p.lane r).works.length := by
  obtain ⟨v, hv⟩ := Option.isSome_iff_exists.mp h
  simp only [Lane.works, running_finish, waiting_finish, List.length_append]
  split
  case isTrue he => simp [← he, hv]
  case isFalse => rfl

theorem pending_receive (h : p.receive q = some p') (r : Queue) : p'.pending r = p.pending r := by
  obtain ⟨-, -, hpending, hother⟩ := receive_cases h
  by_cases hr : q = r
  · rw [← hr, hpending]
  · rw [pending, pending, (hother r hr).1]

/-! ## The numbers are not behind the work -/

/-- Every piece of work that has not ended is counted. -/
def Counted (p : Pipeline τ) : Prop := ∀ q, (p.lane q).works.length ≤ p.pending q

theorem Sound.counted (h : p.Sound) : p.Counted := fun q => Nat.le_of_eq (h.pending_eq q).symm

theorem Counted.pending_pos (h : p.Counted) (hq : (p.lane q).running.isSome) : 0 < p.pending q := by
  obtain ⟨w, hw⟩ := Option.isSome_iff_exists.mp hq
  have hle := h q
  simp only [Lane.works, hw, Option.toList_some, List.length_append, List.length_singleton] at hle
  omega

theorem Counted.access (h : p.Counted) {a : Access τ} (ha : p.access? a = some p') : p'.Counted := by
  intro r
  have hr := h r
  cases a with
  | count source q =>
    obtain rfl : p.count q = p' := by
      cases source with
      | none => exact Option.some.inj ha
      | some source => exact Option.some.inj (Option.ite_none_right_eq_some.mp ha).2
    rw [works_count, pending_count]
    split <;> omega
  | send now q w =>
    obtain ⟨hahead, ha⟩ := Option.ite_none_right_eq_some.mp ha
    obtain rfl := Option.some.inj ha
    rw [works_send, pending_send]
    split
    case isTrue he =>
      subst he
      rw [List.length_append, List.length_singleton]
      exact hahead
    case isFalse => rwa [List.append_nil]
  | post q =>
    obtain rfl := Option.some.inj ha
    rwa [works_post, pending_post]
  | receive q => rwa [works_receive ha, pending_receive ha]
  | advance q w =>
    obtain ⟨hq, ha⟩ := Option.ite_none_right_eq_some.mp ha
    obtain rfl := Option.some.inj ha
    rwa [length_works_advance hq, pending_advance]
  | finish q =>
    obtain ⟨hq, ha⟩ := Option.ite_none_right_eq_some.mp ha
    obtain rfl := Option.some.inj ha
    rw [length_works_finish hq, pending_finish]
    split <;> omega

/-! ## Queues that stay empty -/

/-- Some queues count nothing. -/
def Quiet (qs : Queue → Prop) (p : Pipeline τ) : Prop := ∀ q, qs q → p.pending q = 0

variable {qs : Queue → Prop} {a : Access τ}

/-- Queues that count nothing, with all that put work on them, stay so until somebody outside enqueues,
and nothing is enqueued on them. -/
theorem Quiet.access (h : p.Quiet qs) (hcounted : p.Counted)
    (hfed : ∀ r q, r.feeds q → qs q → qs r) (hinner : a.isInner) (ha : p.access? a = some p') :
    p'.Quiet qs ∧ ((∀ q, qs q) → ¬ a.enqueues) := by
  cases a with
  | count source q =>
    cases source with
    | none => cases hinner
    | some r =>
      obtain ⟨⟨hfeeds, hrunning⟩, ha⟩ := Option.ite_none_right_eq_some.mp ha
      obtain rfl := Option.some.inj ha
      -- What feeds a quiet queue counts nothing either, so it does not run.
      have hq : ¬ qs q := fun hq => by
        have hpos := hcounted.pending_pos hrunning
        rw [h r (hfed r q hfeeds hq)] at hpos
        exact absurd hpos (Nat.lt_irrefl 0)
      refine ⟨fun r' hr' => ?_, fun hall => absurd (hall q) hq⟩
      have hne : q ≠ r' := fun he => hq (he ▸ hr')
      rw [pending_count, if_neg hne, h r' hr']
  | send now q w =>
    obtain ⟨hahead, ha⟩ := Option.ite_none_right_eq_some.mp ha
    obtain rfl := Option.some.inj ha
    refine ⟨fun r hr => by rw [pending_send, h r hr], fun hall => ?_⟩
    rw [h q (hall q)] at hahead
    exact absurd hahead (Nat.not_lt_zero _)
  | post q =>
    obtain rfl := Option.some.inj ha
    exact ⟨fun r hr => by rw [pending_post, h r hr], fun _ => nofun⟩
  | receive q => exact ⟨fun r hr => by rw [pending_receive ha, h r hr], fun _ => nofun⟩
  | advance q w =>
    obtain rfl := Option.some.inj (Option.ite_none_right_eq_some.mp ha).2
    exact ⟨fun r hr => by rw [pending_advance, h r hr], fun _ => nofun⟩
  | finish q =>
    obtain rfl := Option.some.inj (Option.ite_none_right_eq_some.mp ha).2
    refine ⟨fun r hr => ?_, fun _ => nofun⟩
    rw [pending_finish, h r hr, Nat.zero_sub, ite_self]

theorem Counted.accesses {as : List (Access τ)} (h : p.Counted) (has : p.accesses? as = some p') :
    p'.Counted := by
  induction as generalizing p with
  | nil => exact Option.some.inj has ▸ h
  | cons a as ih =>
    obtain ⟨m, ha, hrest⟩ := Option.bind_eq_some_iff.mp has
    exact ih (h.access ha) hrest

/-- When nothing is counted anywhere, nothing is enqueued any more but from outside. -/
theorem quiet_accesses {as : List (Access τ)} (h : ∀ q, p.pending q = 0) (hcounted : p.Counted)
    (hinner : ∀ a ∈ as, a.isInner) (has : p.accesses? as = some p') :
    (∀ q, p'.pending q = 0) ∧ ∀ a ∈ as, ¬ a.enqueues := by
  induction as generalizing p with
  | nil => exact ⟨Option.some.inj has ▸ h, nofun⟩
  | cons a as ih =>
    obtain ⟨m, ha, hrest⟩ := Option.bind_eq_some_iff.mp has
    have hall : p.Quiet fun _ => True := fun q _ => h q
    obtain ⟨hquiet, hnone⟩ := hall.access hcounted (fun _ _ _ _ => trivial)
      (hinner a List.mem_cons_self) ha
    obtain ⟨hend, hrest⟩ := ih (fun q => hquiet q trivial) (hcounted.access ha)
      (fun b hb => hinner b (List.mem_cons_of_mem _ hb)) hrest
    exact ⟨hend, List.forall_mem_cons.mpr ⟨hnone fun _ => trivial, hrest⟩⟩

/-! ## Accesses without anybody outside -/

/-- Some accesses lead from one state of the queues to another, and nobody outside begins to enqueue. -/
abbrev Inside : Pipeline τ → Pipeline τ → Prop :=
  Relation.ReflTransGen fun p p' => ∃ a : Access τ, a.isInner ∧ p.access? a = some p'

namespace Inside

variable {p p' : Pipeline τ} {q r : Queue}

theorem counted (h : p.Inside p') (hp : p.Counted) : p'.Counted := by
  induction h with
  | refl => exact hp
  | tail _ hlast ih =>
    obtain ⟨a, -, ha⟩ := hlast
    exact ih.access ha

theorem enqueue (h : p.Inside p') (hp : p.Counted) (hfeeds : r.feeds q)
    (hr : (p'.lane r).running.isSome) (now : Instant) (w : τ) : p.Inside (p'.enqueue now q w) := by
  have hahead : ((p'.count q).lane q).works.length < (p'.count q).pending q := by
    rw [works_count, pending_count, if_pos rfl]
    exact Nat.lt_succ_of_le (h.counted hp q)
  rw [enqueue_eq]
  exact (h.tail ⟨.count (some r) q, rfl, if_pos ⟨hfeeds, hr⟩⟩).tail
    ⟨.send now q w, rfl, if_pos hahead⟩

theorem advance (h : p.Inside p') (hq : (p'.lane q).running.isSome) (w : τ) :
    p.Inside (p'.advance q w) := h.tail ⟨.advance q w, rfl, if_pos hq⟩

end Inside

end Pipeline

/-! ## A wait among the accesses of others -/

/-- The queues left to look at in this round. -/
def Drain.left : Drain → List Queue
  | looking rest _ => rest
  | posting q rest | awaiting _ q rest => q :: rest

/-- A step of a wait does nothing to the queues but to post its barrier. -/
theorem Drain.pipeline_step {d d' : Drain} {p p' : Pipeline τ} (h : d.step p = .next d' p') :
    p' = p ∨ ∃ q, p' = (p.post q).2 := by
  match d with
  | .looking [] idle =>
    simp only [step] at h
    split at h <;> cases h
    exact .inl rfl
  | .looking (q :: rest) idle =>
    simp only [step] at h
    split at h <;> cases h <;> exact .inl rfl
  | .posting q rest =>
    cases h
    exact .inr ⟨q, rfl⟩
  | .awaiting k q rest =>
    simp only [step] at h
    split at h <;> cases h
    exact .inl rfl

/-- The queues, and a wait for them. -/
structure Draining (τ : Type) where
  pipeline : Pipeline τ
  drain : Drain
  deriving DecidableEq, Repr

namespace Draining

/-- A step of the wait, or an access of others. -/
inductive Step (τ : Type)
  | wait
  | access (a : Pipeline.Access τ)
  deriving DecidableEq, Repr

/-- Nobody outside begins to enqueue. -/
def Step.isInner : Step τ → Bool
  | wait => true
  | access a => a.isInner

/-- The state after a step, if it can be made. -/
def step? (s : Draining τ) : Step τ → Option (Draining τ)
  | .wait => match s.drain.step s.pipeline with
    | .next d p => some ⟨p, d⟩
    | _ => none
  | .access a => (s.pipeline.access? a).map fun p => { s with pipeline := p }

/-- Steps one after the other. -/
def steps? (s : Draining τ) (es : List (Step τ)) : Option (Draining τ) := es.foldlM step? s

/-- The wait is at its end. -/
def IsOver (s : Draining τ) : Prop := s.drain.step s.pipeline = .done

/-- The queues that the wait has passed in its round count nothing. -/
structure Passed (s : Draining τ) : Prop where
  counted : s.pipeline.Counted
  left : s.drain.left <:+ Queue.all
  quiet : s.pipeline.Quiet fun q => q ∉ s.drain.left

variable {s s' : Draining τ} {e : Step τ}

theorem passed_start {p : Pipeline τ} (h : p.Counted) : Passed ⟨p, .start⟩ where
  counted := h
  left := List.suffix_refl _
  quiet q hq := absurd (Queue.mem_all q) hq

theorem Passed.access (h : s.Passed) {a : Pipeline.Access τ} {p : Pipeline τ} (hinner : a.isInner)
    (ha : s.pipeline.access? a = some p) : Passed ⟨p, s.drain⟩ where
  counted := h.counted.access ha
  left := h.left
  quiet := (h.quiet.access h.counted (fun _ _ hfeeds hq => Queue.not_mem_of_feeds h.left hfeeds hq)
    hinner ha).1

theorem Passed.inside (h : s.Passed) {p : Pipeline τ} (hp : s.pipeline.Inside p) :
    Passed ⟨p, s.drain⟩ := by
  induction hp with
  | refl => exact h
  | tail _ hlast ih =>
    obtain ⟨a, hinner, ha⟩ := hlast
    exact ih.access hinner ha

theorem Passed.wait (h : s.Passed) {d : Drain} {p : Pipeline τ}
    (hd : s.drain.step s.pipeline = .next d p) : Passed ⟨p, d⟩ := by
  obtain ⟨p₀, d₀⟩ := s
  obtain ⟨hcounted, hleft, hquiet⟩ := h
  match d₀ with
  | .looking [] idle =>
    simp only [Drain.step] at hd
    split at hd
    · cases hd
    · cases hd
      exact passed_start hcounted
  | .looking (q :: rest) idle =>
    simp only [Drain.step] at hd
    split at hd
    case isTrue hzero =>
      cases hd
      refine ⟨hcounted, (List.suffix_cons q rest).trans hleft, fun r hr => ?_⟩
      by_cases he : r = q
      · rw [he, hzero]
      · exact hquiet r (List.not_mem_cons_of_ne_of_not_mem he hr)
    case isFalse =>
      cases hd
      exact ⟨hcounted, hleft, hquiet⟩
  | .posting q rest =>
    cases hd
    exact ⟨hcounted.access (a := .post q) rfl, hleft,
      fun r hr => Pipeline.pending_post.trans (hquiet r hr)⟩
  | .awaiting k q rest =>
    simp only [Drain.step] at hd
    split at hd
    · cases hd
      exact ⟨hcounted, hleft, hquiet⟩
    · cases hd

theorem Passed.step (h : s.Passed) (hinner : e.isInner) (he : s.step? e = some s') : s'.Passed := by
  cases e with
  | wait =>
    simp only [step?] at he
    split at he
    case h_1 d p hd => exact Option.some.inj he ▸ h.wait hd
    case h_2 => cases he
  | access a =>
    obtain ⟨p, hp, rfl⟩ := Option.map_eq_some_iff.mp he
    exact h.access hinner hp

theorem Passed.steps {es : List (Step τ)} (h : s.Passed) (hinner : ∀ e ∈ es, e.isInner)
    (hes : s.steps? es = some s') : s'.Passed := by
  induction es generalizing s with
  | nil => exact Option.some.inj hes ▸ h
  | cons e es ih =>
    obtain ⟨t, he, hrest⟩ := Option.bind_eq_some_iff.mp hes
    exact ih (h.step (hinner e List.mem_cons_self) he)
      (fun e' he' => hinner e' (List.mem_cons_of_mem _ he')) hrest

/-- At its end, the wait has passed all queues. -/
theorem Passed.pending_eq_zero (h : s.Passed) (hover : s.IsOver) (q : Queue) :
    s.pipeline.pending q = 0 := by
  obtain ⟨p, d⟩ := s
  match d with
  | .looking [] _ => exact h.quiet q List.not_mem_nil
  | .looking (r :: rest) idle =>
    simp only [IsOver, Drain.step] at hover
    split at hover <;> cases hover
  | .posting _ _ => cases hover
  | .awaiting _ _ _ =>
    simp only [IsOver, Drain.step] at hover
    split at hover <;> cases hover

/-- **A wait is over only when all is done.** It begins at any time, and whatever work is in the queues,
it puts work only where it may (`Queue.feeds`). However the accesses of others lie between the steps of
the wait, as long as nobody outside begins to enqueue: when it is over no queue counts any work or has
any, and nothing will be enqueued any more. -/
theorem all_drained {before : List (Pipeline.Access τ)} {p : Pipeline τ}
    (hbefore : Pipeline.empty.accesses? before = some p) {during : List (Step τ)}
    (hduring : steps? ⟨p, .start⟩ during = some s) (hinner : ∀ e ∈ during, e.isInner)
    (hover : s.IsOver) :
    (∀ q, s.pipeline.pending q = 0 ∧ (s.pipeline.lane q).works = []) ∧
      ∀ later p', (∀ a ∈ later, a.isInner) → s.pipeline.accesses? later = some p' →
        (∀ a ∈ later, ¬ a.enqueues) ∧ ∀ q, p'.pending q = 0 := by
  have hpassed : s.Passed :=
    (passed_start (Pipeline.sound_empty.counted.accesses hbefore)).steps hinner hduring
  have hzero := hpassed.pending_eq_zero hover
  refine ⟨fun q => ⟨hzero q, ?_⟩, fun later p' hlater hp' => ?_⟩
  · have hle := hpassed.counted q
    rw [hzero q] at hle
    exact List.eq_nil_of_length_eq_zero (Nat.le_zero.mp hle)
  · obtain ⟨hend, hnone⟩ := Pipeline.quiet_accesses hzero hpassed.counted hlater hp'
    exact ⟨hnone, hend⟩

/-- One piece of work is enqueued from outside, to be fetched. -/
def oneFetch : List (Pipeline.Access Nat) := [.count none .fetch, .send 0 .fetch 1]

/-- A wait that is overtaken on every queue: a block is fetched, attached and executed, and each time
the wait has found work on a queue, more is counted on the next one before its barrier is answered. -/
def overtaken : List (Step Nat) :=
  [.wait, .access (.receive .fetch), .access (.count (some .fetch) .attach), .wait,
    .access (.send 1 .attach 2), .access (.finish .fetch), .access (.receive .fetch), .wait, .wait,
    .wait, .access (.receive .attach), .access (.count (some .attach) .update),
    .access (.send 2 .update 3), .wait, .access (.finish .attach), .access (.receive .attach), .wait,
    .wait, .wait, .access (.receive .update), .access (.finish .update), .wait,
    .access (.receive .update), .wait, .wait, .wait, .wait, .wait, .wait]

theorem all_drained_overtaken : ∃ p s, Pipeline.empty.accesses? oneFetch = some p ∧
    steps? ⟨p, .start⟩ overtaken = some s ∧ (∀ e ∈ overtaken, e.isInner) ∧ s.IsOver ∧
    ∀ q, s.pipeline.pending q = 0 ∧ (s.pipeline.lane q).works = [] := by
  have hinner : ∀ e ∈ overtaken, e.isInner := by decide
  refine ⟨_, _, rfl, rfl, hinner, rfl, ?_⟩
  exact (all_drained (show Pipeline.empty.accesses? oneFetch = some _ from rfl)
    (show steps? ⟨_, .start⟩ overtaken = some _ from rfl) hinner rfl).1

end Draining

/-! ## The work of a node -/

namespace Node

variable {χ κ : Type} [ChainService χ] {n m : Node χ}

/-- Nothing is brought into the queues by an event: time passes, a queue or its peer goes on, somebody
waits, or others change the chain. -/
def Event.isInner : Event κ → Bool
  | wait _ | queue _ | answerQueue _ _ | post _ | chain _ => true
  | _ => false

/-- The end of a fetch brings in what a fetch may. -/
theorem inside_intakes (h : n.Intakes m) (hn : n.pipeline.Counted)
    (hrunning : (n.pipeline.lane .fetch).running.isSome) : n.pipeline.Inside m.pipeline := by
  induction h with
  | refl => exact .refl
  | @tail a b hna hab ih =>
    have hfetch : (a.pipeline.lane .fetch).running.isSome := running_intakes hna .fetch ▸ hrunning
    cases hab with
    | post q => exact ih.tail ⟨.post q, rfl, rfl⟩
    | fetch | attach => exact ih.enqueue hn rfl hfetch _ _
    | wait | announcements | job | heads | lookUp => exact ih

/-- Work enqueues what its queue may: fetching ends with an answer, only attached blocks are handed
over, and what executes them enqueues nothing. -/
theorem inside_workStep {q : Queue} {w w' : Work} (hin : n.InPlace)
    (hrunning : (n.pipeline.lane q).running = some w) (h : n.workStep w = some (w', m)) :
    n.pipeline.Inside m.pipeline := by
  have hbegun := hin.holds.running q w hrunning
  have hsome : (n.pipeline.lane q).running.isSome := by rw [hrunning]; rfl
  cases q with
  | fetch =>
    cases w with
    | fetch wanted retries =>
      obtain rfl := congrArg Prod.snd (Option.some.inj h)
      exact inside_intakes (intakes_beginFetch n wanted retries) hin.sound.counted hsome
    | fetching | ended => cases h
    | _ => exact hbegun.elim
  | attach =>
    cases workEffect_of_workStep h with
    | handOver hash completion =>
      exact Pipeline.Inside.enqueue .refl hin.sound.counted (r := .attach) rfl hsome _ _
    | complete => rw [pipeline_complete]
    | chain | fetched => exact .refl
  | update =>
    cases w with
    | update hash completion =>
      rw [workStep] at h
      split at h <;> rename_i hk <;> obtain ⟨-, rfl⟩ := Prod.mk.inj (Option.some.inj h) <;>
        obtain rfl := congrArg Prod.snd hk <;> exact .refl
    | report completion =>
      obtain ⟨-, rfl⟩ := Prod.mk.inj (Option.some.inj h)
      rw [pipeline_complete]
    | ended => cases h
    | _ => exact hbegun.elim

theorem running_workStep {w w' : Work} (h : n.workStep w = some (w', m)) (q : Queue) :
    (m.pipeline.lane q).running = (n.pipeline.lane q).running := by
  cases workEffect_of_workStep h with
  | chain | fetched => rfl
  | complete => rw [pipeline_complete]
  | handOver => exact Pipeline.running_enqueue

theorem inside_queueStep {q : Queue} (hin : n.InPlace) (h : n.queueStep q = some m) :
    n.pipeline.Inside m.pipeline := by
  obtain ⟨p, hp, rfl⟩ | ⟨r, hr, rfl⟩ | ⟨w, w', k, hrunning, hk, rfl⟩ := queueStep_cases h
  · exact .single ⟨.receive q, rfl, hp⟩
  · exact .single ⟨.finish q, rfl, if_pos (by rw [hr]; rfl)⟩
  · exact (inside_workStep hin hrunning hk).advance
      (by rw [running_workStep hk, hrunning]; rfl) w'

omit [ChainService χ] in
/-- Fetching alone waits for a peer. -/
theorem fetching_of_request {q : Queue} {r : Request} (hin : n.InPlace)
    (h : n.queueRequest? q = some r) :
    q = .fetch ∧ ∃ w retries, (n.pipeline.lane q).running = some (.fetching w retries) := by
  obtain ⟨w, hw, hrequest⟩ := Option.bind_eq_some_iff.mp h
  have hbegun := hin.holds.running q w hw
  cases w <;> simp only [Work.request?, reduceCtorEq] at hrequest
  case fetching wanted retries =>
    cases q with
    | fetch => exact ⟨rfl, wanted, retries, hw⟩
    | attach | update => exact hbegun.elim

/-- A node puts work into its queues as they may put it on each other, until something is brought in. -/
theorem inside_step {act : κ → χ → χ} {e : Event κ} (hin : n.InPlace) (he : e.isInner)
    (h : step act n e = some m) : n.pipeline.Inside m.pipeline := by
  cases e with
  | wait | chain => exact Option.some.inj h ▸ .refl
  | post q => exact Option.some.inj h ▸ .single ⟨.post q, rfl, rfl⟩
  | queue q => exact inside_queueStep hin h
  | answerQueue q answer =>
    obtain ⟨r, hr, rfl⟩ := Option.map_eq_some_iff.mp h
    obtain ⟨rfl, w, retries, hw⟩ := fetching_of_request hin hr
    have hfinish := intakes_finishFetch n w retries answer
    simp only [answerQueue, hw]
    exact (inside_intakes hfinish hin.sound.counted (by rw [hw]; rfl)).advance
      (by rw [running_intakes hfinish, hw]; rfl) _
  | _ => cases he

/-- What can happen to a node while somebody waits for its queues and nothing is brought in: the wait
goes on, or something else does. -/
inductive DrainStep (act : κ → χ → χ) : Node χ × Drain → Node χ × Drain → Prop
  | wait {n : Node χ} {d d' : Drain} {p : Pipeline Work} (h : d.step n.pipeline = .next d' p) :
    DrainStep act (n, d) ({ n with pipeline := p }, d')
  | event {n m : Node χ} {d : Drain} {e : Event κ} (he : e.isInner) (h : step act n e = some m) :
    DrainStep act (n, d) (m, d)

theorem DrainStep.keep {act : κ → χ → χ} {s s' : Node χ × Drain} (h : DrainStep act s s')
    (hin : s.1.InPlace) (hpassed : Draining.Passed ⟨s.1.pipeline, s.2⟩) :
    s'.1.InPlace ∧ Draining.Passed ⟨s'.1.pipeline, s'.2⟩ := by
  cases h with
  | wait hd =>
    refine ⟨?_, hpassed.wait hd⟩
    obtain rfl | ⟨q, rfl⟩ := Drain.pipeline_step hd
    · exact hin
    · exact ⟨hin.sound.post q, hin.holds.post q⟩
  | event he hstep => exact ⟨inPlace_step hin hstep, hpassed.inside (inside_step hin he hstep)⟩

/-- When a wait for the queues of a node is over, nothing having been brought in, they are empty. -/
theorem idle_of_drained {act : κ → χ → χ} {d : Drain} (hin : n.InPlace)
    (h : Relation.ReflTransGen (DrainStep act) (n, .start) (m, d))
    (hover : d.step m.pipeline = .done) : m.pipeline.Idle := by
  have hkeep : ∀ s, Relation.ReflTransGen (DrainStep act) (n, .start) s →
      s.1.InPlace ∧ Draining.Passed ⟨s.1.pipeline, s.2⟩ := by
    intro s hs
    induction hs with
    | refl => exact ⟨hin, Draining.passed_start hin.sound.counted⟩
    | tail _ hlast ih => exact hlast.keep ih.1 ih.2
  obtain ⟨hm, hpassed⟩ := hkeep (m, d) h
  exact hm.sound.idle_iff.mpr (hpassed.pending_eq_zero hover)

end Node

end ChainNode

import ChainNode.Proofs.Sync.Feeding
import Mathlib.Algebra.GroupWithZero.Nat

/-!
# A node that is left alone

A node that is left alone with a peer has its queues and its worker's call come further, in any order
and at any speed, as long as the clock has not passed some instant, and the peer answers when it is
asked (`Node.Alone`). It settles at something when all calls go well, it cannot get stuck, and however
it goes on, it comes to rest before long, and that something then holds (`Node.Settles`).
`Node.Rounds` calls the worker again each time the node has settled.

That a node comes to rest is shown by a weight: a piece of work weighs less the further it has come,
also with what it enqueues, and the call of the worker weighs more than all the blocks it may still
download.
-/

namespace ChainNode

/-! ## The weight of what is left to do -/

/-- The steps that are left of a piece of work, its successors included. -/
def Work.weight : Work → Nat
  | .attach _ => 9
  | .judge _ => 8
  | .store _ _ => 7
  | .handOver _ => 6
  | .update _ _ => 3
  | .report _ => 2
  | .ended _ => 1
  | .fetch _ _ | .fetching _ _ => 0

/-- Being received is a step, too. -/
def Message.weight : Message Work → Nat
  | work _ w => w.weight + 1
  | barrier _ => 1

def Lane.weight (l : Lane Work) : Nat :=
  l.running.elim 0 Work.weight + (l.inbox.map Message.weight).sum

def Pipeline.weight (p : Pipeline Work) : Nat :=
  (p.lane .fetch).weight + (p.lane .attach).weight + (p.lane .update).weight

/-- The weight of a call that may still download some blocks, each of which weighs 11 with its
request. There are three origins at most. -/
def Call.weight (cap : Nat) : Option Call → Nat
  | none => 0
  | some (.asking d) => d.origins.length * (11 * cap + 2) + 11 * (cap - d.download.count) + 1
  | some (.looking _) => 33 * cap + 6
  | some .round => 33 * cap + 7

namespace Pipeline

variable {p p' : Pipeline Work} {q : Queue} {w v : Work}

/-- When one queue changes, its weight makes the difference. -/
theorem weight_of_lane (p p' : Pipeline Work) (h : ∀ r, q ≠ r → p'.lane r = p.lane r) :
    p'.weight + (p.lane q).weight = p.weight + (p'.lane q).weight := by
  cases q with
  | fetch =>
    rw [weight, weight, h .attach nofun, h .update nofun]
    omega
  | attach =>
    rw [weight, weight, h .fetch nofun, h .update nofun]
    omega
  | update =>
    rw [weight, weight, h .fetch nofun, h .attach nofun]
    omega

theorem weight_enqueue (now : Instant) :
    (p.enqueue now q w).weight = p.weight + w.weight + 1 := by
  have h := weight_of_lane p (p.enqueue now q w) (q := q)
    fun r hr => by simp [enqueue, hr]
  have hlane : ((p.enqueue now q w).lane q).weight = (p.lane q).weight + w.weight + 1 := by
    simp [enqueue, Lane.weight, Message.weight]
    omega
  omega

theorem weight_receive (h : p.receive q = some p') : p'.weight < p.weight := by
  have hrest := weight_of_lane p p' (q := q)
    fun r hr => ((receive_cases h).2.2.2 r hr).1
  have hlane : (p'.lane q).weight + 1 = (p.lane q).weight := by
    simp only [receive] at h
    split at h
    case h_1 t w rest hrunning hinbox =>
      obtain rfl := Option.some.inj h
      simp [Lane.weight, hrunning, hinbox, Message.weight]
      omega
    case h_2 k rest hrunning hinbox =>
      obtain rfl := Option.some.inj h
      have hnew : ({ p.setLane q { p.lane q with inbox := rest } with
          answered := k :: p.answered } : Pipeline Work).lane q = { p.lane q with inbox := rest } := by
        simp [lane, setLane]
      rw [hnew]
      simp [Lane.weight, hrunning, hinbox, Message.weight]
      omega
    case h_3 => cases h
  omega

theorem weight_advance (h : (p.lane q).running = some w) :
    (p.advance q v).weight + w.weight = p.weight + v.weight := by
  have hrest := weight_of_lane p (p.advance q v) (q := q)
    fun r hr => by simp [advance, hr]
  have hlane : ((p.advance q v).lane q).weight + w.weight = (p.lane q).weight + v.weight := by
    simp [advance, Lane.weight, h]
    omega
  omega

theorem weight_advance_lt (h : (p.lane q).running = some w) (hlt : v.weight < w.weight) :
    (p.advance q v).weight < p.weight := by
  have := weight_advance (v := v) h
  omega

theorem weight_finish {e : ChainNode.Ending} (h : (p.lane q).running = some (.ended e)) :
    (p.finish q).weight < p.weight := by
  have hrest := weight_of_lane p (p.finish q) (q := q)
    fun r hr => by simp [finish, hr]
  have hlane : ((p.finish q).lane q).weight + 1 = (p.lane q).weight := by
    simp [finish, Lane.weight, h, Work.weight]
    omega
  omega

end Pipeline

namespace Node

variable {n m : Node BlockTree} {server : BlockServer} {latest : Instant}

/-- The weight of all that a node has begun. -/
def weight (n : Node BlockTree) : Nat :=
  Call.weight n.settings.downloadCap n.call + n.pipeline.weight

theorem AttachStep.weight_lt (h : n.AttachStep m) : m.pipeline.weight < n.pipeline.weight := by
  cases h with
  | receive hp => exact Pipeline.weight_receive hp
  | finish hr => exact Pipeline.weight_finish hr
  | known hr =>
    rw [pipeline_advance, pipeline_complete]
    exact Pipeline.weight_advance_lt hr (by simp [Work.weight, Work.done])
  | unknown hr | accept hr | reject hr | store hr | orphan hr =>
    exact Pipeline.weight_advance_lt hr (by simp [Work.weight, Work.done, Work.failed])
  | @handOver a hr =>
    have henqueue := Pipeline.weight_enqueue (p := n.pipeline) (q := .update)
      (w := .update a.block.hash a.completion) n.now
    have hadvance := Pipeline.weight_advance (v := .done)
      (show ((n.pipeline.enqueue n.now .update (.update a.block.hash a.completion)).lane
        .attach).running = some (.handOver a) from (Pipeline.running_enqueue ..).trans hr)
    simp only [Work.weight, Work.done] at henqueue hadvance
    simp only [pipeline_advance, pipeline_enqueue, Work.done]
    omega

theorem UpdateStep.weight_lt (h : n.UpdateStep m) : m.pipeline.weight < n.pipeline.weight := by
  cases h with
  | receive hp => exact Pipeline.weight_receive hp
  | finish hr => exact Pipeline.weight_finish hr
  | update hr | fail hr => exact Pipeline.weight_advance_lt hr (by simp [Work.weight, Work.failed])
  | report hr =>
    rw [pipeline_advance, pipeline_complete]
    exact Pipeline.weight_advance_lt hr (by simp [Work.weight, Work.done])

/-! ## Being left alone -/

/-- The node when some time has passed. -/
def later (n : Node BlockTree) (millis : Nat) : Node BlockTree := { n with now := n.now + millis }

/-- A step of a node that is left alone with a peer, after some time, but not later than some instant;
with the end of the worker's call if it ends. -/
inductive Alone (server : BlockServer) (latest : Instant) (n : Node BlockTree) :
    Option Ending → Node BlockTree → Prop
  | queue (millis : Nat) (q : Queue) {m : Node BlockTree} (hlate : (n.later millis).now ≤ latest)
    (h : (n.later millis).queueStep q = some m) : Alone server latest n none m
  | answerQueue (millis : Nat) (q : Queue) {hash : Hash} {peer : Option Peer}
    (hlate : (n.later millis).now ≤ latest)
    (h : n.queueRequest? q = some (.single hash peer)) :
    Alone server latest n none ((n.later millis).answerQueue q (server.answerBlock hash peer))
  | callStep (millis : Nat) {t : CallTurn BlockTree} (hlate : (n.later millis).now ≤ latest)
    (h : (n.later millis).callStep = some t) : Alone server latest n t.ending? t.node
  | answerCall (millis : Nat) {previous : Hash} {count : Nat} {peer : Option Peer}
    (hlate : (n.later millis).now ≤ latest)
    (h : n.callRequest? = some (.following previous count peer)) :
    Alone server latest n
      ((n.later millis).answerCall (server.answerBatch previous count peer)).ending?
      ((n.later millis).answerCall (server.answerBatch previous count peer)).node

/-- No call is in progress, and no queue has work. -/
def AtRest (n : Node BlockTree) : Prop := n.call = none ∧ n.pipeline.Idle

/-- However a node that is left alone goes on, all calls go well, it does not get stuck, it comes to
rest, and then something holds. -/
inductive Settles (server : BlockServer) (latest : Instant) (goal : Node BlockTree → Prop) :
    Node BlockTree → Prop
  | intro {n : Node BlockTree} (hrest : n.AtRest → goal n)
    (hgo : ¬ n.AtRest → ∃ r m, n.Alone server latest r m)
    (hok : ∀ e m, n.Alone server latest (some e) m → e = .done)
    (hnext : ∀ r m, n.Alone server latest r m → Settles server latest goal m) :
    Settles server latest goal n

/-- The worker is called a number of times, each time when the node has settled, and then something
holds. -/
def Rounds (server : BlockServer) (latest : Instant) (goal : Node BlockTree → Prop) :
    Nat → Node BlockTree → Prop
  | 0, n => goal n
  | k + 1, n => ∃ m, n.beginCall = some m ∧ m.Settles server latest (Rounds server latest goal k)

theorem Settles.next {goal : Node BlockTree → Prop} (h : n.Settles server latest goal)
    {r : Option Ending} (hm : n.Alone server latest r m) : m.Settles server latest goal := by
  cases h with
  | intro _ _ _ hnext => exact hnext r m hm

theorem Settles.eq_done {goal : Node BlockTree → Prop} (h : n.Settles server latest goal)
    {e : Ending} (hm : n.Alone server latest (some e) m) : e = .done := by
  cases h with
  | intro _ _ hok _ => exact hok e m hm

theorem Settles.mono {goal goal' : Node BlockTree → Prop} (h : n.Settles server latest goal)
    (hgoal : ∀ m, goal m → goal' m) : n.Settles server latest goal' := by
  induction h with
  | intro hrest hgo hok _ ih => exact .intro (fun h => hgoal _ (hrest h)) hgo hok ih

/-- A node settles when its steps keep something that leads to the goal, and each makes it lighter. -/
theorem settles_of_weight {P goal : Node BlockTree → Prop}
    (hrest : ∀ n, P n → n.AtRest → goal n)
    (hgo : ∀ n, P n → ¬ n.AtRest → ∃ r m, n.Alone server latest r m)
    (hnext : ∀ n r m, P n → n.Alone server latest r m →
      (∀ e, r = some e → e = .done) ∧ P m ∧ m.weight < n.weight)
    (h : P n) : n.Settles server latest goal := by
  -- by induction on the weight, for all nodes at once
  induction hw : n.weight using Nat.strongRecOn generalizing n with
  | ind k ih =>
    refine .intro (hrest n h) (hgo n h) (fun e m hm => (hnext n _ m h hm).1 e rfl) fun r m hm => ?_
    obtain ⟨-, hm', hlt⟩ := hnext n r m h hm
    exact ih m.weight (hw ▸ hlt) hm' rfl

/-- The clock is not past the instant after a step. -/
theorem Alone.now_le {r : Option Ending} (h : n.Alone server latest r m) : m.now ≤ latest := by
  cases h with
  | queue millis q hlate hstep => exact (now_queueStep hstep).symm ▸ hlate
  | answerQueue millis q hlate => exact (now_answerQueue (n.later millis) q _).symm ▸ hlate
  | callStep millis hlate ht => exact (workerMoves_callStep ht).frame.1.symm ▸ hlate
  | answerCall millis hlate => exact (workerMoves_answerCall (n.later millis) _).frame.1.symm ▸ hlate

/-- What happens to a node that is left alone can happen in a run. -/
theorem Alone.run {r : Option Ending} (h : n.Alone server latest r m) :
    ∃ events, run BlockTree.askIrreversible n events = some m := by
  cases h with
  | queue millis q _ h => exact ⟨[.wait millis, .queue q], by simpa [run_cons, step, later] using h⟩
  | @answerQueue millis q hash peer _ h =>
    refine ⟨[.wait millis, .answerQueue q (server.answerBlock hash peer)], ?_⟩
    have h' : (n.later millis).queueRequest? q = _ := h
    simp only [run_cons, step, later, Option.bind_some] at h' ⊢
    rw [h']
    rfl
  | callStep millis _ h => exact ⟨[.wait millis, .callStep], by
      simp only [run_cons, step, Option.bind_some]
      rw [show ({ n with now := n.now + millis } : Node BlockTree).callStep = _ from h]
      rfl⟩
  | @answerCall millis previous count peer _ h =>
    refine ⟨[.wait millis, .answerCall (server.answerBatch previous count peer)], ?_⟩
    have h' : (n.later millis).callRequest? = _ := h
    simp only [run_cons, step, later, Option.bind_some] at h' ⊢
    rw [h']
    rfl

end Node

end ChainNode

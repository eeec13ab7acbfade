import ChainNode.Proofs.Sync.Candidates

/-!
# The fetches of a block

A fetch goes on in pieces: it is enqueued, begins, waits for a peer, and is enqueued again when the
block did not come. Between two pieces anything may happen at the node. `Node.FetchTurn` says what one
event can do to the fetches of one block and to the candidates that are left for it, as long as the
announcement of the block is remembered; `Node.fetchNote?` says what there is to note of it.
-/

namespace ChainNode

/-- The block that a piece of work is to fetch. -/
def Work.sought? : Work → Option Hash
  | fetch w _ | fetching w _ => some w.block.hash
  | _ => none

/-! ## What there is to note -/

/-- What there is to note of a fetch. -/
inductive FetchNote
  /-- A peer is asked. -/
  | asked (peer : Option Peer)
  /-- The peer fails, or its answer is not the block. -/
  | refused
  /-- The peer's answer is the block. -/
  | received (b : Block) (peer : Option Peer)
  /-- The chain has the block. -/
  | known
  /-- Attaching is held up. -/
  | heldUp
  /-- The chain failed. -/
  | failed (e : ChainError)
  deriving DecidableEq

namespace FetchNote

/-- The peer that is asked. -/
def asked? : FetchNote → Option (Option Peer)
  | asked peer => some peer
  | _ => none

/-- There is no next attempt. -/
def ends : FetchNote → Bool
  | asked _ | refused => false
  | _ => true

/-- The work that a fetch hands over to be attached. -/
def attached : FetchNote → List Work
  | received b peer => [.attach ⟨b, peer, none⟩]
  | _ => []

end FetchNote

namespace Node

variable {χ κ : Type} {n m : Node χ} {hash : Hash} {a : Announcement}

/-- The fetches of a block that are under way, in the order in which they go on. -/
def fetches (n : Node χ) (hash : Hash) : List Work :=
  (n.pipeline.lane .fetch).works.filter fun w => w.sought? = some hash

/-- Those of them that wait for their turn. -/
def waitingFetches (n : Node χ) (hash : Hash) : List Work :=
  (n.pipeline.lane .fetch).waiting.filter fun w => w.sought? = some hash

/-- What there is to note when a fetch begins. -/
def beginNote [ChainService χ] (n : Node χ) (w : Wanted) : FetchNote :=
  if n.attachAvailable then
    match (n.lookUp w.block.hash).1 with
    | .error e => .failed e
    | .ok (some _) => .known
    | .ok none => .asked w.peer
  else .heldUp

/-- What there is to note of the answer to a request for a block. -/
def answerNote (w : Wanted) : BlockAnswer → FetchNote
  | .ok (some b) => if b.hash = w.block.hash then .received b w.peer else .refused
  | _ => .refused

/-- What there is to note of the fetches of a block at an event. -/
def fetchNote? [ChainService χ] (n : Node χ) (hash : Hash) : Event κ → Option FetchNote
  | .queue .fetch => match (n.pipeline.lane .fetch).running with
    | some (.fetch w _) => if w.block.hash = hash then some (n.beginNote w) else none
    | _ => none
  | .answerQueue q answer => match (n.pipeline.lane q).running with
    | some (.fetching w _) => if w.block.hash = hash then some (answerNote w answer) else none
    | _ => none
  | _ => none

/-- The block that an event brings in to be fetched, whether or not it was announced before. -/
def Event.direct? : Event κ → Option Hash
  | syncAnnounced _ wanted _ => some wanted.block.hash
  | _ => none

/-! ## The fetch queue -/

theorem fetches_eq (n : Node χ) (hash : Hash) :
    n.fetches hash = ((n.pipeline.lane .fetch).running.toList.filter fun w => w.sought? = some hash) ++
      n.waitingFetches hash := by
  rw [fetches, waitingFetches, Lane.works, List.filter_append]

theorem fetches_congr (h : m.pipeline.lane .fetch = n.pipeline.lane .fetch) :
    m.fetches hash = n.fetches hash := by
  rw [fetches, fetches, h]

/-- Only work on the fetch queue counts. -/
theorem fetches_enqueue (n : Node χ) (q : Queue) (w : Work) (hash : Hash) :
    (n.enqueue q w).fetches hash =
      n.fetches hash ++ if q = .fetch ∧ w.sought? = some hash then [w] else [] := by
  simp only [fetches_eq, waitingFetches, pipeline_enqueue, Pipeline.running_enqueue,
    Pipeline.waiting_enqueue]
  by_cases hq : q = .fetch
  · by_cases hw : w.sought? = some hash <;> simp [hq, hw, List.filter_append]
  · simp [hq]

/-- The fetch that runs is the first. -/
theorem fetches_of_running {w : Work} (h : (n.pipeline.lane .fetch).running = some w) (hash : Hash) :
    n.fetches hash = (if w.sought? = some hash then [w] else []) ++ n.waitingFetches hash := by
  simp only [fetches_eq, h, Option.toList_some, List.filter_cons, List.filter_nil, decide_eq_true_eq]

/-- What it becomes stays in its place. -/
theorem fetches_advance (n : Node χ) (w : Work) (hash : Hash) :
    ({ n with pipeline := n.pipeline.advance .fetch w } : Node χ).fetches hash =
      (if w.sought? = some hash then [w] else []) ++ n.waitingFetches hash := by
  have hrunning : ((n.pipeline.advance .fetch w).lane .fetch).running = some w := by
    rw [Pipeline.running_advance, if_pos rfl]
  refine (fetches_of_running (n := { n with pipeline := n.pipeline.advance .fetch w }) hrunning
    hash).trans ?_
  simp only [waitingFetches, Pipeline.waiting_advance]

/-- A fetch that is over makes room for the others. -/
theorem fetches_leave (n : Node χ) {w : Work} (hw : w.sought? = none) (hash : Hash) :
    ({ n with pipeline := n.pipeline.advance .fetch w } : Node χ).fetches hash =
      n.waitingFetches hash := by
  rw [fetches_advance, hw, if_neg nofun, List.nil_append]

/-- Another attempt goes to the end of the queue. -/
theorem fetches_again (n : Node χ) (w : Wanted) (retries : Nat) (hash : Hash) (ending : Ending) :
    ({ n.enqueueFetch w retries with
        pipeline := (n.enqueueFetch w retries).pipeline.advance .fetch (.ended ending) } :
        Node χ).fetches hash =
      n.waitingFetches hash ++ if w.block.hash = hash then [.fetch w retries] else [] := by
  rw [fetches_leave _ rfl, enqueueFetch, waitingFetches, pipeline_enqueue, Pipeline.waiting_enqueue,
    if_pos rfl, List.filter_append, waitingFetches]
  by_cases hhash : w.block.hash = hash <;> simp [Work.sought?, hhash]

section Steps
variable [ChainService χ] {w w' : Work} {q : Queue}

/-- The worker has nothing to do with fetches. -/
theorem WorkerMoves.fetchFrame (h : n.WorkerMoves m) :
    m.pipeline.lane .fetch = n.pipeline.lane .fetch ∧ m.now = n.now ∧
      m.announcements = n.announcements := by
  refine ⟨?_, h.frame⟩
  refine h.keep (P := fun k => k.pipeline.lane .fetch = n.pipeline.lane .fetch)
    (fun b c hbc hb => ?_) rfl
  rw [← hb]
  cases hbc with
  | attach => simp [enqueueAttach, Pipeline.enqueue]
  | call | heads | remove | update | register | erase => rfl

/-- Work on the other queues has nothing to do with fetches. -/
theorem workStep_fetchFrame (hq : q ≠ .fetch) (hw : w.Begun q) (h : n.workStep w = some (w', m)) :
    m.pipeline.lane .fetch = n.pipeline.lane .fetch ∧ m.now = n.now ∧
      m.announcements = n.announcements := by
  have hcomplete (c : χ) (completion : Option Completion) :
      (({ n with chain := c } : Node χ).complete completion).pipeline.lane .fetch =
        n.pipeline.lane .fetch ∧ (({ n with chain := c } : Node χ).complete completion).now = n.now ∧
      (({ n with chain := c } : Node χ).complete completion).announcements = n.announcements := by
    match completion with
    | none | some (.markTarget _) | some (.note _) => exact ⟨rfl, rfl, rfl⟩
  cases w <;> simp only [workStep, Option.some.injEq, reduceCtorEq] at h
  case fetch wanted retries => cases q <;> first | exact absurd rfl hq | exact hw.elim
  case attach a =>
    split at h <;> rename_i k hk <;> obtain ⟨-, rfl⟩ := Prod.mk.inj h <;>
      obtain rfl := congrArg Prod.snd hk
    · exact ⟨rfl, rfl, rfl⟩
    · exact hcomplete _ a.completion
    · exact ⟨rfl, rfl, rfl⟩
  case judge a =>
    split at h <;> rename_i k hk <;> obtain rfl := congrArg Prod.snd hk
    · obtain ⟨-, rfl⟩ := Prod.mk.inj h
      exact ⟨rfl, rfl, rfl⟩
    · split at h <;> obtain ⟨-, rfl⟩ := Prod.mk.inj h <;> exact ⟨rfl, rfl, rfl⟩
  case store a irreversible =>
    split at h <;> rename_i k hk <;> obtain ⟨-, rfl⟩ := Prod.mk.inj h <;>
      obtain rfl := congrArg Prod.snd hk <;> exact ⟨rfl, rfl, rfl⟩
  case handOver a =>
    obtain ⟨-, rfl⟩ := Prod.mk.inj h
    exact ⟨by simp [Pipeline.enqueue], rfl, rfl⟩
  case update hash c =>
    split at h <;> rename_i k hk <;> obtain ⟨-, rfl⟩ := Prod.mk.inj h <;>
      obtain rfl := congrArg Prod.snd hk <;> exact ⟨rfl, rfl, rfl⟩
  case report c =>
    obtain ⟨-, rfl⟩ := Prod.mk.inj h
    exact hcomplete n.chain c

theorem InPlace.queueStep_fetchFrame (h : n.InPlace) (hq : q ≠ .fetch)
    (hm : n.queueStep q = some m) :
    m.pipeline.lane .fetch = n.pipeline.lane .fetch ∧ m.now = n.now ∧
      m.announcements = n.announcements := by
  obtain ⟨p, hp, rfl⟩ | ⟨r, hr, rfl⟩ | ⟨w, w', k, hr, hk, rfl⟩ := queueStep_cases hm
  · exact ⟨((Pipeline.receive_cases hp).2.2.2 .fetch hq).1, rfl, rfl⟩
  · exact ⟨by simp [Pipeline.finish, hq], rfl, rfl⟩
  · obtain ⟨hlane, hnow, hann⟩ := workStep_fetchFrame hq (h.holds.running q w hr) hk
    exact ⟨by simp [Pipeline.advance, hq, hlane], hnow, hann⟩

/-- A fetch that is under way is not stuck: the queue can take a step, unless it waits for a peer. -/
theorem InPlace.fetches_go_on (h : n.InPlace) (hfetches : n.fetches hash ≠ []) :
    (n.queueStep .fetch).isSome ∨ (n.queueRequest? .fetch).isSome := by
  rw [Node.queueStep, queueRequest?]
  cases hr : (n.pipeline.lane .fetch).running with
  | none =>
    left
    rw [Option.isSome_map]
    refine Pipeline.receive_isSome hr fun hw => hfetches ?_
    rw [fetches, Lane.works, hr, hw]
    rfl
  | some w =>
    have hbegun := h.holds.running .fetch w hr
    cases w with
    | fetching => exact .inr rfl
    | fetch | ended => exact .inl rfl
    | attach | judge | store | handOver | update | report => exact hbegun.elim

/-- How a fetch begins: the peer is asked, or nothing is left to do. -/
theorem beginFetch_cases (n : Node χ) (w : Wanted) (retries : Nat) :
    (n.beginNote w = .asked w.peer ∧ (n.beginFetch w retries).1 = .fetching w retries ∧
        ∃ chain, (n.beginFetch w retries).2 = { n with chain }) ∨
      ((n.beginNote w).ends ∧ (n.beginNote w).attached = [] ∧
        (∃ r, (n.beginFetch w retries).1 = .ended r) ∧
        ∃ chain, (n.beginFetch w retries).2 = { n with chain } ∨
          (n.beginFetch w retries).2 = (({ n with chain } : Node χ).fetched w).2) := by
  rw [beginNote, beginFetch]
  split
  case isFalse => exact .inr ⟨rfl, rfl, ⟨_, rfl⟩, n.chain, .inl rfl⟩
  case isTrue =>
    have hchain : (n.lookUp w.block.hash).2 =
        { n with chain := (ChainService.block? n.chain w.block.hash).2 } := rfl
    cases hl : n.lookUp w.block.hash with
    | mk answer k =>
      rw [hl] at hchain
      obtain rfl := hchain
      obtain e | _ | b := answer
      · exact .inr ⟨rfl, rfl, ⟨_, rfl⟩, _, .inl rfl⟩
      · exact .inl ⟨rfl, rfl, _, rfl⟩
      · exact .inr ⟨rfl, rfl, ⟨_, rfl⟩, _, .inr rfl⟩

omit [ChainService χ] in
/-- How a fetch ends: the block is enqueued to be attached, or there is another attempt. -/
theorem finishFetch_cases (n : Node χ) (w : Wanted) (retries : Nat) (answer : BlockAnswer) :
    (∃ b, b.hash = w.block.hash ∧ answerNote w answer = .received b w.peer ∧
        n.finishFetch w retries answer = (n.enqueueAttach ⟨b, w.peer, none⟩).fetched w) ∨
      (answerNote w answer = .refused ∧ n.finishFetch w retries answer = n.notFetched w retries) := by
  match answer with
  | .ok (some b) =>
    by_cases hb : b.hash = w.block.hash
    · simp [answerNote, finishFetch, acceptBlock, hb]
    · simp [answerNote, finishFetch, acceptBlock, hb]
  | .ok none | .error _ => exact .inr ⟨rfl, rfl⟩

end Steps

/-! ## What one event does -/

/-- What an event does to the fetches of a block that is remembered and to its candidates, by what
there is to note and by who becomes a candidate. -/
inductive FetchTurn (n : Node χ) (hash : Hash) (a : Announcement) :
    Option FetchNote → List Peer → Node χ → Prop
  /-- The fetches stay as they are. -/
  | pass {joined : List Peer} {m : Node χ} (hm : m.fetches hash = n.fetches hash)
    (ha : m.recalled? hash = some { a with candidates := a.candidates ++ joined }) :
    FetchTurn n hash a none joined m
  /-- The first fetch begins, and its peer is asked. -/
  | asked {w : Wanted} {retries : Nat} {rest : List Work} {m : Node χ}
    (hn : n.fetches hash = .fetch w retries :: rest)
    (hm : m.fetches hash = .fetching w retries :: rest) (ha : m.recalled? hash = some a) :
    FetchTurn n hash a (some (.asked w.peer)) [] m
  /-- The first fetch begins, and nothing is left to do. -/
  | stopped {note : FetchNote} {w : Wanted} {retries : Nat} {rest : List Work} {m : Node χ}
    (hends : note.ends) (hattached : note.attached = [])
    (hn : n.fetches hash = .fetch w retries :: rest) (hm : m.fetches hash = rest)
    (ha : ∃ candidates, m.recalled? hash = some { a with candidates }) :
    FetchTurn n hash a (some note) [] m
  /-- The block came; it has no candidates any more. -/
  | received {b : Block} {w : Wanted} {retries : Nat} {rest : List Work} {m : Node χ}
    (hn : n.fetches hash = .fetching w retries :: rest) (hm : m.fetches hash = rest)
    (ha : m.recalled? hash = some { a with candidates := [] }) :
    FetchTurn n hash a (some (.received b w.peer)) [] m
  /-- The block did not come: the same peer is asked again. -/
  | again {w : Wanted} {retries : Nat} {rest : List Work} {m : Node χ}
    (hn : n.fetches hash = .fetching w (retries + 1) :: rest)
    (hm : m.fetches hash = rest ++ [.fetch w retries]) (ha : m.recalled? hash = some a) :
    FetchTurn n hash a (some .refused) [] m
  /-- The block did not come: the next peer is asked. -/
  | next {w : Wanted} {rest : List Work} {peer : Peer} {candidates : List Peer} {m : Node χ}
    (hn : n.fetches hash = .fetching w 0 :: rest) (hcandidates : a.candidates = peer :: candidates)
    (hm : m.fetches hash = rest ++ [.fetch { w with peer := some peer } n.settings.retries])
    (ha : m.recalled? hash = some { a with candidates }) :
    FetchTurn n hash a (some .refused) [] m
  /-- The block did not come, and there is nobody else to ask. -/
  | gaveUp {w : Wanted} {rest : List Work} {m : Node χ}
    (hn : n.fetches hash = .fetching w 0 :: rest) (hcandidates : a.candidates = [])
    (hm : m.fetches hash = rest) (ha : m.recalled? hash = some a) :
    FetchTurn n hash a (some .refused) [] m

/-- Nobody joins, and the fetches stay as they are. -/
theorem FetchTurn.same (hm : m.fetches hash = n.fetches hash) (ha : m.recalled? hash = some a) :
    n.FetchTurn hash a none [] m :=
  .pass hm (by rw [List.append_nil]; exact ha)

/-- The announcement stays the one that was let through. -/
theorem FetchTurn.recalled {note : Option FetchNote} {joined : List Peer}
    (h : n.FetchTurn hash a note joined m) :
    ∃ b, m.recalled? hash = some b ∧ b.since = a.since := by
  cases h with
  | pass _ ha | asked _ _ ha | received _ _ ha | again _ _ ha | next _ _ _ ha | gaveUp _ _ _ ha =>
    exact ⟨_, ha, rfl⟩
  | stopped _ _ _ _ ha =>
    obtain ⟨candidates, ha⟩ := ha
    exact ⟨_, ha, rfl⟩

/-- Where there is nothing to note, nothing happens to the fetches. -/
theorem FetchTurn.fetches_of_none {joined : List Peer} (h : n.FetchTurn hash a none joined m) :
    m.fetches hash = n.fetches hash := by
  cases h with
  | pass hm => exact hm

section Turn
variable {ttl : Duration} {past : List (Hash × Instant)}

/-- Where nobody joins and nothing is said of the block, its announcement is remembered as it was. -/
theorem Remembers.pass (h : n.Remembers ttl past) (ha : n.recalled? hash = some a)
    (hdated : a.Dated ttl) (hm : m.fetches hash = n.fetches hash) (hnow : n.now ≤ m.now)
    (hann : m.announcements = n.announcements) (hlive : m.now < a.since.after ttl) :
    n.FetchTurn hash a none [] m := by
  exact .same hm (h.recalled?_keep ha hdated hnow hann hlive)

/-- A fetch whose block did not come is over, unless there is another attempt. -/
theorem Remembers.fetchTurn_notFetched (hr : n.Remembers ttl past) (ha : n.recalled? hash = some a)
    (hdated : a.Dated ttl) {w : Wanted} {retries : Nat} (ending : Ending)
    (hn : n.fetches hash =
      (if w.block.hash = hash then [.fetching w retries] else []) ++ n.waitingFetches hash) :
    n.FetchTurn hash a (if w.block.hash = hash then some .refused else none) []
      { (n.notFetched w retries).2 with
        pipeline := (n.notFetched w retries).2.pipeline.advance .fetch (.ended ending) } := by
  cases retries with
  | succ retries =>
    have hm := fetches_again n w retries hash ending
    by_cases hhash : w.block.hash = hash
    · rw [if_pos hhash] at hn hm ⊢
      exact .again hn hm ha
    · rw [if_neg hhash] at hn hm ⊢
      exact .same (hm.trans (by rw [hn, List.append_nil]; rfl)) ha
  | zero =>
    let k : Node χ :=
      { n with announcements := (n.announcements.nextCandidate n.now w.block.hash).2 }
    have hnone (h : (n.announcements.nextCandidate n.now w.block.hash).1 = .ok none) :
        (n.notFetched w 0).2 = k := by
      simp only [notFetched, h, k]
    have hsome {peer : Peer}
        (h : (n.announcements.nextCandidate n.now w.block.hash).1 = .ok (some peer)) :
        (n.notFetched w 0).2 = k.enqueueFetch { w with peer := some peer } n.settings.retries := by
      simp only [notFetched, h, k]
    have hpanic {p : Panic}
        (h : (n.announcements.nextCandidate n.now w.block.hash).1 = .error p) :
        (n.notFetched w 0).2 = k := by
      simp only [notFetched, h, k]
    have hagain (peer : Peer) :=
      fetches_again k { w with peer := some peer } n.settings.retries hash ending
    have hleave := fetches_leave k (w := .ended ending) rfl hash
    by_cases hhash : w.block.hash = hash
    · subst hhash
      obtain ⟨hpeer, hk⟩ := hr.recalled?_next ha hdated
      rw [if_pos rfl] at hn ⊢
      cases hcandidates : a.candidates with
      | nil =>
        rw [hcandidates] at hpeer
        rw [hnone hpeer]
        refine .gaveUp hn hcandidates hleave (hk.trans ?_)
        rw [hcandidates, List.tail_nil, ← hcandidates]
      | cons peer rest =>
        rw [hcandidates] at hpeer
        rw [hsome hpeer]
        refine .next hn hcandidates ((hagain peer).trans (by rw [if_pos rfl]; rfl)) (hk.trans ?_)
        rw [hcandidates, List.tail_cons]
    · have hk := hr.recalled?_next_of_ne ha hdated hhash
      rw [if_neg hhash] at hn ⊢
      cases hanswer : (n.announcements.nextCandidate n.now w.block.hash).1 with
      | error p =>
        rw [hpanic hanswer]
        exact .same (hleave.trans (by rw [hn]; rfl)) hk
      | ok next =>
        cases next with
        | none =>
          rw [hnone hanswer]
          exact .same (hleave.trans (by rw [hn]; rfl)) hk
        | some peer =>
          rw [hsome hanswer]
          refine .same ((hagain peer).trans ?_) hk
          rw [if_neg hhash, hn, List.append_nil]
          rfl

/-- Another attempt is nothing to the attach queue. -/
theorem waiting_attach_notFetched (n : Node χ) (w : Wanted) (retries : Nat) :
    ((n.notFetched w retries).2.pipeline.lane .attach).waiting =
      (n.pipeline.lane .attach).waiting := by
  have henqueue (k : Node χ) (v : Wanted) (left : Nat) :
      ((k.enqueueFetch v left).pipeline.lane .attach).waiting =
        (k.pipeline.lane .attach).waiting :=
    Pipeline.waiting_enqueue.trans (by rw [if_neg nofun])
  cases retries with
  | succ retries => exact henqueue n w retries
  | zero =>
    simp only [notFetched]
    split
    · exact henqueue _ _ _
    · rfl
    · rfl

theorem fetches_syncAnnounced {heads : Heads} {w : Wanted} {batch : Nat}
    (hne : w.block.hash ≠ hash) :
    (n.syncAnnounced heads w batch).2.fetches hash = n.fetches hash := by
  rw [syncAnnounced]
  split
  · dsimp only
    split
    · rw [enqueueFetch, fetches_enqueue, if_neg (fun h => hne (Option.some.inj h.2)),
        List.append_nil]
    · rfl
  · rfl
  · rfl

theorem fetches_syncBlock {heads : Heads} {b : Block} {batch : Nat} {peer : Option Peer} :
    (n.syncBlock heads b batch peer).2.fetches hash = n.fetches hash := by
  rw [syncBlock]
  split
  · dsimp only
    split
    · simp only [enqueueAttach, fetches_enqueue, reduceCtorEq, false_and, if_false, List.append_nil]
    · rfl
  · rfl
  · rfl

/-- An announcement starts no fetch of a block that is remembered. -/
theorem Remembers.announceUnder_aside (h : n.Remembers ttl past) (ha : n.recalled? hash = some a)
    (hdated : a.Dated ttl) (heads : Heads) (block : Tip) (sender : Peer) :
    (n.announceUnder heads block sender).2.fetches hash = n.fetches hash ∧
      (n.announceUnder heads block sender).2.recalled? hash = some { a with
        candidates := a.candidates ++ n.joins hash (some ⟨heads, block, sender⟩) } := by
  obtain ⟨hfiltered, hscreen⟩ := h.recalled?_screen ha hdated ⟨heads, block, sender⟩
  rw [announceUnder_eq]
  cases hlets : n.lets ⟨heads, block, sender⟩ with
  | false => exact ⟨rfl, hscreen⟩
  | true =>
    have hne : block.hash ≠ hash := fun he => by
      rw [hfiltered he] at hlets
      cases hlets
    obtain ⟨hnow, hann⟩ := syncAnnounced_frame (n.screen heads block sender).2 heads
      ⟨block, some sender⟩ n.settings.batch
    exact ⟨fetches_syncAnnounced hne, (recalled?_congr hnow hann).trans hscreen⟩

theorem Remembers.pushUnder_aside (h : n.Remembers ttl past) (ha : n.recalled? hash = some a)
    (hdated : a.Dated ttl) (heads : Heads) (b : Block) (sender : Peer) :
    (n.pushUnder heads b sender).2.fetches hash = n.fetches hash ∧
      (n.pushUnder heads b sender).2.recalled? hash = some { a with
        candidates := a.candidates ++ n.joins hash (some ⟨heads, b.tip, sender⟩) } := by
  obtain ⟨-, hscreen⟩ := h.recalled?_screen ha hdated ⟨heads, b.tip, sender⟩
  rw [pushUnder_eq]
  cases n.lets ⟨heads, b.tip, sender⟩ with
  | false => exact ⟨rfl, hscreen⟩
  | true =>
    obtain ⟨hnow, hann⟩ := syncBlock_frame (n.screen heads b.tip sender).2 heads b n.settings.batch
      (some sender)
    exact ⟨fetches_syncBlock, (recalled?_congr hnow hann).trans hscreen⟩

variable [ChainService χ]

/-- A step of the fetch queue. -/
theorem InPlace.fetchTurn_queue (h : n.InPlace) (hr : n.Remembers ttl past)
    (ha : n.recalled? hash = some a) (hdated : a.Dated ttl) (hm : n.queueStep .fetch = some m)
    (hlive : m.now < a.since.after ttl) :
    n.FetchTurn hash a (n.fetchNote? hash (.queue .fetch : Event κ)) [] m := by
  obtain ⟨p, hp, rfl⟩ | ⟨r, hrunning, rfl⟩ | ⟨w, w', k, hrunning, hk, rfl⟩ := queueStep_cases hm
  · rw [fetchNote?, (Pipeline.receive_cases hp).1]
    refine hr.pass ha hdated ?_ (Int.le_refl _) rfl hlive
    rw [fetches, fetches, Pipeline.works_receive hp]
  · rw [fetchNote?, hrunning]
    refine hr.pass ha hdated ?_ (Int.le_refl _) rfl hlive
    simp [fetches_eq, waitingFetches, hrunning, Work.sought?]
  · have hbegun := h.holds.running .fetch w hrunning
    cases w <;> simp only [Node.workStep, Option.some.injEq, reduceCtorEq] at hk <;>
      try exact hbegun.elim
    case fetch w retries =>
      have hn : n.fetches hash =
          (if w.block.hash = hash then [.fetch w retries] else []) ++ n.waitingFetches hash := by
        simp [fetches_of_running hrunning, Work.sought?]
      rw [fetchNote?, hrunning]
      dsimp only
      have hbegin := beginFetch_cases n w retries
      rw [hk] at hbegin
      obtain ⟨hnote, rfl, chain, rfl⟩ | ⟨hends, hattached, ⟨r, rfl⟩, chain, hleft⟩ := hbegin
      · have hm := fetches_advance { n with chain } (.fetching w retries) hash
        by_cases hhash : w.block.hash = hash
        · rw [if_pos hhash, hnote]
          refine .asked (hn.trans (by rw [if_pos hhash]; rfl)) (hm.trans ?_) ha
          exact congrArg (· ++ n.waitingFetches hash) (if_pos (congrArg some hhash))
        · rw [if_neg hhash]
          refine hr.pass ha hdated ?_ (Int.le_refl _) rfl hlive
          rw [hm, hn, if_neg hhash]
          exact congrArg (· ++ n.waitingFetches hash) (if_neg (hhash ∘ Option.some.inj))
      · have hm : ({ k with pipeline := k.pipeline.advance .fetch (.ended r) } : Node χ).fetches hash =
            n.waitingFetches hash := by
          rw [fetches_leave _ rfl]
          obtain rfl | rfl := hleft <;> rfl
        by_cases hhash : w.block.hash = hash
        · rw [if_pos hhash]
          refine .stopped hends hattached (hn.trans (by rw [if_pos hhash]; rfl)) hm ?_
          obtain rfl | rfl := hleft
          · exact ⟨a.candidates, ha⟩
          · exact ⟨[], hr.recalled?_fetched (n := { n with chain }) ha hdated hhash⟩
        · rw [if_neg hhash]
          refine .pass (by rw [hm, hn, if_neg hhash]; rfl) ?_
          rw [List.append_nil]
          obtain rfl | rfl := hleft
          · exact ha
          · exact hr.recalled?_fetched_of_ne (n := { n with chain }) ha hdated hhash

/-- A peer's answer. -/
theorem InPlace.fetchTurn_answer (h : n.InPlace) (hr : n.Remembers ttl past)
    (ha : n.recalled? hash = some a) (hdated : a.Dated ttl) {q : Queue} {answer : BlockAnswer}
    (hrequest : (n.queueRequest? q).isSome) :
    n.FetchTurn hash a (n.fetchNote? hash (.answerQueue q answer : Event κ)) []
      (n.answerQueue q answer) := by
  obtain ⟨r, hrequest⟩ := Option.isSome_iff_exists.mp hrequest
  obtain ⟨w, hrunning, hw⟩ := Option.bind_eq_some_iff.mp hrequest
  cases w <;> simp only [Work.request?, reduceCtorEq] at hw
  case fetching w retries =>
    have hbegun := h.holds.running q _ hrunning
    obtain rfl : q = .fetch := by cases q <;> first | rfl | exact hbegun.elim
    have hn : n.fetches hash =
        (if w.block.hash = hash then [.fetching w retries] else []) ++ n.waitingFetches hash := by
      simp [fetches_of_running hrunning, Work.sought?]
    rw [fetchNote?, hrunning, answerQueue, hrunning]
    dsimp only
    obtain ⟨b, -, hnote, hleft⟩ | ⟨hnote, hleft⟩ := finishFetch_cases n w retries answer
    · rw [hleft]
      let k := (n.enqueueAttach ⟨b, w.peer, none⟩).fetched w
      have hwaiting : k.2.waitingFetches hash = n.waitingFetches hash := by
        simp [k, waitingFetches, fetched, enqueueAttach]
      have hleave := fetches_leave k.2 (w := .ended k.1) rfl hash
      rw [hwaiting] at hleave
      by_cases hhash : w.block.hash = hash
      · rw [if_pos hhash, hnote]
        exact .received (hn.trans (by rw [if_pos hhash]; rfl)) hleave
          (hr.recalled?_fetched (n := n.enqueueAttach ⟨b, w.peer, none⟩) ha hdated hhash)
      · rw [if_neg hhash]
        exact .same (by rw [hleave, hn, if_neg hhash]; rfl)
          (hr.recalled?_fetched_of_ne (n := n.enqueueAttach ⟨b, w.peer, none⟩) ha hdated hhash)
    · rw [hleft, hnote]
      exact hr.fetchTurn_notFetched ha hdated _ hn

/-- **One event of a fetch.** Whatever happens at a node, and whatever else is fetched there: as long
as the announcement of a block is remembered, which expires at an instant, the fetches of the block go
on as `FetchTurn` says, unless another one is brought in past the announcements. -/
theorem InPlace.fetchTurn (h : n.InPlace) (hr : n.Remembers ttl past)
    (ha : n.recalled? hash = some a) (hdated : a.Dated ttl) {act : κ → χ → χ} {e : Event κ}
    (hstep : step act n e = some m) (hlive : m.now < a.since.after ttl)
    (hdirect : e.direct? ≠ some hash) :
    n.FetchTurn hash a (n.fetchNote? hash e) (n.joins hash (n.notice? e)) m := by
  cases e <;> simp only [step, Option.some.injEq] at hstep
  case wait millis =>
    subst hstep
    exact hr.pass ha hdated rfl (Int.le_add_of_nonneg_right (Int.natCast_nonneg millis)) rfl hlive
  case announce block sender =>
    subst hstep
    rw [announce, notice?]
    split <;> rename_i k hk <;> obtain rfl := congrArg Prod.snd hk <;> rw [hk]
    · exact .same rfl ha
    · obtain ⟨hm, ha'⟩ := hr.announceUnder_aside (n := n.heads.2) ha hdated _ block sender
      exact .pass hm ha'
  case push b sender =>
    subst hstep
    rw [push, notice?]
    split <;> rename_i k hk <;> obtain rfl := congrArg Prod.snd hk <;> rw [hk]
    · exact .same rfl ha
    · obtain ⟨hm, ha'⟩ := hr.pushUnder_aside (n := n.heads.2) ha hdated _ b sender
      exact .pass hm ha'
  case announceUnder heads block sender =>
    obtain ⟨hm, ha'⟩ := hr.announceUnder_aside ha hdated heads block sender
    exact hstep ▸ .pass hm ha'
  case pushUnder heads b sender =>
    obtain ⟨hm, ha'⟩ := hr.pushUnder_aside ha hdated heads b sender
    exact hstep ▸ .pass hm ha'
  case syncAnnounced heads wanted batch =>
    subst hstep
    obtain ⟨hnow, hann⟩ := syncAnnounced_frame n heads wanted batch
    refine hr.pass ha hdated (fetches_syncAnnounced fun he => hdirect (congrArg some he))
      (Int.le_of_eq hnow.symm) hann hlive
  case syncBlock heads b batch peer =>
    subst hstep
    obtain ⟨hnow, hann⟩ := syncBlock_frame n heads b batch peer
    exact hr.pass ha hdated fetches_syncBlock (Int.le_of_eq hnow.symm) hann hlive
  case enqueueJob target batch peer =>
    exact hstep ▸ hr.pass ha hdated rfl (Int.le_refl _) rfl (hstep ▸ hlive)
  case call =>
    obtain ⟨hlane, hnow, hann⟩ := (workerMoves_beginCall hstep).fetchFrame
    exact hr.pass ha hdated (fetches_congr hlane) (Int.le_of_eq hnow.symm) hann hlive
  case callStep =>
    obtain ⟨t, ht, rfl⟩ := Option.map_eq_some_iff.mp hstep
    obtain ⟨hlane, hnow, hann⟩ := (workerMoves_callStep ht).fetchFrame
    exact hr.pass ha hdated (fetches_congr hlane) (Int.le_of_eq hnow.symm) hann hlive
  case answerCall answer =>
    obtain ⟨_, -, rfl⟩ := Option.map_eq_some_iff.mp hstep
    obtain ⟨hlane, hnow, hann⟩ := (workerMoves_answerCall n answer).fetchFrame
    exact hr.pass ha hdated (fetches_congr hlane) (Int.le_of_eq hnow.symm) hann hlive
  case queue q =>
    by_cases hq : q = .fetch
    · subst hq
      exact h.fetchTurn_queue hr ha hdated hstep hlive
    · obtain ⟨hlane, hnow, hann⟩ := h.queueStep_fetchFrame hq hstep
      have hnote : n.fetchNote? hash (.queue q : Event κ) = none := by
        cases q <;> first | exact absurd rfl hq | rfl
      rw [hnote]
      exact hr.pass ha hdated (fetches_congr hlane) (Int.le_of_eq hnow.symm) hann hlive
  case answerQueue q answer =>
    obtain ⟨r, hrequest, rfl⟩ := Option.map_eq_some_iff.mp hstep
    exact h.fetchTurn_answer hr ha hdated (by rw [hrequest]; rfl)
  case post q =>
    subst hstep
    refine hr.pass ha hdated ?_ (Int.le_refl _) rfl hlive
    rw [fetches, fetches, Lane.works, Lane.works, Pipeline.lane_post_running,
      Pipeline.lane_post_waiting]
  case chain change => exact hstep ▸ hr.pass ha hdated rfl (Int.le_refl _) rfl (hstep ▸ hlive)

/-! ## What is handed over -/

/-- There is something to note when a fetch begins and when its peer answers. -/
theorem fetchNote?_cases {e : Event κ} {note : FetchNote} (h : n.fetchNote? hash e = some note) :
    (∃ w retries, e = .queue .fetch ∧
        (n.pipeline.lane .fetch).running = some (.fetch w retries) ∧ w.block.hash = hash ∧
        note = n.beginNote w) ∨
      ∃ q answer w retries, e = .answerQueue q answer ∧
        (n.pipeline.lane q).running = some (.fetching w retries) ∧ w.block.hash = hash ∧
        note = answerNote w answer := by
  cases e <;> simp only [fetchNote?, reduceCtorEq] at h
  case queue q =>
    cases q <;> simp only [reduceCtorEq] at h
    split at h
    case h_2 => cases h
    case h_1 w retries hrunning =>
      split at h
      case isFalse => cases h
      case isTrue hhash => exact .inl ⟨w, retries, rfl, hrunning, hhash, (Option.some.inj h).symm⟩
  case answerQueue q answer =>
    split at h
    case h_2 => cases h
    case h_1 w retries hrunning =>
      split at h
      case isFalse => cases h
      case isTrue hhash =>
        exact .inr ⟨q, answer, w, retries, rfl, hrunning, hhash, (Option.some.inj h).symm⟩

/-- What an event does at which there is something to note. -/
structure Noted (n m : Node χ) (hash : Hash) (note : FetchNote) : Prop where
  /-- The block is requested from a peer just when the peer is asked. -/
  request_iff : ∀ peer, m.queueRequest? .fetch = some (.single hash peer) ↔ note = .asked peer
  /-- A block is enqueued to be attached just when it is received. -/
  waiting_eq : (m.pipeline.lane .attach).waiting =
    (n.pipeline.lane .attach).waiting ++ note.attached
  /-- What is received is the block, and then it has no candidates any more. -/
  received : ∀ b peer, note = .received b peer → b.hash = hash ∧ m.candidates hash = []

omit [ChainService χ] in
theorem queueRequest?_advance {q : Queue} {w : Work} :
    ({ n with pipeline := n.pipeline.advance q w } : Node χ).queueRequest? q = w.request? := by
  rw [queueRequest?, Pipeline.running_advance, if_pos rfl, Option.bind_some]

/-- A request goes out when a fetch begins that is not over at once. -/
theorem Noted.of_begin {act : κ → χ → χ} {w : Wanted} {retries : Nat}
    (hstep : step act n (.queue .fetch) = some m)
    (hrunning : (n.pipeline.lane .fetch).running = some (.fetch w retries)) :
    n.Noted m w.block.hash (n.beginNote w) := by
  obtain ⟨p, hp, -⟩ | ⟨r, hr, -⟩ | ⟨v, w', k, hr, hk, rfl⟩ := queueStep_cases hstep
  · rw [(Pipeline.receive_cases hp).1] at hrunning
    cases hrunning
  · rw [hr] at hrunning
    cases hrunning
  · rw [hrunning] at hr
    obtain rfl := Option.some.inj hr
    have hbegin := beginFetch_cases n w retries
    rw [show n.beginFetch w retries = (w', k) from Option.some.inj hk] at hbegin
    obtain ⟨hasked, rfl, chain, rfl⟩ | ⟨hends, hattached, ⟨r, rfl⟩, chain, hleft⟩ := hbegin
    · rw [hasked]
      refine ⟨fun peer => ?_, ?_, fun b peer he => ?_⟩
      · rw [queueRequest?_advance (n := { n with chain }), Work.request?]
        simp
      · rw [Pipeline.waiting_advance]
        exact (List.append_nil _).symm
      · cases he
    · have hnote : (∀ peer, n.beginNote w ≠ .asked peer) ∧
          ∀ b peer, n.beginNote w ≠ .received b peer := by
        refine ⟨fun peer he => ?_, fun b peer he => ?_⟩
        · rw [he] at hends
          cases hends
        · rw [he] at hattached
          cases hattached
      refine ⟨fun peer => ?_, ?_, fun b peer he => absurd he (hnote.2 b peer)⟩
      · rw [queueRequest?_advance (n := k)]
        simp [Work.request?, hnote.1]
      · rw [hattached, Pipeline.waiting_advance, List.append_nil]
        obtain rfl | rfl := hleft <;> rfl

omit [ChainService χ] in
/-- The right answer is handed over; any other leads to another attempt at most. -/
theorem Noted.of_answer (hr : n.Remembers ttl past) (ha : n.recalled? hash = some a)
    (hdated : a.Dated ttl) {w : Wanted} {retries : Nat}
    (hrunning : (n.pipeline.lane .fetch).running = some (.fetching w retries))
    (hhash : w.block.hash = hash) (answer : BlockAnswer) :
    n.Noted (n.answerQueue .fetch answer) hash (answerNote w answer) := by
  have hover (ending : Ending) : (Work.ended ending).request? = none := rfl
  rw [answerQueue, hrunning]
  dsimp only
  obtain ⟨b, hb, hreceived, hleft⟩ | ⟨hrefused, hleft⟩ := finishFetch_cases n w retries answer
  · rw [hreceived, hleft]
    refine ⟨fun peer => ?_, ?_, fun c peer he => ?_⟩
    · rw [queueRequest?_advance (n := ((n.enqueueAttach ⟨b, w.peer, none⟩).fetched w).2), hover]
      simp
    · rw [Pipeline.waiting_advance]
      exact Pipeline.waiting_enqueue.trans (by rw [if_pos rfl]; rfl)
    · obtain ⟨rfl, -⟩ := FetchNote.received.inj he
      have hleave := hr.recalled?_fetched (n := n.enqueueAttach ⟨b, w.peer, none⟩) ha hdated hhash
      exact ⟨hb.trans hhash, candidates_of_recalled? hleave⟩
  · rw [hrefused, hleft]
    refine ⟨fun peer => ?_, ?_, fun b peer he => ?_⟩
    · rw [queueRequest?_advance (n := (n.notFetched w retries).2), hover]
      simp
    · rw [Pipeline.waiting_advance, waiting_attach_notFetched]
      exact (List.append_nil _).symm
    · cases he

theorem InPlace.noted (h : n.InPlace) (hr : n.Remembers ttl past) (ha : n.recalled? hash = some a)
    (hdated : a.Dated ttl) {act : κ → χ → χ} {e : Event κ} {note : FetchNote}
    (hstep : step act n e = some m) (hnote : n.fetchNote? hash e = some note) :
    n.Noted m hash note := by
  obtain ⟨w, retries, rfl, hrunning, rfl, rfl⟩ | ⟨q, answer, w, retries, rfl, hrunning, hhash, rfl⟩ :=
    fetchNote?_cases hnote
  · exact .of_begin hstep hrunning
  · have hbegun := h.holds.running q _ hrunning
    obtain rfl : q = .fetch := by cases q <;> first | rfl | exact hbegun.elim
    obtain ⟨r, -, rfl⟩ := Option.map_eq_some_iff.mp hstep
    exact .of_answer hr ha hdated hrunning hhash answer

end Turn

end Node

end ChainNode

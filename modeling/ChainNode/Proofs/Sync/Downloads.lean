import ChainNode.Proofs.Sync.Linked
import ChainNode.Proofs.Sync.OneTarget

/-!
# What a download brings

A download is followed from its first request to its end, whatever peers answer to it and whatever
else happens at the node in the meantime (`DownloadSession`). **Integrity**
(`DownloadSession.run_integrity`): it ends after at most as many answers as it may bring blocks, what
it enqueues to be attached is one chain of linked blocks, and of the targets it leaves at most one
behind, that of the last block, and none when it fails.
-/

namespace ChainNode

/-! ## A download and everything around it -/

/-- The block that waits to be attached. -/
def Work.toAttach? : Work → Option Block
  | attach a => some a.block
  | _ => none

/-- The blocks in an answer. -/
def BatchAnswer.blocks : BatchAnswer → List Block
  | .ok blocks => blocks
  | .error _ => []

/-- A download, the node that it is for, and what has come of it. -/
structure DownloadSession (χ : Type) where
  node : Node χ
  /-- The download as far as it has come, or why it failed. -/
  progress : Except SyncError Download
  /-- The requests with their answers, in order. -/
  exchanges : List (Request × BatchAnswer)
  /-- What was put at the end of the attach queue, in order. -/
  handed : List Work

namespace DownloadSession

variable {χ κ : Type}

/-- What happens to a download. -/
inductive Event (κ : Type)
  /-- A peer answers its request. -/
  | answer (answer : BatchAnswer)
  /-- Something else happens at the node. -/
  | meanwhile (e : Node.Event κ)

/-- A download that has not asked for anything yet. -/
def start (n : Node χ) (after : Tip) (batch cap : Nat) (peer : Option Peer) : DownloadSession χ where
  node := n
  progress := .ok (.start after batch cap peer)
  exchanges := []
  handed := []

/-- The request that waits for its answer. There is none once the download is over. -/
def request? (s : DownloadSession χ) : Option Request :=
  match s.progress with
  | .ok d => d.request?
  | .error _ => none

/-- Takes in the answer to a request. -/
def receive (s : DownloadSession χ) (d : Download) (r : Request) (answer : BatchAnswer) :
    DownloadSession χ :=
  let (progress, node) := s.node.receiveBatch d answer
  { node := node
    progress := progress
    exchanges := s.exchanges ++ [(r, answer)]
    handed := s.handed ++
      (node.pipeline.lane .attach).waiting.drop (s.node.pipeline.lane .attach).waiting.length }

/-- The blocks that were handed over to be attached. -/
def blocks (s : DownloadSession χ) : List Block := s.handed.filterMap Work.toAttach?

/-- The blocks that some answers brought. -/
def answered (exchanges : List (Request × BatchAnswer)) : List Block :=
  exchanges.flatMap fun x => x.2.blocks

@[simp] theorem answered_concat (past : List (Request × BatchAnswer)) (r : Request)
    (answer : BatchAnswer) : answered (past ++ [(r, answer)]) = answered past ++ answer.blocks := by
  simp [answered]

/-! ## What an answer does -/

variable {n : Node χ} {after : Tip} {cap : Nat} {s m : DownloadSession χ} {d : Download}

theorem receive_cases (s : DownloadSession χ) (d : Download) (r : Request) (answer : BatchAnswer) :
    (∃ e, Download.Fails d.last.hash answer e ∧
      s.receive d r answer = { s with
        node := s.node.withdrawTarget d.registered
        progress := .error e
        exchanges := s.exchanges ++ [(r, answer)] }) ∨
    (answer = .ok [] ∧
      s.receive d r answer = { s with
        progress := .ok { d with ended := true }
        exchanges := s.exchanges ++ [(r, answer)] }) ∨
    ∃ batch last, answer = .ok batch ∧ batch.getLast? = some last ∧ Linked d.last.hash batch ∧
      (s.receive d r answer).progress = .ok (d.extend batch last) ∧
      (s.receive d r answer).exchanges = s.exchanges ++ [(r, answer)] ∧
      (s.receive d r answer).blocks = s.blocks ++ batch ∧
      (s.receive d r answer).node.board =
        (s.node.registerTarget d.registered last.hash).board := by
  obtain ⟨e, hreceive, he⟩ | ⟨rfl, hreceive⟩ | ⟨batch, last, rfl, hlast, hlinked, hreceive⟩ :=
    d.receive_cases answer
  · refine .inl ⟨e, he, ?_⟩
    simp [receive, Node.receiveBatch, hreceive]
  · refine .inr (.inl ⟨rfl, ?_⟩)
    simp [receive, Node.receiveBatch, hreceive]
  · refine .inr (.inr ⟨batch, last, rfl, hlast, hlinked, ?_⟩)
    simp only [receive, Node.receiveBatch, hreceive, hlast, Node.board_enqueueBatch,
      DownloadSession.blocks, Node.waiting_enqueueBatch, Node.pipeline_registerTarget, if_true,
      Node.batchAttachment, List.drop_left, List.filterMap_append, List.filterMap_map,
      Function.comp_def, Work.toAttach?, List.filterMap_some, and_self]

/-! ## Where a download stands -/

/-- A download stands where the blocks that it has handed over lead. -/
structure Standing (after : Tip) (cap : Nat) (s : DownloadSession χ) (d : Download) : Prop where
  cap_eq : d.cap = cap
  linked : Linked after.hash s.blocks
  blocks : s.blocks = answered s.exchanges
  count : d.count = s.blocks.length
  last : d.last = reached after s.blocks
  registered : d.registered = s.blocks.getLast?.map Block.hash
  length_le : s.exchanges.length ≤ cap
  length_le_count : d.ended = false → s.exchanges.length ≤ d.count

/-- A download has failed at its last answer. All before it was handed over. -/
structure Failed (after : Tip) (cap : Nat) (s : DownloadSession χ) (e : SyncError) : Prop where
  linked : Linked after.hash s.blocks
  length_le : s.exchanges.length ≤ cap
  last : ∃ past r answer, s.exchanges = past ++ [(r, answer)] ∧ s.blocks = answered past ∧
    Download.Fails (endHash after.hash s.blocks) answer e

/-- A download stands well, or has failed. -/
def Sound (after : Tip) (cap : Nat) (s : DownloadSession χ) : Prop :=
  match s.progress with
  | .ok d => s.Standing after cap d
  | .error e => s.Failed after cap e

theorem Sound.standing (h : s.Sound after cap) (hd : s.progress = .ok d) : s.Standing after cap d := by
  rwa [Sound, hd] at h

theorem Sound.failed {e : SyncError} (h : s.Sound after cap) (he : s.progress = .error e) :
    s.Failed after cap e := by
  rwa [Sound, he] at h

theorem sound_start (n : Node χ) (after : Tip) (batch cap : Nat) (peer : Option Peer) :
    (start n after batch cap peer).Sound after cap where
  cap_eq := rfl
  linked := linked_nil _
  blocks := rfl
  count := rfl
  last := rfl
  registered := rfl
  length_le := Nat.zero_le _
  length_le_count _ := Nat.zero_le _

theorem Standing.last_hash (h : s.Standing after cap d) :
    d.last.hash = endHash after.hash s.blocks := by
  rw [h.last, hash_reached]

/-- While a request waits for its answer, the download has not ended, and fewer blocks have come than
may come. -/
theorem Standing.count_lt (h : s.Standing after cap d) (hr : d.request?.isSome) :
    d.ended = false ∧ d.count < cap := by
  have hover : ¬ (d.ended = true ∨ d.cap ≤ d.count) := by
    intro hover
    simp [Download.request?, hover] at hr
  rwa [not_or, Bool.not_eq_true, Nat.not_le, h.cap_eq] at hover

theorem Standing.length_lt (h : s.Standing after cap d) (hr : d.request?.isSome) :
    s.exchanges.length < cap := by
  obtain ⟨hended, hcount⟩ := h.count_lt hr
  exact Nat.lt_of_le_of_lt (h.length_le_count hended) hcount

/-- A batch that is linked to what came before is handed over. -/
theorem Standing.extend (h : s.Standing after cap d) (hr : d.request?.isSome) {r : Request}
    {batch : List Block} {last : Block} (hlast : batch.getLast? = some last)
    (hlinked : Linked d.last.hash batch) (hexchanges : m.exchanges = s.exchanges ++ [(r, .ok batch)])
    (hblocks : m.blocks = s.blocks ++ batch) : m.Standing after cap (d.extend batch last) where
  cap_eq := h.cap_eq
  linked := by
    rw [hblocks, linked_append, ← h.last_hash]
    exact ⟨h.linked, hlinked⟩
  blocks := by rw [hblocks, hexchanges, answered_concat, h.blocks, BatchAnswer.blocks]
  count := by rw [hblocks, List.length_append, Download.extend, h.count]
  last := by simp [hblocks, Download.extend, reached, hlast]
  registered := by simp [hblocks, Download.extend, hlast]
  length_le := by
    rw [hexchanges, List.length_append, List.length_singleton]
    exact h.length_lt hr
  length_le_count _ := by
    have hpos : 0 < batch.length := List.length_pos_of_mem (List.mem_of_getLast? hlast)
    have hle := h.length_le_count (h.count_lt hr).1
    rw [hexchanges, List.length_append, List.length_singleton]
    change s.exchanges.length + 1 ≤ d.count + batch.length
    omega

theorem Standing.receive (h : s.Standing after cap d) (hr : d.request?.isSome) (r : Request)
    (answer : BatchAnswer) : (s.receive d r answer).Sound after cap := by
  have hlength : (s.exchanges ++ [(r, answer)]).length ≤ cap := by
    rw [List.length_append, List.length_singleton]
    exact h.length_lt hr
  obtain ⟨e, he, hreceive⟩ | ⟨rfl, hreceive⟩ |
    ⟨batch, last, rfl, hlast, hlinked, hprogress, hexchanges, hblocks, -⟩ :=
    s.receive_cases d r answer
  · rw [hreceive]
    exact ⟨h.linked, hlength, s.exchanges, r, answer, rfl, h.blocks, h.last_hash ▸ he⟩
  · rw [hreceive]
    exact { h with
      blocks := by
        rw [answered_concat, BatchAnswer.blocks, List.append_nil]
        exact h.blocks
      length_le := hlength
      length_le_count := nofun }
  · rw [Sound, hprogress]
    exact h.extend hr hlast hlinked hexchanges hblocks

/-! ## What becomes of the targets -/

/-- The target that stands for the download. -/
def registered (s : DownloadSession χ) : Option Hash :=
  match s.progress with
  | .ok d => d.registered
  | .error _ => none

/-- The targets are those there were before, as far as they have been marked since, and the target of
the download. -/
def Tracked (n : Node χ) (s : DownloadSession χ) : Prop :=
  ∃ base : Targets, (∀ h, h ∈ base ↔ h ∈ n.board.targets) ∧
    base.Beside s.registered s.node.board.targets ∧
    ∀ h, s.registered = some h → h ∈ s.node.board.targets

theorem tracked_start (n : Node χ) (after : Tip) (batch cap : Nat) (peer : Option Peer) :
    (start n after batch cap peer).Tracked n :=
  ⟨n.board.targets, fun _ => Iff.rfl, Targets.beside_none _, nofun⟩

theorem Tracked.receive (ht : s.Tracked n) (hd : s.progress = .ok d) (h : s.Standing after cap d)
    {offered : Block → Prop} (hnew : ∀ b, offered b → b.hash ∉ n.board.targets)
    (hacyclic : ∀ hash, ¬ Relation.TransGen (Follows offered) hash hash) (r : Request)
    {answer : BatchAnswer} (hoffered : ∀ b ∈ answer.blocks, offered b) :
    (s.receive d r answer).Tracked n := by
  obtain ⟨base, hbase, hbeside, hmem⟩ := ht
  rw [registered, hd] at hbeside hmem
  refine ⟨base, hbase, ?_⟩
  obtain ⟨e, -, hreceive⟩ | ⟨rfl, hreceive⟩ |
    ⟨batch, last, rfl, hlast, hlinked, hprogress, -, -, hboard⟩ := s.receive_cases d r answer
  · rw [hreceive]
    dsimp only [registered]
    rw [Node.targets_withdrawTarget hbeside]
    exact ⟨Targets.beside_none base, nofun⟩
  · rw [hreceive]
    exact ⟨hbeside, hmem⟩
  · have hne : d.registered ≠ some last.hash := by
      intro hsame
      -- the batch descends from the block that has the target now
      obtain ⟨b, hb, hhash⟩ := Option.map_eq_some_iff.mp (h.registered.symm.trans hsame)
      have hend : d.last.hash = last.hash := by simp [h.last_hash, endHash, hb, hhash]
      have hdescends := hlinked.descends hoffered hlast
      rw [hend] at hdescends
      exact hacyclic last.hash hdescends
    have hfresh : last.hash ∉ base := by
      rw [hbase]
      exact hnew last (hoffered last (List.mem_of_getLast? hlast))
    rw [registered, hprogress, hboard]
    refine ⟨Node.beside_registerTarget hbeside hfresh, ?_⟩
    intro hash hhash
    exact Option.some.inj hhash ▸ Node.mem_registerTarget hne

/-! ## Runs -/

variable [ChainService χ] (act : κ → χ → χ)

/-- The download after an event, if the event can happen. The worker does nothing else meanwhile. -/
def step (s : DownloadSession χ) : Event κ → Option (DownloadSession χ)
  | .answer answer => match s.progress with
    | .ok d => d.request?.map fun r => s.receive d r answer
    | .error _ => none
  | .meanwhile e => if e.ofWorker then none else (s.node.step act e).map fun node => { s with node }

/-- The download after some events, if they can happen one after the other. -/
def run (s : DownloadSession χ) (events : List (Event κ)) : Option (DownloadSession χ) :=
  events.foldlM (step act) s

/-- Some events bring a block. -/
def Offered (events : List (Event κ)) (b : Block) : Prop :=
  ∃ answer, .answer answer ∈ events ∧ b ∈ BatchAnswer.blocks answer

section Run
variable {act : κ → χ → χ} {events : List (Event κ)}

/-- An answer is taken in, or something happens at the node that does no more to the targets than to
mark one. -/
theorem step_cases {e : Event κ} (h : step act s e = some m) :
    (∃ answer d r, e = .answer answer ∧ s.progress = .ok d ∧ d.request? = some r ∧
      m = s.receive d r answer) ∨
    ∃ node, m = { s with node := node } ∧ (node.board.targets = s.node.board.targets ∨
      ∃ hash, node.board.targets = (s.node.board.targets.mark hash true).2) := by
  cases e with
  | answer answer =>
    rw [step] at h
    split at h
    case h_1 d hd =>
      obtain ⟨r, hr, rfl⟩ := Option.map_eq_some_iff.mp h
      exact .inl ⟨answer, d, r, rfl, hd, hr, rfl⟩
    case h_2 => cases h
  | meanwhile e =>
    rw [step] at h
    split at h
    case isTrue => cases h
    case isFalse he =>
      obtain ⟨node, hnode, rfl⟩ := Option.map_eq_some_iff.mp h
      refine .inr ⟨node, rfl, ?_⟩
      obtain hsame | ⟨q, hash, -, hmark⟩ := Node.targets_meanwhile (by simpa using he) hnode
      · exact .inl hsame
      · exact .inr ⟨hash, hmark⟩

/-- What each event keeps, a run keeps. -/
theorem run_keeps {P : DownloadSession χ → Prop}
    (hstep : ∀ e ∈ events, ∀ s m, P s → step act s e = some m → P m) (h : P s)
    (hrun : run act s events = some m) : P m := by
  induction events generalizing s with
  | nil => exact Option.some.inj hrun ▸ h
  | cons e events ih =>
    obtain ⟨k, hk, hrest⟩ := Option.bind_eq_some_iff.mp hrun
    exact ih (fun e' he' => hstep e' (List.mem_cons_of_mem _ he'))
      (hstep e List.mem_cons_self s k h hk) hrest

theorem Sound.step (h : s.Sound after cap) {e : Event κ} (hstep : step act s e = some m) :
    m.Sound after cap := by
  obtain ⟨answer, d, r, rfl, hd, hr, rfl⟩ | ⟨node, rfl, -⟩ := step_cases hstep
  · exact (h.standing hd).receive (by rw [hr]; rfl) r answer
  · unfold Sound at h ⊢
    dsimp only
    split at h
    case h_1 => exact { h with }
    case h_2 => exact { h with }

theorem Tracked.step (ht : s.Tracked n) (h : s.Sound after cap) {offered : Block → Prop}
    (hnew : ∀ b, offered b → b.hash ∉ n.board.targets)
    (hacyclic : ∀ hash, ¬ Relation.TransGen (Follows offered) hash hash) {e : Event κ}
    (hoffered : ∀ answer, e = .answer answer → ∀ b ∈ BatchAnswer.blocks answer, offered b)
    (hstep : step act s e = some m) : m.Tracked n := by
  obtain ⟨answer, d, r, rfl, hd, hr, rfl⟩ | ⟨node, rfl, htargets⟩ := step_cases hstep
  · exact ht.receive hd (h.standing hd) hnew hacyclic r (hoffered answer rfl)
  · obtain ⟨base, hbase, hbeside, hmem⟩ := ht
    obtain hsame | ⟨hash, hmark⟩ := htargets
    · exact ⟨base, hbase, hsame ▸ hbeside, hsame ▸ hmem⟩
    · refine ⟨(base.mark hash true).2, ?_, hmark ▸ hbeside.mark hash true, ?_⟩
      · intro k
        rw [Targets.mem_mark, hbase]
      · intro k hk
        rw [hmark, Targets.mem_mark]
        exact hmem k hk

/-- Whatever happens, a download stands where the blocks lead that it has handed over. -/
theorem sound_run {batch : Nat} {peer : Option Peer}
    (hrun : run act (start n after batch cap peer) events = some s) : s.Sound after cap :=
  run_keeps (fun _ _ _ _ h hstep => h.step hstep) (sound_start n after batch cap peer) hrun

theorem tracked_run {batch : Nat} {peer : Option Peer}
    (hrun : run act (start n after batch cap peer) events = some s)
    (hnew : ∀ b, Offered events b → b.hash ∉ n.board.targets)
    (hacyclic : ∀ hash, ¬ Relation.TransGen (Follows (Offered events)) hash hash) : s.Tracked n := by
  have h : s.Sound after cap ∧ s.Tracked n := by
    refine run_keeps (P := fun s => s.Sound after cap ∧ s.Tracked n) ?_
      ⟨sound_start n after batch cap peer, tracked_start n after batch cap peer⟩ hrun
    rintro e he k k' ⟨hsound, htracked⟩ hstep
    refine ⟨hsound.step hstep, htracked.step hsound hnew hacyclic ?_ hstep⟩
    rintro answer rfl b hb
    exact ⟨answer, he, hb⟩
  exact h.2

/-- **Integrity.** Whatever peers answer to the requests of a download and whatever happens in the
meantime, at every moment fewer requests were answered than it may bring blocks, or it is over; and
what was handed over to be attached is linked from the block it started at. As long as it has not
failed, it has handed over all that was answered, it gives their number and the last of them, and only
the last of them has become a target. When it has failed, it has handed over all but the last answer,
which is the one that made it fail, and it has left no target. An answer that is not linked to what
came before does make it fail, by its first break. -/
theorem run_integrity (act : κ → χ → χ) (n : Node χ) (after : Tip) (batch cap : Nat)
    (peer : Option Peer) {events : List (Event κ)} {s : DownloadSession χ}
    (hrun : run act (start n after batch cap peer) events = some s)
    (hnew : ∀ b, Offered events b → b.hash ∉ n.board.targets)
    (hacyclic : ∀ hash, ¬ Relation.TransGen (Follows (Offered events)) hash hash) :
    s.exchanges.length ≤ cap ∧ (s.request?.isSome → s.exchanges.length < cap) ∧
    Linked after.hash s.blocks ∧
    (∀ d, s.progress = .ok d →
      s.blocks = answered s.exchanges ∧ d.count = s.blocks.length ∧
      d.last = reached after s.blocks ∧
      ∀ hash, hash ∈ s.node.board.targets ↔
        hash ∈ n.board.targets ∨ ∃ b, s.blocks.getLast? = some b ∧ b.hash = hash) ∧
    (∀ e, s.progress = .error e →
      (∃ past r answer, s.exchanges = past ++ [(r, answer)] ∧ s.blocks = answered past ∧
        Download.Fails (endHash after.hash s.blocks) answer e) ∧
      ∀ hash, hash ∈ s.node.board.targets ↔ hash ∈ n.board.targets) ∧
    ∀ past r blocks, s.exchanges = past ++ [(r, .ok blocks)] →
      ¬ Linked (endHash after.hash (answered past)) blocks →
      s.blocks = answered past ∧
      ∃ expected actual, FirstBreak (endHash after.hash (answered past)) blocks expected actual ∧
        s.progress = .error (.brokenSequence expected actual) := by
  have hsound := sound_run hrun
  obtain ⟨base, hbase, hbeside, hmem⟩ := tracked_run hrun hnew hacyclic
  cases hprogress : s.progress with
  | ok d =>
    have h := hsound.standing hprogress
    have hregistered : s.registered = s.blocks.getLast?.map Block.hash := by
      rw [registered, hprogress, ← h.registered]
    refine ⟨h.length_le, ?_, h.linked, ?_, nofun, ?_⟩
    · intro hr
      rw [request?, hprogress] at hr
      exact h.length_lt hr
    · intro d' hd'
      obtain rfl := Except.ok.inj hd'
      refine ⟨h.blocks, h.count, h.last, ?_⟩
      intro hash
      rw [hbeside.mem_iff hmem, hbase, hregistered, Option.map_eq_some_iff]
    · -- all that was answered is linked
      intro past r blocks hexchanges hbroken
      have hlinked := h.linked
      rw [h.blocks, hexchanges, answered_concat, linked_append] at hlinked
      exact absurd hlinked.2 hbroken
  | error e =>
    have h := hsound.failed hprogress
    have hregistered : s.registered = none := by rw [registered, hprogress]
    refine ⟨h.length_le, ?_, h.linked, nofun, ?_, ?_⟩
    · intro hr
      rw [request?, hprogress] at hr
      cases hr
    · intro e' he'
      obtain rfl := Except.error.inj he'
      refine ⟨h.last, ?_⟩
      intro hash
      rw [hregistered] at hbeside
      rw [hbeside.eq_base, hbase]
    · intro past r blocks hexchanges hbroken
      obtain ⟨past', r', answer, hexchanges', hblocks, hfails⟩ := h.last
      obtain ⟨rfl, hlast⟩ := List.append_inj' (hexchanges'.symm.trans hexchanges) rfl
      obtain ⟨rfl, rfl⟩ := Prod.mk.inj (List.singleton_inj.mp hlast)
      refine ⟨hblocks, ?_⟩
      rw [hblocks] at hfails
      cases hfails with
      | broken hbreak => exact ⟨_, _, hbreak, rfl⟩

/-- The second batch follows the first block instead of the one that came: the target of the first batch
is forgotten, and its block stays in the queue. -/
theorem run_integrity_broken :
    let genesis := Block.genesis 0
    let b := Block.make genesis.hash 2 0 []
    let c := Block.make genesis.hash 3 0 []
    let n := Node.new {} 0 (BlockTree.new genesis)
    let events : List (Event Empty) :=
      [.answer (.ok [b]), .meanwhile (.wait 5), .answer (.ok [c])]
    ∃ s, run Empty.elim (start n genesis.tip 1 2 none) events = some s ∧ s.blocks = [b] ∧
      s.progress = .error (.brokenSequence b.hash genesis.hash) ∧ Linked genesis.hash s.blocks ∧
      ∀ hash, hash ∈ s.node.board.targets ↔ hash ∈ n.board.targets := by
  intro genesis b c n events
  have hb : b.hash ≠ genesis.hash ∧ c.hash ≠ genesis.hash := by decide +kernel
  have hoffered : ∀ a, Offered events a → a.previous = genesis.hash ∧ a.hash ≠ genesis.hash := by
    rintro a ⟨answer, hmem, ha⟩
    have hanswer : answer = .ok [b] ∨ answer = .ok [c] := by simpa [events] using hmem
    rcases hanswer with rfl | rfl <;> rw [List.mem_singleton.mp ha]
    · exact ⟨rfl, hb.1⟩
    · exact ⟨rfl, hb.2⟩
  obtain ⟨s, hrun, hblocks, hprogress⟩ : ∃ s,
      run Empty.elim (start n genesis.tip 1 2 none) events = some s ∧ s.blocks = [b] ∧
        s.progress = .error (.brokenSequence b.hash genesis.hash) := by
    have h : ((run Empty.elim (start n genesis.tip 1 2 none) events).any fun s =>
        s.blocks = [b] ∧ s.progress = .error (.brokenSequence b.hash genesis.hash)) = true := by
      decide +kernel
    simpa [Option.any_eq_true] using h
  have hacyclic : ∀ hash, ¬ Relation.TransGen (Follows (Offered events)) hash hash := by
    intro hash hloop
    obtain ⟨_, ⟨a, ha, hchild, -⟩, -⟩ := Relation.TransGen.head'_iff.mp hloop
    obtain ⟨_, -, a', ha', -, hparent⟩ := Relation.TransGen.tail'_iff.mp hloop
    exact (hoffered a ha).2 (hchild.trans (hparent.symm.trans (hoffered a' ha').1))
  obtain ⟨-, -, hlinked, -, herror, -⟩ := run_integrity Empty.elim n genesis.tip 1 2 none hrun
    (fun a _ => by simp [n, Node.new, JobBoard.empty]) hacyclic
  exact ⟨s, hrun, hblocks, hprogress, hlinked, (herror _ hprogress).2⟩

end Run

end DownloadSession

end ChainNode

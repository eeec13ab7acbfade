import ChainNode.Proofs.Sync.JobBoard
import ChainNode.Proofs.Sync.Linked
import ChainNode.Proofs.Sync.Placement
import ChainNode.Proofs.Sync.Runs

/-!
# The targets of downloads

Between two calls of the worker the board is tidy: only its oldest job has started, and the one
target there is stands for the last block downloaded for it. While a download is in progress there
is a second target for its last batch; `JobBoard.Engaged` is what holds then. The two targets never
coincide, because the blocks of a download descend from the block it started at, and no block is its
own ancestor. So whichever way a download ends, each target goes with what it stands for.

The chain can answer anything at any time, and peers can answer anything but blocks of height zero.
-/

namespace ChainNode

variable {χ κ : Type} {offered : Block → Prop}

/-! ## A board with a download in progress -/

/-- A download is in progress for the oldest job; there is a target for the last block downloaded for
the job before, and one for the last block of this download. -/
structure JobBoard.Engaged (offered : Block → Prop) (b : JobBoard) (d : JobDownload) : Prop where
  inOrder : b.store.InOrder
  first : b.store.first? = some d.job
  mem_targets : ∀ h, h ∈ b.targets ↔
    d.job.started ∧ d.job.current.hash = h ∨ d.download.registered = some h
  origins : d.job.started → d.origins = []
  unregistered : d.download.registered = none →
    d.download.count = 0 ∧ (d.job.started → d.download.last = d.job.current)
  registered : ∀ p, d.download.registered = some p →
    d.download.count ≠ 0 ∧ d.download.last.hash = p ∧ d.download.last.height ≠ 0 ∧
      (d.job.started → Relation.TransGen (Follows offered) p d.job.current.hash)

/-- The board fits the call in progress. -/
def Node.OnTarget (offered : Block → Prop) (n : Node χ) : Prop :=
  match n.call with
  | some (.asking d) => n.board.Engaged offered d
  | _ => n.board.Tidy

namespace JobBoard

variable {b : JobBoard} {d : JobDownload}

/-- A job can come while a download is in progress. -/
theorem Engaged.of_add (h : b.Engaged offered d) {b' : JobBoard} {j : Job} (hj : j.started = false)
    (hstore : b'.store = (b.store.add j).2) (htargets : ∀ h, h ∈ b'.targets ↔ h ∈ b.targets) :
    b'.Engaged offered d :=
  { h with
    inOrder := hstore ▸ h.inOrder.add hj
    first := hstore ▸ h.inOrder.valid.first?_add h.first
    mem_targets := fun hash => (htargets hash).trans (h.mem_targets hash) }

/-- A download without a block has no target, so the board is tidy. -/
theorem Engaged.tidy_of_count (h : b.Engaged offered d) (hcount : d.download.count = 0) : b.Tidy := by
  have hnone : d.download.registered = none := by
    cases hr : d.download.registered with
    | none => rfl
    | some p => exact absurd hcount (h.registered p hr).1
  refine ⟨h.inOrder, ?_⟩
  intro hash
  rw [h.mem_targets, hnone, h.first]
  simp

/-- Where a download begins, the board is engaged with it. -/
theorem Tidy.engaged (h : b.Tidy) {j : Job} (hj : b.store.first? = some j) {origin : Tip}
    {origins : List Tip} (cap : Nat) (horigin : j.started → origin = j.current)
    (horigins : j.started → origins = []) :
    b.Engaged offered ⟨j, .start origin j.batch cap j.peer, origins⟩ where
  inOrder := h.inOrder
  first := hj
  mem_targets hash := by
    rw [h.mem_targets, hj]
    simp [Download.start]
  origins := horigins
  unregistered _ := ⟨rfl, horigin⟩
  registered p hp := by simp [Download.start] at hp

end JobBoard

namespace Node

variable {n : Node χ}

/-- A board fits a call as another one does if it has the same jobs, but for one that has come, and the
same targets. -/
theorem OnTarget.of_board (h : n.OnTarget offered) {m : Node χ} (hcall : m.call = n.call)
    (htargets : ∀ h, h ∈ m.board.targets ↔ h ∈ n.board.targets)
    (hstore : m.board.store = n.board.store ∨
      ∃ j : Job, j.started = false ∧ m.board.store = (n.board.store.add j).2) :
    m.OnTarget offered := by
  unfold OnTarget at h ⊢
  rw [hcall]
  split at h
  · obtain hsame | ⟨j, hj, hadd⟩ := hstore
    · exact { h with
        inOrder := hsame ▸ h.inOrder
        first := hsame ▸ h.first
        mem_targets := fun hash => (htargets hash).trans (h.mem_targets hash) }
    · exact h.of_add hj hadd htargets
  · obtain hsame | ⟨j, hj, hadd⟩ := hstore
    · refine ⟨hsame ▸ h.inOrder, ?_⟩
      intro hash
      rw [htargets, h.mem_targets, hsame]
    · exact h.of_add hj hadd htargets

theorem OnTarget.congr (h : n.OnTarget offered) {m : Node χ} (hcall : m.call = n.call)
    (hboard : m.board = n.board) : m.OnTarget offered :=
  h.of_board hcall (fun _ => by rw [hboard]) (.inl (by rw [hboard]))

/-- Whoever is told that a block is part of the chain does no more than mark a target. -/
theorem OnTarget.complete (h : n.OnTarget offered) (c : Option Completion) :
    (n.complete c).OnTarget offered := by
  match c with
  | none => exact h
  | some (.markTarget hash) => exact h.of_board rfl (fun _ => Targets.mem_mark) (.inl rfl)
  | some (.note label) => exact h.congr rfl rfl

/-! ## Outside of calls -/

section Outside
variable [ChainService χ]

theorem OnTarget.intake (h : n.OnTarget offered) {m : Node χ} (hm : Intake n m) :
    m.OnTarget offered := by
  cases hm with
  | job target batch peer =>
    exact h.of_board rfl (fun _ => by rw [enqueueJob, JobBoard.targets_enqueue])
      (JobBoard.store_enqueue _ target batch peer)
  | wait | post | announcements | fetch | attach | heads | lookUp => exact h.congr rfl rfl

theorem OnTarget.intakes (h : n.OnTarget offered) {m : Node χ} (hm : n.Intakes m) :
    m.OnTarget offered :=
  hm.keep (fun _ _ hab ha => ha.intake hab) h

theorem OnTarget.queueStep (h : n.OnTarget offered) {q : Queue} {m : Node χ}
    (hm : n.queueStep q = some m) : m.OnTarget offered := by
  obtain ⟨-, hcall, c, hboard⟩ := queueStep_frame hm
  exact (h.complete c).congr (hcall.trans (call_complete n c).symm) hboard

end Outside

/-! ## The steps of a call -/

/-- A download for the oldest job begins at one of its origins, or the job is taken off. -/
theorem onTarget_downloadFrom {j : Job} {origins : List Tip} (h : n.board.Tidy)
    (hj : n.board.store.first? = some j) (horigins : j.started → origins = [] ∨ origins = [j.current]) :
    (n.downloadFrom j origins).node.OnTarget offered := by
  induction origins with
  | nil => exact h.remove_first hj
  | cons origin rest ih =>
    have hrest : j.started → origin = j.current ∧ rest = [] := by
      intro hs
      obtain h' | h' := horigins hs
      · cases h'
      · exact List.cons.inj h'
    rw [downloadFrom]
    split
    · exact h.engaged hj _ (fun hs => (hrest hs).1) (fun hs => (hrest hs).2)
    · exact ih fun hs => .inl (hrest hs).2

theorem onTarget_lookForJob (h : n.board.Tidy) (heads : Heads) :
    (n.lookForJob heads).node.OnTarget offered := by
  obtain ⟨htidy, hfirst⟩ := h.pruneFirst heads.best.height (n.board.store.order.length + 1)
  rw [lookForJob]
  split <;> rename_i board hb <;> obtain rfl := congrArg Prod.snd hb
  · exact htidy
  · rename_i j
    have hj := hfirst j (congrArg Prod.fst hb)
    dsimp only
    split
    · exact htidy
    · split
      · exact htidy.remove_first hj
      · split
        · rename_i places hplaces
          refine onTarget_downloadFrom htidy hj fun hs => ?_
          obtain ⟨furthest, -, rfl⟩ := origins_of_started hs hplaces
          split
          · exact .inr rfl
          · exact .inl rfl
        · exact htidy

/-- A download that fails loses its target; the job keeps its own, or takes it along. -/
theorem onTarget_downloadFailed {d : JobDownload} (h : n.board.Engaged offered d)
    (hacyclic : ∀ hash, ¬ Relation.TransGen (Follows offered) hash hash) (e : SyncError) :
    ((n.withdrawTarget d.download.registered).downloadFailed d.job e).node.OnTarget offered := by
  have hstore : (n.withdrawTarget d.download.registered).board.store = n.board.store := by
    cases d.download.registered <;> rfl
  have htargets : ∀ hash, hash ∈ (n.withdrawTarget d.download.registered).board.targets ↔
      d.job.started ∧ d.job.current.hash = hash := by
    intro hash
    cases hp : d.download.registered with
    | none => simp [withdrawTarget, h.mem_targets, hp]
    | some p =>
      obtain ⟨_, _, _, hdescends⟩ := h.registered p hp
      simp only [withdrawTarget, targets_setTargets, Std.ExtTreeMap.mem_erase, h.mem_targets, hp,
        ne_eq, Std.LawfulEqOrd.compare_eq_iff_eq, Option.some.injEq]
      constructor
      · rintro ⟨hne, hs | he⟩
        · exact hs
        · exact absurd he hne
      · rintro ⟨hs, rfl⟩
        refine ⟨?_, .inl ⟨hs, rfl⟩⟩
        rintro rfl
        exact hacyclic _ (hdescends hs)
  rw [downloadFailed]
  split
  · refine ⟨hstore ▸ h.inOrder, ?_⟩
    intro hash
    change hash ∈ (n.withdrawTarget d.download.registered).board.targets ↔
      ∃ j, (n.withdrawTarget d.download.registered).board.store.first? = some j ∧
        j.started ∧ j.current.hash = hash
    rw [htargets, hstore, h.first]
    simp
  · exact JobBoard.tidy_remove_first (hstore ▸ h.inOrder) (hstore ▸ h.first) fun hash hmem =>
      (htargets hash).mp hmem

/-- A batch that comes has a target of its own, in place of that of the batch before. -/
theorem engaged_extend {d : JobDownload} (h : n.board.Engaged offered d)
    (hacyclic : ∀ hash, ¬ Relation.TransGen (Follows offered) hash hash)
    {blocks : List Block} {last : Block} (hlast : blocks.getLast? = some last)
    (hlinked : Linked d.download.last.hash blocks) (hoffered : ∀ b ∈ blocks, offered b)
    (hheight : ∀ b ∈ blocks, b.height ≠ 0) :
    (n.registerTarget d.download.registered last.hash).board.Engaged offered
      { d with download := d.download.extend blocks last } where
  inOrder := h.inOrder
  first := h.first
  mem_targets := by
    have hdescends := hlinked.descends hoffered hlast
    intro hash
    simp only [Download.extend, Option.some.injEq]
    cases hr : d.download.registered with
    | none =>
      simp only [registerTarget, targets_setTargets, Std.ExtTreeMap.mem_insert, h.mem_targets, hr,
        Std.LawfulEqOrd.compare_eq_iff_eq, reduceCtorEq, or_false]
      exact or_comm
    | some p =>
      obtain ⟨_, hp, _, hcurrent⟩ := h.registered p hr
      have hne : p ≠ last.hash := by
        rintro rfl
        exact hacyclic _ (hp ▸ hdescends)
      simp only [registerTarget, targets_setTargets, Std.ExtTreeMap.mem_insert,
        Std.ExtTreeMap.mem_erase, h.mem_targets, hr, Std.LawfulEqOrd.compare_eq_iff_eq,
        Option.some.injEq, ne_eq]
      constructor
      · rintro ⟨hnp, rfl | hs | rfl⟩
        · exact .inr rfl
        · exact .inl hs
        · exact absurd rfl hnp
      · rintro (⟨hs, rfl⟩ | rfl)
        · refine ⟨?_, .inr (.inl ⟨hs, rfl⟩)⟩
          rintro rfl
          exact hacyclic _ (hcurrent hs)
        · exact ⟨hne, .inl rfl⟩
  origins := h.origins
  unregistered hnone := by simp [Download.extend] at hnone
  registered p hp := by
    simp only [Download.extend, Option.some.injEq] at hp
    subst hp
    have hmem : last ∈ blocks := List.mem_of_getLast? hlast
    have hdescends := hlinked.descends hoffered hlast
    refine ⟨?_, rfl, hheight last hmem, ?_⟩
    · have := List.length_pos_of_mem hmem
      simp only [Download.extend]
      omega
    · intro hs
      cases hr : d.download.registered with
      | none => rwa [(h.unregistered hr).2 hs] at hdescends
      | some p =>
        obtain ⟨_, hp, _, hcurrent⟩ := h.registered p hr
        exact hdescends.trans (hp ▸ hcurrent hs)

/-- Once the job's old target is taken back, the download's is the only one; it is another one. -/
theorem targets_dropTarget {d : JobDownload} (h : n.board.Engaged offered d)
    (hacyclic : ∀ hash, ¬ Relation.TransGen (Follows offered) hash hash)
    (hcount : d.download.count ≠ 0) :
    (∀ hash, hash ∈ (n.dropTarget d.job).board.targets ↔ d.download.last.hash = hash) ∧
      d.download.last.height ≠ 0 ∧
      (d.job.started → d.download.last.hash ≠ d.job.current.hash) := by
  obtain ⟨p, hp⟩ : ∃ p, d.download.registered = some p := by
    cases hr : d.download.registered with
    | none => exact absurd (h.unregistered hr).1 hcount
    | some p => exact ⟨p, rfl⟩
  obtain ⟨_, rfl, hheight, hdescends⟩ := h.registered p hp
  have hne (hs : d.job.started) : d.download.last.hash ≠ d.job.current.hash := by
    intro he
    exact hacyclic _ (he ▸ hdescends hs)
  refine ⟨fun hash => ?_, hheight, hne⟩
  rw [dropTarget]
  split
  case isTrue hs =>
    simp only [targets_setTargets, Std.ExtTreeMap.mem_erase, h.mem_targets, hp, ne_eq,
      Std.LawfulEqOrd.compare_eq_iff_eq, Option.some.injEq]
    constructor
    · rintro ⟨hne, hs | he⟩
      · exact absurd hs.2 hne
      · exact he
    · rintro rfl
      exact ⟨(hne hs).symm, .inr rfl⟩
  case isFalse hs => simp [h.mem_targets, hp, hs]

/-- What a download brought becomes the job's, and with it the download's target. -/
theorem tidy_recordProgress {d : JobDownload} (h : n.board.Engaged offered d)
    (hacyclic : ∀ hash, ¬ Relation.TransGen (Follows offered) hash hash)
    (hcount : d.download.count ≠ 0) (hok : (n.recordProgress d.job d.download).1 = .ok ()) :
    (n.recordProgress d.job d.download).2.board.Tidy := by
  obtain ⟨htargets, hheight, -⟩ := targets_dropTarget h hacyclic hcount
  rw [recordProgress_eq] at hok ⊢
  split at hok
  case h_2 => cases hok
  case h_1 deadline _ =>
    have hstore (k : Job) :
        ((n.dropTarget d.job).updateJob k).board.store = (n.board.store.update k).2 := by
      rw [store_updateJob, store_dropTarget]
    obtain ⟨horder, hfirst⟩ := h.inOrder.update_first
      (k := advancedJob d.job d.download deadline) h.first rfl
    refine ⟨hstore _ ▸ horder, fun hash => (htargets hash).trans ?_⟩
    dsimp only
    rw [hstore, hfirst]
    simp [advancedJob, Job.started, hheight]

theorem onTarget_downloadOver {d : JobDownload} (h : n.board.Engaged offered d)
    (hacyclic : ∀ hash, ¬ Relation.TransGen (Follows offered) hash hash)
    (hwhole : ∀ p, (n.downloadOver d).ending? ≠ some (.panicked p)) :
    (n.downloadOver d).node.OnTarget offered := by
  rw [downloadOver] at hwhole ⊢
  split
  case isTrue hcount =>
    exact onTarget_downloadFrom (h.tidy_of_count hcount) h.first fun hs => .inl (h.origins hs)
  case isFalse hcount =>
    have htidy := tidy_recordProgress h hacyclic hcount
    rw [if_neg hcount] at hwhole
    split <;> rename_i m hm <;> rw [hm] at htidy hwhole
    · exact htidy rfl
    · exact absurd rfl (hwhole _)

/-- Whatever the answer is, the board fits the call after it, unless it breaks the call off. -/
theorem onTarget_answerCall (h : n.OnTarget offered)
    (hacyclic : ∀ hash, ¬ Relation.TransGen (Follows offered) hash hash) {answer : BatchAnswer}
    (hoffered : ∀ blocks, answer = .ok blocks → ∀ b ∈ blocks, offered b ∧ b.height ≠ 0)
    (hwhole : ∀ p, (n.answerCall answer).ending? ≠ some (.panicked p)) :
    (n.answerCall answer).node.OnTarget offered := by
  rw [answerCall] at hwhole ⊢
  split
  case h_2 => exact h
  case h_1 d hcall =>
    rw [OnTarget, hcall] at h
    simp only [hcall] at hwhole
    obtain ⟨e, hr⟩ | ⟨-, hr⟩ | ⟨blocks, last, hblocks, hlast, hlinked, hr⟩ :=
      n.receiveBatch_cases d.download answer <;> rw [hr] at hwhole ⊢
    · exact onTarget_downloadFailed h hacyclic e
    · exact onTarget_downloadOver (d := { d with download.ended := true }) { h with } hacyclic hwhole
    · have hext := engaged_extend h hacyclic hlast hlinked
        (fun b hb => (hoffered blocks hblocks b hb).1) (fun b hb => (hoffered blocks hblocks b hb).2)
      rw [← board_enqueueBatch _ blocks d.download.peer last.hash] at hext
      dsimp only at hwhole ⊢
      split
      · exact hext
      · rename_i hover
        rw [if_neg hover] at hwhole
        exact onTarget_downloadOver hext hacyclic hwhole

/-- A call that panics when a download is over keeps the target of the download, but not the job's; the
job stays as it was. -/
theorem downloadOver_of_panic {d : JobDownload} (h : n.board.Engaged offered d)
    (hacyclic : ∀ hash, ¬ Relation.TransGen (Follows offered) hash hash) {p : Panic}
    (hp : (n.downloadOver d).ending? = some (.panicked p)) :
    (∀ hash, hash ∈ (n.downloadOver d).node.board.targets ↔ d.download.last.hash = hash) ∧
      (n.downloadOver d).node.board.store = n.board.store ∧
      (d.job.started → d.download.last.hash ≠ d.job.current.hash) := by
  rw [downloadOver] at hp ⊢
  by_cases hcount : d.download.count = 0
  · rw [if_pos hcount, ending?_downloadFrom] at hp
    cases hp
  · obtain ⟨htargets, -, hne⟩ := targets_dropTarget h hacyclic hcount
    rw [if_neg hcount, recordProgress_eq] at hp ⊢
    cases hdeadline : n.batchDeadline d.download with
    | ok deadline =>
      rw [hdeadline] at hp
      cases hp
    | error p => exact ⟨htargets, store_dropTarget n d.job, hne⟩

/-- **A call that an answer breaks off leaves a target behind.** No job stands for it. -/
theorem target_left_of_panic (h : n.OnTarget offered)
    (hacyclic : ∀ hash, ¬ Relation.TransGen (Follows offered) hash hash) {answer : BatchAnswer}
    (hoffered : ∀ blocks, answer = .ok blocks → ∀ b ∈ blocks, offered b ∧ b.height ≠ 0) {p : Panic}
    (hp : (n.answerCall answer).ending? = some (.panicked p)) :
    ∃ left, (∀ hash, hash ∈ (n.answerCall answer).node.board.targets ↔ left = hash) ∧
      (n.answerCall answer).node.board.store = n.board.store ∧
      ∀ j, n.board.store.first? = some j → j.started → left ≠ j.current.hash := by
  rw [answerCall] at hp ⊢
  split at hp
  case h_2 => cases hp
  case h_1 d hcall =>
    rw [OnTarget, hcall] at h
    simp only at hp ⊢
    have hfirst {j : Job} (hj : n.board.store.first? = some j) : d.job = j :=
      Option.some.inj (h.first.symm.trans hj)
    obtain ⟨e, hr⟩ | ⟨-, hr⟩ | ⟨blocks, last, hblocks, hlast, hlinked, hr⟩ :=
      n.receiveBatch_cases d.download answer <;> rw [hr] at hp ⊢
    · dsimp only [downloadFailed] at hp
      split at hp <;> cases hp
    · obtain ⟨htargets, hstore, hne⟩ := downloadOver_of_panic (d := { d with download.ended := true })
        { h with } hacyclic hp
      exact ⟨_, htargets, hstore, fun j hj => hfirst hj ▸ hne⟩
    · have hext := engaged_extend h hacyclic hlast hlinked
        (fun b hb => (hoffered blocks hblocks b hb).1) (fun b hb => (hoffered blocks hblocks b hb).2)
      rw [← board_enqueueBatch _ blocks d.download.peer last.hash] at hext
      dsimp only at hp ⊢
      split at hp
      · cases hp
      · rename_i hover
        obtain ⟨htargets, hstore, hne⟩ := downloadOver_of_panic hext hacyclic hp
        rw [if_neg hover]
        refine ⟨_, htargets, hstore.trans ?_, fun j hj => hfirst hj ▸ hne⟩
        rw [board_enqueueBatch, store_registerTarget]

theorem onTarget_beginCall {m : Node χ} (h : n.OnTarget offered) (hm : n.beginCall = some m) :
    m.OnTarget offered := by
  rw [beginCall] at hm
  split at hm
  case isFalse => cases hm
  case isTrue hnone =>
    obtain rfl := Option.some.inj hm
    rw [OnTarget, Option.isNone_iff_eq_none.mp hnone] at h
    exact h

/-! ## Runs -/

/-- The panic with which the answer of a peer breaks the worker's call off, if it does. -/
def breaks? (n : Node χ) : Event κ → Option Panic
  | .answerCall answer => match (n.answerCall answer).ending? with
    | some (.panicked p) => some p
    | _ => none
  | _ => none

/-- A call is not broken off where what was downloaded gives a deadline. -/
theorem ending?_downloadOver_ne {d : JobDownload} {deadline : Instant}
    (h : n.batchDeadline d.download = .ok deadline) (p : Panic) :
    (n.downloadOver d).ending? ≠ some (.panicked p) := by
  rw [downloadOver]
  split
  · rw [ending?_downloadFrom]
    exact (Option.some_ne_none _).symm
  · rw [recordProgress_eq, h]
    intro hp
    cases hp

theorem breaks?_eq_none (h : ∀ d : Download, ∃ deadline, n.batchDeadline d = .ok deadline)
    (e : Event κ) : n.breaks? e = none := by
  rw [breaks?.eq_def]
  split
  case h_2 => rfl
  case h_1 answer =>
    split
    case h_2 => rfl
    case h_1 p hp =>
      exfalso
      rw [answerCall] at hp
      split at hp
      case h_2 => cases hp
      case h_1 d _ =>
        obtain ⟨e, hr⟩ | ⟨-, hr⟩ | ⟨blocks, last, -, -, -, hr⟩ :=
          n.receiveBatch_cases d.download answer <;> rw [hr] at hp
        · dsimp only [downloadFailed] at hp
          split at hp <;> cases hp
        · obtain ⟨deadline, hdeadline⟩ := h { d.download with ended := true }
          exact ending?_downloadOver_ne hdeadline p hp
        · dsimp only at hp
          split at hp
          · cases hp
          · obtain ⟨deadline, hdeadline⟩ := h (d.download.extend blocks last)
            rw [← batchDeadline_registerTarget, ← batchDeadline_enqueueBatch] at hdeadline
            exact ending?_downloadOver_ne hdeadline p hp

variable [ChainService χ]

/-- No answer of a peer breaks the worker's call off in the course of a run. -/
def unbroken (act : κ → χ → χ) : Node χ → List (Event κ) → Bool
  | _, [] => true
  | n, e :: rest => (n.breaks? e).isNone && match step act n e with
    | none => true
    | some m => unbroken act m rest

variable {act : κ → χ → χ}

/-- No call is broken off as long as each number of blocks gives a deadline that is an instant. -/
theorem unbroken_of_deadlines {latest : Instant}
    (hdeadlines : ∀ count < UInt32.size, ∃ span, n.settings.perBlock.times count = .ok span ∧
      latest.after span ≤ Instant.last) {events : List (Event κ)}
    (htimes : ∀ past m, past <+: events → run act n past = some m → m.now ≤ latest) :
    unbroken act n events := by
  induction events generalizing n with
  | nil => rfl
  | cons e rest ih =>
    have hnow : n.now ≤ latest := htimes [] n List.nil_prefix rfl
    rw [unbroken, Bool.and_eq_true, Option.isNone_iff_eq_none]
    constructor
    · refine breaks?_eq_none (fun d => ?_) e
      obtain ⟨span, hspan, hlast⟩ := hdeadlines _ (Nat.mod_lt d.count (by decide))
      exact exists_batchDeadline hnow hspan hlast
    · split
      case h_1 => rfl
      case h_2 m hm =>
        refine ih (settings_step hm ▸ hdeadlines) fun past k hpast hk => ?_
        refine htimes (e :: past) k (List.cons_prefix_cons.mpr ⟨rfl, hpast⟩) ?_
        rwa [run_cons, hm, Option.bind_some]

theorem onTarget_callStep {t : CallTurn χ} (h : n.OnTarget offered) (ht : n.callStep = some t) :
    t.node.OnTarget offered := by
  rw [callStep] at ht
  split at ht
  case h_1 hcall =>
    rw [OnTarget, hcall] at h
    obtain rfl := Option.some.inj ht
    rw [beginRound]
    split <;> rename_i m hm <;> obtain rfl := congrArg Prod.snd hm <;> exact h
  case h_2 heads hcall =>
    rw [OnTarget, hcall] at h
    obtain rfl := Option.some.inj ht
    exact onTarget_lookForJob h heads
  case h_3 => cases ht

theorem onTarget_step (h : n.OnTarget offered)
    (hacyclic : ∀ hash, ¬ Relation.TransGen (Follows offered) hash hash) {e : Event κ}
    (hoffered : ∀ b ∈ e.downloaded, offered b ∧ b.height ≠ 0) (hwhole : n.breaks? e = none)
    {m : Node χ} (hstep : step act n e = some m) : m.OnTarget offered := by
  cases happens_of_step hstep with
  | intake _ hm => exact h.intakes hm
  | fetched _ hk => exact (h.intakes hk).congr rfl rfl
  | queue hm => exact h.queueStep hm
  | call hm => exact onTarget_beginCall h hm
  | callStep ht => exact onTarget_callStep h ht
  | answerCall answer =>
    refine onTarget_answerCall h hacyclic ?_ fun p hp => ?_
    · rintro blocks rfl
      exact hoffered
    · rw [breaks?, hp] at hwhole
      cases hwhole
  | chain change => exact h.congr rfl rfl

theorem onTarget_run (h : n.OnTarget offered)
    (hacyclic : ∀ hash, ¬ Relation.TransGen (Follows offered) hash hash) {events : List (Event κ)}
    (hoffered : ∀ e ∈ events, ∀ b ∈ e.downloaded, offered b ∧ b.height ≠ 0)
    (hwhole : unbroken act n events) {m : Node χ} (hrun : run act n events = some m) :
    m.OnTarget offered := by
  induction events generalizing n with
  | nil => exact Option.some.inj hrun ▸ h
  | cons e rest ih =>
    rw [run_cons] at hrun
    obtain ⟨k, hk, hrest⟩ := Option.bind_eq_some_iff.mp hrun
    rw [unbroken, hk, Bool.and_eq_true, Option.isNone_iff_eq_none] at hwhole
    refine ih ?_ (fun e' he' => hoffered e' (List.mem_cons_of_mem _ he')) hwhole.2 hrest
    exact onTarget_step h hacyclic (hoffered e List.mem_cons_self) hwhole.1 hk

/-- Whatever happens to a node, whatever its chain and its peers answer: while the worker is not
called, no job but the oldest has started, and the only download target is that of its last block.
The blocks that peers answer with have heights other than zero, none of them is its own ancestor, and
none makes a deadline that is no instant. -/
theorem run_targets (act : κ → χ → χ) (settings : SyncSettings) (now : Instant) (chain : χ)
    (events : List (Event κ)) {n : Node χ} (hrun : run act (new settings now chain) events = some n)
    (hheights : ∀ e ∈ events, ∀ b ∈ e.downloaded, b.height ≠ 0)
    (hacyclic : ∀ hash, ¬ Relation.TransGen
      (Follows fun b => ∃ e ∈ events, b ∈ e.downloaded) hash hash)
    (hwhole : unbroken act (new settings now chain) events) (hcall : n.call = none) :
    (∀ (id : Hash) (j : Job), n.board.store.jobs[id]? = some j → j.started →
        n.board.store.first? = some j) ∧
      ∀ hash, hash ∈ n.board.targets ↔
        ∃ j, n.board.store.first? = some j ∧ j.started ∧ j.current.hash = hash := by
  have h : n.OnTarget fun b => ∃ e ∈ events, b ∈ e.downloaded := by
    have hnew : (new settings now chain).OnTarget fun b => ∃ e ∈ events, b ∈ e.downloaded :=
      JobBoard.tidy_empty settings.maxJobs settings.jobTimeout
    exact onTarget_run hnew hacyclic (fun e he b hb => ⟨⟨e, he, hb⟩, hheights e he b hb⟩) hwhole hrun
  rw [OnTarget, hcall] at h
  exact ⟨fun id j hj hs => h.inOrder.first?_of_started hj hs, h.mem_targets⟩

/-- One block that does not follow itself is not its own ancestor. -/
theorem acyclic_of_eq {events : List (Event κ)} {b : Block} (hb : b.hash ≠ b.previous)
    (hevents : ∀ e ∈ events, ∀ c ∈ e.downloaded, c = b) (hash : Hash) :
    ¬ Relation.TransGen (Follows fun b => ∃ e ∈ events, b ∈ e.downloaded) hash hash := by
  intro hloop
  obtain ⟨_, ⟨c, ⟨e, he, hc⟩, hchild, -⟩, -⟩ := Relation.TransGen.head'_iff.mp hloop
  obtain ⟨_, -, c', ⟨e', he', hc'⟩, -, hparent⟩ := Relation.TransGen.tail'_iff.mp hloop
  rw [hevents e he c hc] at hchild
  rw [hevents e' he' c' hc'] at hparent
  exact hb (hchild.trans hparent.symm)

/-- A job downloads the one block above the first one; its target is the only one. -/
theorem run_targets_oneBlock :
    let b := Block.make (Block.genesis 0).hash 2 0 []
    let start := new { downloadCap := 1 } 0 (BlockTree.new (.genesis 0))
    let events : List (Event Empty) :=
      [.enqueueJob b.tip 1 none, .call, .callStep, .callStep, .answerCall (.ok [b])]
    ∃ n, run Empty.elim start events = some n ∧ b.hash ∈ n.board.targets ∧
      (∀ (id : Hash) (j : Job), n.board.store.jobs[id]? = some j → j.started →
        n.board.store.first? = some j) ∧
      ∀ hash, hash ∈ n.board.targets ↔
        ∃ j, n.board.store.first? = some j ∧ j.started ∧ j.current.hash = hash := by
  intro b start events
  have hb : b.hash ≠ b.previous := by decide +kernel
  have hevents : ∀ e ∈ events, ∀ c ∈ e.downloaded, c = b := by simp [events, Event.downloaded]
  obtain ⟨n, hrun, hcall, hmem⟩ : ∃ n, run Empty.elim start events = some n ∧ n.call = none ∧
      b.hash ∈ n.board.targets := by
    have h : ((run Empty.elim start events).any fun n =>
        n.call = none ∧ b.hash ∈ n.board.targets) = true := by decide +kernel
    simpa [Option.any_eq_true] using h
  refine ⟨n, hrun, hmem,
    run_targets _ _ _ _ events hrun ?_ (acyclic_of_eq hb hevents) (by decide +kernel) hcall⟩
  intro e he c hc
  rw [hevents e he c hc]
  decide

/-- The same block downloaded where each block is given the longest time there is: the deadline is no
instant, the call is broken off, and a target is left that no job stands for. -/
theorem not_run_targets_forever :
    let b := Block.make (Block.genesis 0).hash 2 0 []
    let settings : SyncSettings := { downloadCap := 1, perBlock := ⟨18446744073709551615000⟩ }
    let events : List (Event Empty) :=
      [.enqueueJob b.tip 1 none, .call, .callStep, .callStep, .answerCall (.ok [b])]
    (∀ e ∈ events, ∀ c ∈ e.downloaded, c.height ≠ 0) ∧
      (∀ hash, ¬ Relation.TransGen
        (Follows fun b => ∃ e ∈ events, b ∈ e.downloaded) hash hash) ∧
      ∃ n, run Empty.elim (new settings 0 (BlockTree.new (.genesis 0))) events = some n ∧
        n.call = none ∧ b.hash ∈ n.board.targets ∧
        ¬ ∃ j, n.board.store.first? = some j ∧ j.started ∧ j.current.hash = b.hash := by
  intro b settings events
  have hb : b.hash ≠ b.previous := by decide +kernel
  have hevents : ∀ e ∈ events, ∀ c ∈ e.downloaded, c = b := by simp [events, Event.downloaded]
  refine ⟨fun e he c hc => ?_, acyclic_of_eq hb hevents, ?_⟩
  · rw [hevents e he c hc]
    decide
  · have h : ((run Empty.elim (new settings 0 (BlockTree.new (.genesis 0))) events).any fun n =>
        n.call = none ∧ b.hash ∈ n.board.targets ∧
          n.board.store.first?.all fun j => !j.started) = true := by decide +kernel
    obtain ⟨n, hrun, hcall, hmem, hfresh⟩ := by simpa [Option.any_eq_true] using h
    refine ⟨n, hrun, hcall, hmem, ?_⟩
    rintro ⟨j, hj, hs, -⟩
    simp [hj, hs] at hfresh

end Node

end ChainNode

import ChainNode.Proofs.Sync.Linked
import ChainNode.Proofs.Sync.OneTarget

/-!
# The steps of a call, at the front of the store

A call of the worker works on the oldest jobs. Whatever is stored, a step at which it looks for a job
takes the covered jobs in front off the board, and goes on with the first of the others, if at all
(`Node.LookTurn`); and an answer to a download leaves all jobs but the one that is downloaded as they
are (`Node.AnswerTurn`).
-/

namespace ChainNode

/-- What operations make of a store, from one without jobs. -/
inductive JobStore.Reachable : JobStore → Prop
  | empty (capacity : Nat) : Reachable (.empty capacity)
  | add {s : JobStore} (h : s.Reachable) (j : Job) : Reachable (s.add j).2
  | update {s : JobStore} (h : s.Reachable) (j : Job) : Reachable (s.update j).2
  | remove {s : JobStore} (h : s.Reachable) (id : Hash) : Reachable (s.remove id).2

theorem JobStore.Reachable.valid {s : JobStore} (h : s.Reachable) : s.Valid := by
  induction h with
  | empty capacity => exact valid_empty capacity
  | add _ j ih => exact ih.add j
  | update _ j ih => exact ih.update j
  | remove _ id ih => exact ih.remove id

/-- The best chain reaches as high as the target of a job. -/
def Job.covered (heads : Heads) (j : Job) : Bool := j.target.height ≤ heads.best.height

/-- A job becomes another one that differs in no more than how far it has come. -/
def Job.Advanced (j k : Job) : Prop :=
  ∃ current deadline finished, k = { j with current, deadline, finished }

/-- The targets without those of what was last downloaded for some jobs. -/
def Targets.without (ts : Targets) (jobs : List Job) : Targets :=
  (jobs.filter Job.started).foldl (fun ts j => ts.erase j.current.hash) ts

namespace JobBoard

variable {b : JobBoard} {heads : Heads}

/-! ## The search for a job -/

/-- The search for a job, round by round: what it finds, and the board it leaves. -/
inductive Prunes (heads : Heads) : JobBoard → Option Job × JobBoard → Prop
  /-- There is no job. -/
  | done {b : JobBoard} (hfirst : b.store.first? = none) : Prunes heads b (none, b)
  /-- The oldest job is not covered. -/
  | found {b : JobBoard} {j : Job} (hfirst : b.store.first? = some j)
    (hj : j.covered heads = false) : Prunes heads b (some j, b)
  /-- The oldest job is covered: it is taken off, and the search starts over. -/
  | again {b : JobBoard} {j : Job} {r : Option Job × JobBoard} (hfirst : b.store.first? = some j)
    (hj : j.covered heads = true) (hrest : Prunes heads (b.remove j.id).2 r) : Prunes heads b r

/-- There is one way for the search to go. -/
theorem Prunes.unique {r r' : Option Job × JobBoard} (h : b.Prunes heads r)
    (h' : b.Prunes heads r') : r = r' := by
  induction h with
  | done hfirst =>
    cases h' with
    | done => rfl
    | found hfirst' | again hfirst' => cases hfirst.symm.trans hfirst'
  | found hfirst hj =>
    cases h' with
    | done hfirst' => cases hfirst.symm.trans hfirst'
    | found hfirst' =>
      cases hfirst.symm.trans hfirst'
      rfl
    | again hfirst' hj' =>
      cases hfirst.symm.trans hfirst'
      rw [hj] at hj'
      cases hj'
  | again hfirst hj _ ih =>
    cases h' with
    | done hfirst' => cases hfirst.symm.trans hfirst'
    | found hfirst' hj' =>
      cases hfirst.symm.trans hfirst'
      rw [hj] at hj'
      cases hj'
    | again hfirst' _ hrest' =>
      cases hfirst.symm.trans hfirst'
      exact ih hrest'

/-- The search ends before it has taken off more jobs than there are. -/
theorem prunes_pruneFirst (hv : b.store.Valid) {fuel : Nat}
    (hfuel : b.store.toList.length < fuel) :
    b.Prunes heads (b.pruneFirst heads.best.height fuel) := by
  induction fuel generalizing b with
  | zero => omega
  | succ fuel ih =>
    rw [pruneFirst]
    cases hfirst : b.store.first? with
    | none => exact .done hfirst
    | some j =>
      dsimp only
      by_cases hlt : heads.best.height < j.target.height
      · rw [if_pos hlt]
        exact .found hfirst (by simpa [Job.covered] using hlt)
      · rw [if_neg hlt]
        have hrest := hv.toList_remove_first hfirst
        rw [← store_remove] at hrest
        have hlength : (b.remove j.id).2.store.toList.length < fuel := by
          rw [hv.toList_eq_cons hfirst, List.length_cons] at hfuel
          rw [hrest]
          omega
        exact .again hfirst (by simpa [Job.covered] using hlt)
          (ih (store_remove (b := b) j.id ▸ hv.remove j.id) hlength)

theorem prunes_firstWaiting (hv : b.store.Valid) (heads : Heads) :
    b.Prunes heads (b.firstWaiting heads) := by
  have hlength : b.store.toList.length = b.store.order.length := by
    rw [← hv.map_id_toList, List.length_map]
  exact prunes_pruneFirst hv (by omega)

/-- The search drops the covered jobs in front with their targets, and finds the first of the
others. -/
theorem Prunes.leaves {r : Option Job × JobBoard} (h : b.Prunes heads r) (hv : b.store.Valid) :
    r.2.store.Valid ∧ r.2.store.toList = b.store.toList.dropWhile (Job.covered heads) ∧
      r.1 = r.2.store.first? ∧
      r.2.targets = b.targets.without (b.store.toList.takeWhile (Job.covered heads)) := by
  induction h with
  | done hfirst =>
    rename_i b
    have hnil : b.store.toList = [] := by rwa [hv.first?_eq, List.head?_eq_none_iff] at hfirst
    exact ⟨hv, by rw [hnil, List.dropWhile_nil], hfirst.symm, by rw [hnil]; rfl⟩
  | found hfirst hj =>
    have hneg := Bool.not_eq_true _ ▸ hj
    rw [hv.toList_eq_cons hfirst, List.dropWhile_cons_of_neg hneg, List.takeWhile_cons_of_neg hneg]
    exact ⟨hv, rfl, hfirst.symm, rfl⟩
  | again hfirst hj _ ih =>
    rename_i b j _ _
    have hrest := hv.toList_remove_first hfirst
    rw [← store_remove] at hrest
    obtain ⟨hv', hlist, hfound, htargets⟩ := ih (store_remove (b := b) j.id ▸ hv.remove j.id)
    rw [hrest] at hlist htargets
    rw [hv.toList_eq_cons hfirst, List.dropWhile_cons_of_pos hj, List.takeWhile_cons_of_pos hj]
    refine ⟨hv', hlist, hfound, ?_⟩
    rw [htargets, targets_remove_first hv hfirst, Targets.without, Targets.without,
      List.filter_cons]
    cases j.started <;> rfl

/-- The search changes neither how many jobs there may be nor how long they have. -/
theorem Prunes.frame {r : Option Job × JobBoard} (h : b.Prunes heads r) :
    r.2.store.capacity = b.store.capacity ∧ r.2.timeout = b.timeout := by
  induction h with
  | done => exact ⟨rfl, rfl⟩
  | found => exact ⟨rfl, rfl⟩
  | again _ _ _ ih =>
    obtain ⟨hcapacity, htimeout⟩ := ih
    exact ⟨by rw [hcapacity, capacity_remove], by rw [htimeout, timeout_remove]⟩

/-- The covered jobs in front are taken off the board, and the first of the others is found. -/
theorem firstWaiting_eq (hv : b.store.Valid) (heads : Heads) :
    (b.firstWaiting heads).2.store.Valid ∧
    (b.firstWaiting heads).2.store.toList = b.store.toList.dropWhile (Job.covered heads) ∧
    (b.firstWaiting heads).1 = (b.firstWaiting heads).2.store.first? := by
  obtain ⟨hv', hlist, hfirst, _⟩ := (prunes_firstWaiting hv heads).leaves hv
  exact ⟨hv', hlist, hfirst⟩

end JobBoard

namespace Node

variable {χ : Type} {n m : Node χ} {d : JobDownload}

/-- The jobs, the oldest first. -/
def jobs (n : Node χ) : List Job := n.board.store.toList

theorem advanced_advancedJob (j : Job) (d : Download) (deadline : Instant) :
    j.Advanced (advancedJob j d deadline) := ⟨_, _, _, rfl⟩

/-- There are three origins at most. -/
theorem length_origins_le {heads : Heads} {j : Job} {places : List Tip}
    (h : n.origins heads j = .ok places) : places.length ≤ 3 := by
  by_cases hs : j.started
  · obtain ⟨furthest, -, rfl⟩ := origins_of_started hs h
    split <;> simp
  · rw [origins, if_neg hs] at h
    obtain rfl := Except.ok.inj h
    rw [freshOrigins]
    repeat' split
    all_goals simp

theorem downloadFrom_cases (n : Node χ) (j : Job) (origins : List Tip) :
    (∃ origin rest, rest.length < origins.length ∧
      (Download.start origin j.batch n.settings.downloadCap j.peer).request?.isSome ∧
      n.downloadFrom j origins = .next { n with
        call := some (.asking ⟨j, .start origin j.batch n.settings.downloadCap j.peer, rest⟩) }) ∨
    n.downloadFrom j origins = (n.removeJob j.id).nextRound := by
  induction origins with
  | nil => exact .inr rfl
  | cons origin rest ih =>
    rw [downloadFrom]
    split
    case isTrue hpending => exact .inl ⟨origin, rest, by simp, hpending, rfl⟩
    case isFalse =>
      obtain ⟨origin', rest', hlt, hpending, heq⟩ | heq := ih
      · exact .inl ⟨origin', rest', Nat.lt_succ_of_lt hlt, hpending, heq⟩
      · exact .inr heq

/-! ## Looking for a job -/

/-- What becomes of a call that looks for a job. -/
inductive LookTurn (n : Node χ) (heads : Heads) : CallTurn χ → Prop
  /-- There is no job but covered ones, or the first of the others has to wait. -/
  | wait {m : Node χ} (hcall : m.call = none)
    (hjobs : m.jobs = n.jobs.dropWhile (Job.covered heads)) :
    LookTurn n heads (.ended (.returned (.ok ())) m)
  /-- How far the download may be ahead is no machine number. -/
  | broken {m : Node χ} (p : Panic) (hcall : m.call = none)
    (hjobs : m.jobs = n.jobs.dropWhile (Job.covered heads)) :
    LookTurn n heads (.ended (.panicked p) m)
  /-- The first of the others is finished, or there is nowhere to start. -/
  | drop {m : Node χ} (j : Job) (hcall : m.call = some .round)
    (hjobs : n.jobs.dropWhile (Job.covered heads) = j :: m.jobs) : LookTurn n heads (.next m)
  /-- The first of the others is downloaded. -/
  | begins {m : Node χ} (j : Job) (origin : Tip) (rest : List Tip) (hrest : rest.length ≤ 2)
    (hpending : (Download.start origin j.batch n.settings.downloadCap j.peer).request?.isSome)
    (hcall : m.call =
      some (.asking ⟨j, .start origin j.batch n.settings.downloadCap j.peer, rest⟩))
    (hfirst : m.board.store.first? = some j)
    (hjobs : m.jobs = n.jobs.dropWhile (Job.covered heads)) : LookTurn n heads (.next m)

theorem lookTurn (hv : n.board.store.Valid) (heads : Heads) :
    n.LookTurn heads (n.lookForJob heads) := by
  obtain ⟨hv', hlist, hfirst⟩ := JobBoard.firstWaiting_eq hv heads
  rw [lookForJob]
  split <;> rename_i board hb <;> obtain rfl := congrArg Prod.snd hb
  · exact .wait rfl hlist
  · rename_i j
    have hj : (n.board.firstWaiting heads).2.store.first? = some j :=
      hfirst.symm.trans (congrArg Prod.fst hb)
    have hrest : ∀ k : Node χ, k.board = ((n.board.firstWaiting heads).2.remove j.id).2 →
        n.jobs.dropWhile (Job.covered heads) = j :: k.jobs := by
      intro k hk
      have htail := hv'.toList_remove_first hj
      rw [← JobBoard.store_remove, ← hk] at htail
      rw [jobs, ← hlist, jobs, htail]
      exact hv'.toList_eq_cons hj
    dsimp only
    split
    · exact .wait rfl hlist
    · split
      · exact .drop j rfl (hrest _ rfl)
      · split
        · rename_i places hplaces
          obtain ⟨origin, rest, hlt, hpending, heq⟩ | heq :=
            downloadFrom_cases { n with board := (n.board.firstWaiting heads).2 } j places
          · have hle := length_origins_le hplaces
            rw [heq]
            exact .begins j origin rest (by omega) hpending rfl hj hlist
          · rw [heq]
            exact .drop j rfl (hrest _ rfl)
        · exact .broken _ rfl hlist

/-! ## Answers -/

/-- The call waits for an answer to a download for the oldest job. -/
structure Asks (n : Node χ) (d : JobDownload) : Prop where
  call : n.call = some (.asking d)
  first : n.board.store.first? = some d.job
  cap_eq : d.download.cap = n.settings.downloadCap
  pending : d.download.request?.isSome
  unregistered : d.download.count = 0 → d.download.registered = none
  origins_le : d.origins.length ≤ 2

/-- What becomes of a call that gets an answer. -/
inductive AnswerTurn (n : Node χ) (d : JobDownload) : BatchAnswer → CallTurn χ → Prop
  /-- The download goes on. -/
  | next {batch : List Block} {m : Node χ} (last : Block) (hlast : batch.getLast? = some last)
    (hpending : (d.download.extend batch last).request?.isSome)
    (hcall : m.call = some (.asking { d with download := d.download.extend batch last }))
    (hboard : m.board = (n.registerTarget d.download.registered last.hash).board) :
    AnswerTurn n d (.ok batch) (.next m)
  /-- Nothing came from one origin, and the next one is tried. -/
  | retarget {m : Node χ} (origin : Tip) (rest : List Tip) (hcount : d.download.count = 0)
    (hlt : rest.length < d.origins.length)
    (hpending :
      (Download.start origin d.job.batch n.settings.downloadCap d.job.peer).request?.isSome)
    (hcall : m.call =
      some (.asking ⟨d.job, .start origin d.job.batch n.settings.downloadCap d.job.peer, rest⟩))
    (hboard : m.board = n.board) : AnswerTurn n d (.ok []) (.next m)
  /-- Nothing came at all. -/
  | barren {m : Node χ} (hcall : m.call = some .round)
    (hstore : m.board.store = (n.board.store.remove d.job.id).2) :
    AnswerTurn n d (.ok []) (.next m)
  /-- The job has been brought further. -/
  | advance {batch : List Block} {m : Node χ} (k : Job) (hk : d.job.Advanced k) (hcall : m.call = none)
    (hstore : m.board.store = (n.board.store.update k).2) :
    AnswerTurn n d (.ok batch) (.ended (.returned (.ok ())) m)
  /-- The job's next deadline is no instant. -/
  | broken {batch : List Block} {m : Node χ} (p : Panic) (hcall : m.call = none)
    (hstore : m.board.store = n.board.store) : AnswerTurn n d (.ok batch) (.ended (.panicked p) m)
  /-- The download has failed, which may pass. -/
  | spare {answer : BatchAnswer} {m : Node χ} (hcall : m.call = none)
    (hstore : m.board.store = n.board.store) :
    AnswerTurn n d answer (.ended (.returned (.ok ())) m)
  /-- The download has failed, and its job is taken off. -/
  | fail {answer : BatchAnswer} {m : Node χ} (e : SyncError) (hcall : m.call = none)
    (hstore : m.board.store = (n.board.store.remove d.job.id).2) :
    AnswerTurn n d answer (.ended (.returned (.error e)) m)

/-- Progress that is recorded ends the call: the job has been brought further, or the call panics and
the jobs stay as they were. -/
theorem answerTurn_of_recordProgress {k : Node χ} {batch : List Block} {download : Download}
    (hstore : k.board.store = n.board.store) :
    n.AnswerTurn d (.ok batch) (match k.recordProgress d.job download with
      | (.ok (), m) => m.endCall (.ok ())
      | (.error p, m) => m.breakOff p) := by
  rw [recordProgress_eq]
  cases k.batchDeadline download with
  | ok deadline =>
    refine .advance _ (advanced_advancedJob d.job download deadline) rfl ?_
    change ((k.dropTarget d.job).updateJob _).board.store = _
    rw [store_updateJob, store_dropTarget, hstore]
  | error p => exact .broken p rfl ((store_dropTarget k d.job).trans hstore)

theorem Asks.answerTurn (h : n.Asks d) (answer : BatchAnswer) :
    n.AnswerTurn d answer (n.answerCall answer) := by
  rw [answerCall, h.call]
  dsimp only
  obtain ⟨e, hr⟩ | ⟨rfl, hr⟩ | ⟨batch, last, rfl, hlast, -, hr⟩ := n.receiveBatch_cases d.download answer
  · rw [hr]
    dsimp only
    rw [downloadFailed]
    split
    · exact .spare rfl (store_withdrawTarget ..)
    · refine .fail e rfl ?_
      change ((n.withdrawTarget d.download.registered).board.remove d.job.id).2.store = _
      rw [JobBoard.store_remove, store_withdrawTarget]
  · have hover : ¬ ({ d.download with ended := true } : Download).request?.isSome = true := by
      simp [Download.request?]
    rw [hr]
    dsimp only
    rw [if_neg hover, downloadOver]
    split
    case isTrue hcount =>
      obtain ⟨origin, rest, hlt, hpending, heq⟩ | heq := downloadFrom_cases n d.job d.origins
      · dsimp only
        rw [heq]
        exact .retarget origin rest hcount hlt hpending rfl rfl
      · dsimp only
        rw [heq]
        exact .barren rfl (JobBoard.store_remove ..)
    case isFalse => exact answerTurn_of_recordProgress rfl
  · obtain ⟨k, hk⟩ : ∃ k, k = (n.registerTarget d.download.registered last.hash).enqueueBatch batch
        d.download.peer last.hash := ⟨_, rfl⟩
    have hboard : k.board = (n.registerTarget d.download.registered last.hash).board :=
      hk ▸ board_enqueueBatch ..
    rw [hr, ← hk]
    dsimp only
    split
    case isTrue hpending => exact .next last hlast hpending rfl hboard
    case isFalse =>
      have hpos := List.length_pos_of_mem (List.mem_of_getLast? hlast)
      have hcount : ¬ (d.download.extend batch last).count = 0 := by
        change ¬ d.download.count + batch.length = 0
        omega
      rw [downloadOver, if_neg hcount]
      exact answerTurn_of_recordProgress (by rw [hboard, store_registerTarget])

/-- When a download fails for good, its job is taken off the board, and nothing else is. -/
theorem Asks.jobs_of_error {answer : BatchAnswer} {e : SyncError} (h : n.Asks d)
    (hv : n.board.store.Valid) (he : (n.answerCall answer).result? = some (.error e)) :
    n.jobs = d.job :: (n.answerCall answer).node.jobs := by
  have hturn := h.answerTurn answer
  generalize n.answerCall answer = t at he hturn
  cases hturn with
  | next | retarget | barren | advance | broken | spare => cases he
  | fail e hcall hstore =>
    rw [CallTurn.node, jobs, jobs, hstore, hv.toList_remove_first h.first]
    exact hv.toList_eq_cons h.first

/-- A failure that may pass takes back no more than the target of the download. -/
theorem answerCall_unreachable (hcall : n.call = some (.asking d)) (p : Peer)
    (hnow : n.now < d.job.deadline) :
    (n.answerCall (.error (.unreachable p))).result? = some (.ok ()) ∧
      (n.answerCall (.error (.unreachable p))).node.board =
        (n.withdrawTarget d.download.registered).board := by
  have hnow' : (n.withdrawTarget d.download.registered).now < d.job.deadline := by
    cases d.download.registered <;> exact hnow
  have heq : n.answerCall (.error (.unreachable p)) =
      (n.withdrawTarget d.download.registered).downloadFailed d.job (.network (.unreachable p)) := by
    simp only [answerCall, hcall, receiveBatch, Download.receive]
  rw [heq, downloadFailed, if_pos ⟨rfl, hnow'⟩]
  exact ⟨rfl, rfl⟩

end Node

end ChainNode

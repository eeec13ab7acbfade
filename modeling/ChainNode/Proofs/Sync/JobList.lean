import ChainNode.Proofs.Sync.Front
import Mathlib.Data.List.TakeWhile

/-!
# The job board is a list of jobs

A plain list of jobs (`JobList`) keeps each job where it was put and looks through all of them. The
board keeps them in a map, with an order beside it, and goes round by round when it looks for a job
that is not covered. Both answer alike, whatever the calls, as long as the two parts of the board stay
in step: this is `JobBoard.Lists`, which each call keeps. Targets are put in and marked by others
than the board, so between two calls they may become any others.
-/

namespace ChainNode

/-! ## A plain list -/

/-- A board as a list of jobs, the oldest first. -/
structure JobList where
  capacity : Nat
  jobs : List Job
  targets : Targets
  /-- The time a new job has for its first download. -/
  timeout : Duration

namespace JobList

/-- No jobs and no targets. -/
def empty (capacity : Nat) (timeout : Duration) : JobList := ⟨capacity, [], ∅, timeout⟩

/-- Puts a job at the end, if there is room and its identity is new. -/
def add (l : JobList) (j : Job) : Bool × JobList :=
  if l.jobs.length < l.capacity ∧ ∀ k ∈ l.jobs, k.id ≠ j.id then
    (true, { l with jobs := l.jobs ++ [j] })
  else (false, l)

/-- Puts a job that has not started at the end; its identity, if there was room. Nothing is put
anywhere if the job's deadline is no instant. -/
def enqueue (l : JobList) (now : Instant) (target : Tip) (batch : Nat) (peer : Option Peer) :
    Except Panic (Option Hash) × JobList :=
  match now.plus l.timeout with
  | .error p => (.error p, l)
  | .ok deadline =>
    let (ok, l) := l.add ⟨target.hash, target, batch, peer, ⟨.zero, 0⟩, deadline, now, false⟩
    (.ok (if ok then some target.hash else none), l)

/-- Exchanges the job with the same identity where it stands. -/
def update (l : JobList) (j : Job) : Bool × JobList :=
  (l.jobs.any fun k => k.id = j.id,
    { l with jobs := l.jobs.map fun k => if k.id = j.id then j else k })

/-- Takes a job out and leaves its target. -/
def take (l : JobList) (id : Hash) : Option Job × JobList :=
  (l.jobs.find? fun k => k.id = id, { l with jobs := l.jobs.filter fun k => k.id ≠ id })

/-- Takes a job out, and with it the target of what was last downloaded for it. -/
def remove (l : JobList) (id : Hash) : Option Job × JobList :=
  ((l.take id).1, { (l.take id).2 with targets := l.targets.without (l.take id).1.toList })

/-- The first job that is not covered. Exactly the jobs before it are taken out, all of them if there
is no such job, and with them the targets of those that have started. -/
def firstWaiting (l : JobList) (heads : Heads) : Option Job × JobList :=
  (l.jobs.find? fun k => !k.covered heads,
    { l with
      jobs := l.jobs.dropWhile (Job.covered heads)
      targets := l.targets.without (l.jobs.takeWhile (Job.covered heads)) })

end JobList

/-! ## Calls -/

/-- A call on a board or on its store. -/
inductive JobCall
  /-- A job is brought as it is. -/
  | add (j : Job)
  /-- A target is brought. -/
  | enqueue (now : Instant) (target : Tip) (batch : Nat) (peer : Option Peer)
  | first
  | firstWaiting (heads : Heads)
  | update (j : Job)
  /-- A job is taken out of the store, not off the board. -/
  | take (id : Hash)
  | remove (id : Hash)
  | size
  /-- Others make these of the targets. -/
  | exchange (targets : Targets)

/-- What a call answers. -/
inductive JobAnswer
  | done (ok : Bool)
  | stored (id : Option Hash)
  | job (j : Option Job)
  | count (n : Nat)
  | panicked (p : Panic)
  deriving DecidableEq

/-- The answer to a target that is brought. -/
def JobAnswer.ofStored : Except Panic (Option Hash) → JobAnswer
  | .ok id => stored id
  | .error p => panicked p

/-- A call on a board. -/
def JobBoard.perform (b : JobBoard) : JobCall → JobAnswer × JobBoard
  | .add j => (.done (b.store.add j).1, { b with store := (b.store.add j).2 })
  | .enqueue now target batch peer => (b.enqueue now target batch peer).map .ofStored id
  | .first => (.job b.store.first?, b)
  | .firstWaiting heads => (b.firstWaiting heads).map .job id
  | .update j => (b.update j).map .done id
  | .take id => (.job (b.store.remove id).1, { b with store := (b.store.remove id).2 })
  | .remove id => (b.remove id).map .job fun b => b
  | .size => (.count b.store.size, b)
  | .exchange targets => (.done true, { b with targets })

/-- A call on a plain list. -/
def JobList.perform (l : JobList) : JobCall → JobAnswer × JobList
  | .add j => (l.add j).map .done id
  | .enqueue now target batch peer => (l.enqueue now target batch peer).map .ofStored id
  | .first => (.job l.jobs.head?, l)
  | .firstWaiting heads => (l.firstWaiting heads).map .job id
  | .update j => (l.update j).map .done id
  | .take id => (l.take id).map .job fun l => l
  | .remove id => (l.remove id).map .job fun l => l
  | .size => (.count l.jobs.length, l)
  | .exchange targets => (.done true, { l with targets })

/-- Calls in turn, with what they answer. -/
def performCalls {σ : Type} (perform : σ → JobCall → JobAnswer × σ) :
    σ → List JobCall → List JobAnswer × σ
  | s, [] => ([], s)
  | s, call :: calls =>
    let (answer, s) := perform s call
    let (answers, s) := performCalls perform s calls
    (answer :: answers, s)

namespace JobList

end JobList

/-! ## The board in step with the list -/

namespace JobBoard

/-- A board stands for a list: its store is in step with itself and lists the jobs of the list, of
which there are never too many, and all else is the same. -/
structure Lists (b : JobBoard) (l : JobList) : Prop where
  valid : b.store.Valid
  jobs_eq : b.store.toList = l.jobs
  capacity_eq : b.store.capacity = l.capacity
  targets_eq : b.targets = l.targets
  timeout_eq : b.timeout = l.timeout
  bounded : l.jobs.length ≤ l.capacity

section Lists
variable {b : JobBoard} {l : JobList}

/-- Other jobs in the store, no more of them, and others in the list. -/
theorem Lists.store (h : b.Lists l) {s : JobStore} (hv : s.Valid) (hs : s.capacity = b.store.capacity)
    {jobs : List Job} (hjobs : s.toList = jobs) (hle : jobs.length ≤ l.capacity) :
    { b with store := s }.Lists { l with jobs } :=
  ⟨hv, hjobs, hs.trans h.capacity_eq, h.targets_eq, h.timeout_eq, hle⟩

/-- There is room for a job, and its identity is new, on the board just when this is so in the list. -/
theorem Lists.room_iff (h : b.Lists l) (j : Job) :
    ¬ (b.store.capacity ≤ b.store.size ∨ j.id ∈ b.store.jobs) ↔
      l.jobs.length < l.capacity ∧ ∀ k ∈ l.jobs, k.id ≠ j.id := by
  rw [h.valid.size_eq, h.valid.mem_jobs_iff, h.jobs_eq, h.capacity_eq, not_or, Nat.not_le]
  simp only [not_exists, not_and, ne_eq]

theorem Lists.add (h : b.Lists l) (j : Job) :
    (b.store.add j).1 = (l.add j).1 ∧ { b with store := (b.store.add j).2 }.Lists (l.add j).2 := by
  have hlist := h.valid.toList_add j
  have hv := h.valid.add j
  by_cases hroom : l.jobs.length < l.capacity ∧ ∀ k ∈ l.jobs, k.id ≠ j.id
  · have hnot := (h.room_iff j).mpr hroom
    rw [if_neg hnot, h.jobs_eq] at hlist
    rw [JobList.add, if_pos hroom]
    refine ⟨by rw [JobStore.add, if_neg hnot], h.store hv ?_ hlist ?_⟩
    · rw [JobStore.add, if_neg hnot]
    · rw [List.length_append]
      exact hroom.1
  · have hfull := Classical.not_not.mp (mt (h.room_iff j).mp hroom)
    rw [JobList.add, if_neg hroom, JobStore.add_of_full_or_mem hfull]
    exact ⟨rfl, h⟩

theorem Lists.enqueue (h : b.Lists l) (now : Instant) (target : Tip) (batch : Nat)
    (peer : Option Peer) :
    (b.enqueue now target batch peer).1 = (l.enqueue now target batch peer).1 ∧
      (b.enqueue now target batch peer).2.Lists (l.enqueue now target batch peer).2 := by
  rw [JobBoard.enqueue_eq, JobList.enqueue, ← h.timeout_eq]
  cases now.plus b.timeout with
  | error p => exact ⟨rfl, h⟩
  | ok deadline =>
    obtain ⟨hanswer, hlists⟩ := h.add (freshJob now deadline target batch peer)
    exact ⟨congrArg (fun ok => Except.ok (if ok then some target.hash else none)) hanswer, hlists⟩

theorem Lists.update (h : b.Lists l) (j : Job) :
    (b.update j).1 = (l.update j).1 ∧ (b.update j).2.Lists (l.update j).2 := by
  have hlist := h.valid.toList_update j
  rw [h.jobs_eq] at hlist
  refine ⟨?_, h.store (h.valid.update j) ?_ hlist ?_⟩
  · have hmem := h.valid.mem_jobs_iff j.id
    rw [h.jobs_eq] at hmem
    rw [Bool.eq_iff_iff]
    simp only [JobBoard.update, JobStore.update, JobList.update, List.any_eq_true,
      decide_eq_true_eq, ← hmem]
    split <;> rename_i hj <;> simp only [hj, Bool.false_eq_true]
  · rw [JobStore.update]
    split <;> rfl
  · rw [List.length_map]
    exact h.bounded

theorem Lists.take (h : b.Lists l) (id : Hash) :
    (b.store.remove id).1 = (l.take id).1 ∧
      { b with store := (b.store.remove id).2 }.Lists (l.take id).2 := by
  have hlist := h.valid.toList_remove id
  rw [h.jobs_eq] at hlist
  refine ⟨?_, h.store (h.valid.remove id) ?_ hlist ?_⟩
  · rw [JobList.take, ← h.jobs_eq, ← h.valid.getElem?_eq_find?, JobStore.remove]
    split <;> rename_i hj <;> rw [hj]
  · rw [JobStore.remove]
    split <;> rfl
  · exact Nat.le_trans (List.length_filter_le _ _) h.bounded

theorem Lists.remove (h : b.Lists l) (id : Hash) :
    (b.remove id).1 = (l.remove id).1 ∧ (b.remove id).2.Lists (l.remove id).2 := by
  obtain ⟨hanswer, hlists⟩ := h.take id
  rw [JobBoard.remove, JobList.remove, ← hanswer]
  split <;> rename_i hremove <;> rw [hremove] at hlists ⊢
  · exact ⟨rfl, { hlists with targets_eq := h.targets_eq }⟩
  · rename_i j _
    refine ⟨rfl, { hlists with targets_eq := ?_ }⟩
    simp only [h.targets_eq, Targets.without, Option.toList_some, List.filter_cons,
      List.filter_nil]
    cases j.started <;> rfl

theorem Lists.firstWaiting (h : b.Lists l) (heads : Heads) :
    (b.firstWaiting heads).1 = (l.firstWaiting heads).1 ∧
      (b.firstWaiting heads).2.Lists (l.firstWaiting heads).2 := by
  have hprunes := prunes_firstWaiting h.valid heads
  obtain ⟨hv, hlist, hfirst, htargets⟩ := hprunes.leaves h.valid
  obtain ⟨hcapacity, htimeout⟩ := hprunes.frame
  rw [h.jobs_eq] at hlist htargets
  constructor
  · rw [hfirst, hv.first?_eq, hlist]
    exact (List.find?_not_eq_head?_dropWhile _ _).symm
  · exact {
      valid := hv
      jobs_eq := hlist
      capacity_eq := hcapacity.trans h.capacity_eq
      targets_eq := by rw [htargets, h.targets_eq]; rfl
      timeout_eq := htimeout.trans h.timeout_eq
      bounded := Nat.le_trans (List.dropWhile_suffix _).length_le h.bounded }

/-- Every call answers the same on both, and keeps them in step. -/
theorem Lists.perform (h : b.Lists l) (call : JobCall) :
    (b.perform call).1 = (l.perform call).1 ∧ (b.perform call).2.Lists (l.perform call).2 := by
  cases call with
  | add j => exact ⟨congrArg _ (h.add j).1, (h.add j).2⟩
  | enqueue now target batch peer =>
    obtain ⟨hanswer, hlists⟩ := h.enqueue now target batch peer
    exact ⟨congrArg JobAnswer.ofStored hanswer, hlists⟩
  | first =>
    refine ⟨?_, h⟩
    show JobAnswer.job b.store.first? = .job l.jobs.head?
    rw [h.valid.first?_eq, h.jobs_eq]
  | firstWaiting heads => exact ⟨congrArg _ (h.firstWaiting heads).1, (h.firstWaiting heads).2⟩
  | update j => exact ⟨congrArg _ (h.update j).1, (h.update j).2⟩
  | take id => exact ⟨congrArg _ (h.take id).1, (h.take id).2⟩
  | remove id => exact ⟨congrArg _ (h.remove id).1, (h.remove id).2⟩
  | size =>
    refine ⟨?_, h⟩
    show JobAnswer.count b.store.size = .count l.jobs.length
    rw [h.valid.size_eq, h.jobs_eq]
  | exchange targets => exact ⟨rfl, { h with targets_eq := rfl }⟩

theorem Lists.performCalls (h : b.Lists l) (calls : List JobCall) :
    (performCalls JobBoard.perform b calls).1 = (performCalls JobList.perform l calls).1 ∧
      (performCalls JobBoard.perform b calls).2.Lists (performCalls JobList.perform l calls).2 := by
  induction calls generalizing b l with
  | nil => exact ⟨rfl, h⟩
  | cons call calls ih =>
    obtain ⟨hanswer, hnext⟩ := h.perform call
    obtain ⟨hanswers, hlast⟩ := ih hnext
    exact ⟨by simp only [ChainNode.performCalls, hanswer, hanswers], hlast⟩

end Lists

end JobBoard

end ChainNode

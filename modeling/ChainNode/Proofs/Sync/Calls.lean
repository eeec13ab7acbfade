import ChainNode.Proofs.Sync.Rounds

/-!
# Whole calls

A call of the worker in progress goes on while other things happen at the node, but no job comes
(`Node.Goes`). By then, it has kept to the front of the store (`Node.InCall`), and the download that it
waits for can be traced back to where it began (`Node.Began`): so a call that goes on ends, and leaves
the store as it should (`Node.call_front`).
-/

namespace ChainNode

/-! ## Marks -/

/-- Targets with some of them marked, one after the other. -/
def Targets.marked (ts : Targets) (hashes : List Hash) : Targets :=
  hashes.foldl (fun ts hash => (ts.mark hash true).2) ts

theorem Targets.marked_concat (ts : Targets) (hashes : List Hash) (hash : Hash) :
    ts.marked (hashes ++ [hash]) = ((ts.marked hashes).mark hash true).2 := by
  simp [marked]

theorem Targets.mem_marked {ts : Targets} {hashes : List Hash} {hash : Hash} :
    hash ∈ ts.marked hashes ↔ hash ∈ ts := by
  induction hashes generalizing ts with
  | nil => rfl
  | cons first rest ih =>
    rw [marked, List.foldl_cons]
    exact ih.trans mem_mark

namespace Node

variable {χ κ : Type} {n m b : Node χ}

/-- An event is a step of a queue. -/
def Event.ofQueue : Event κ → Bool
  | queue _ => true
  | _ => false

/-- The number of rounds that begin with an event. -/
def roundsBegun (n : Node χ) : Event κ → Nat
  | .callStep => if n.call = some .round then 1 else 0
  | _ => 0

variable [ChainService χ] {act : κ → χ → χ} {events : List (Event κ)} {rounds : Nat}

/-- A call in progress goes on over some events, a number of rounds begin, and others bring no job. -/
inductive Goes (act : κ → χ → χ) (n : Node χ) : List (Event κ) → Nat → Node χ → Prop
  | refl : Goes act n [] 0 n
  | tail {past : List (Event κ)} {rounds : Nat} {k m : Node χ} {e : Event κ}
    (h : Goes act n past rounds k) (hcall : k.call ≠ none) (hstep : step act k e = some m)
    (hjobs : e.ofWorker = false → ∀ id ∈ m.board.store.jobs, id ∈ k.board.store.jobs) :
    Goes act n (past ++ [e]) (rounds + k.roundsBegun e) m

/-! ## What others do -/

theorem call_intakes (h : n.Intakes m) : m.call = n.call := by
  refine h.keep (P := fun k => k.call = n.call) ?_ rfl
  intro a b hab ha
  rw [← ha]
  cases hab <;> rfl

/-- Things that come in leave the jobs alone, or bring a new one. -/
theorem store_intakes (h : n.Intakes m) : m.board.store = n.board.store ∨
    ∃ id ∈ m.board.store.jobs, id ∉ n.board.store.jobs := by
  refine h.keep (P := fun k => k.board.store = n.board.store ∨
    ∃ id ∈ k.board.store.jobs, id ∉ n.board.store.jobs) ?_ (.inl rfl)
  intro a b hab ha
  cases hab with
  | job target batch peer =>
    rw [enqueueJob]
    obtain hj | ⟨j, -, hj⟩ := JobBoard.store_enqueue (b := a.board) a.now target batch peer
    · rwa [hj]
    rw [hj]
    by_cases hfull : a.board.store.capacity ≤ a.board.store.size ∨ j.id ∈ a.board.store.jobs
    · rwa [JobStore.add_of_full_or_mem hfull]
    · right
      rw [JobStore.add, if_neg hfull]
      obtain hsame | ⟨id, hid, hnew⟩ := ha
      · exact ⟨j.id, by simp, fun hmem => hfull (.inr (hsame ▸ hmem))⟩
      · exact ⟨id, by simp [hid], hnew⟩
  | wait | post | announcements | fetch | attach | heads | lookUp => exact ha

/-- What others do takes no part in the call, and leaves the jobs alone when it brings none. -/
theorem quiet_step {e : Event κ} (he : e.ofWorker = false) (hstep : step act n e = some m)
    (hjobs : ∀ id ∈ m.board.store.jobs, id ∈ n.board.store.jobs) :
    m.call = n.call ∧ m.board.store = n.board.store := by
  have hintakes {k : Node χ} (hk : n.Intakes k)
      (hk' : ∀ id ∈ k.board.store.jobs, id ∈ n.board.store.jobs) :
      k.call = n.call ∧ k.board.store = n.board.store := by
    obtain hsame | ⟨id, hid, hnew⟩ := store_intakes hk
    · exact ⟨call_intakes hk, hsame⟩
    · exact absurd (hk' id hid) hnew
  cases happens_of_step hstep with
  | intake _ hm => exact hintakes hm hjobs
  | fetched _ hk => exact (hintakes hk hjobs :)
  | queue hm =>
    obtain ⟨-, hcall, c, hboard⟩ := queueStep_frame hm
    exact ⟨hcall, by rw [hboard, store_complete]⟩
  | call | callStep | answerCall => cases he
  | chain change => exact ⟨rfl, rfl⟩

/-! ## What a call does -/

theorem AtWork.onward (h : n.AtWork) (hcall : n.call ≠ none) {e : Event κ} (he : e.ofWorker = true)
    (hstep : step act n e = some m) : n.Onward m (n.roundsBegun e) := by
  have hv := valid_step h.valid hstep
  have hsettings := settings_step hstep
  cases e <;> simp only [Event.ofWorker, Bool.false_eq_true] at he
  case call =>
    rw [step, beginCall] at hstep
    simp [hcall] at hstep
  case callStep =>
    obtain ⟨t, ht, rfl⟩ := Option.map_eq_some_iff.mp hstep
    rw [callStep] at ht
    split at ht
    case h_1 hround =>
      obtain rfl := Option.some.inj ht
      rw [roundsBegun, if_pos hround]
      exact onward_beginRound h.valid hround hsettings
    case h_2 heads hlooking =>
      obtain rfl := Option.some.inj ht
      rw [roundsBegun, if_neg (by simp [hlooking])]
      exact onward_lookTurn hlooking (lookTurn h.valid heads) hv hsettings
    case h_3 => cases ht
  case answerCall answer =>
    obtain ⟨r, hr, rfl⟩ := Option.map_eq_some_iff.mp hstep
    rw [callRequest?] at hr
    split at hr
    case h_1 d hd =>
      have hasks := h.asks d hd
      exact onward_answerTurn hasks h.valid (hasks.answerTurn answer) hv hsettings
    case h_2 => cases hr

/-- What holds of a call that has gone on over some events. -/
structure InCall (b : Node χ) (events : List (Event κ)) (rounds : Nat) (m : Node χ) : Prop where
  atWork : m.AtWork
  rounds : m.roundsLeft + rounds ≤ b.roundsLeft
  steps : m.stepsLeft + events.countP Event.ofWorker ≤ b.stepsLeft
  suffix : m.call ≠ none → m.jobs <:+ b.jobs
  shortened : Shortened b.jobs m.jobs

theorem Goes.inCall (hb : b.AtWork) (h : b.Goes act events rounds m) : InCall b events rounds m := by
  induction h with
  | refl =>
    exact ⟨hb, Nat.le_refl _, Nat.le_refl _, fun _ => List.suffix_rfl,
      shortened_of_suffix List.suffix_rfl⟩
  | @tail past rounds k m e _ hcall hstep hjobs ih =>
    cases he : e.ofWorker with
    | true =>
      have honward := ih.atWork.onward hcall he hstep
      have hrounds := ih.rounds
      have hsteps := ih.steps
      exact {
        atWork := honward.atWork
        rounds := by
          have := honward.rounds
          omega
        steps := by
          have := honward.steps
          rw [List.countP_append, List.countP_singleton, if_pos he]
          omega
        suffix := fun hm => (honward.suffix hm).trans (ih.suffix hcall)
        shortened := honward.shortened.of_suffix (ih.suffix hcall) }
    | false =>
      obtain ⟨hsame, hstore⟩ := quiet_step he hstep (hjobs he)
      have hsettings := settings_step hstep
      have hm : m.jobs = k.jobs := by rw [jobs, hstore, jobs]
      have hbegun : k.roundsBegun e = 0 := by
        cases e <;> first | rfl | cases he
      exact {
        atWork := by
          refine ⟨hstore ▸ ih.atWork.valid, ?_⟩
          intro d hd
          exact (ih.atWork.asks d (hsame ▸ hd)).congr hsame hstore hsettings
        rounds := by
          have hleft : m.roundsLeft = k.roundsLeft := by rw [roundsLeft, hsame, hm, roundsLeft]
          rw [hleft, hbegun]
          exact ih.rounds
        steps := by
          have hleft : m.stepsLeft = k.stepsLeft := by
            rw [stepsLeft, hsame, hm, roundSteps_congr hsettings, hsettings, stepsLeft]
          rw [hleft, List.countP_append, List.countP_singleton, if_neg (by simp [he])]
          exact ih.steps
        suffix := fun h => hm ▸ ih.suffix (hsame ▸ h)
        shortened := hm ▸ ih.shortened }

/-! ## Where a download began -/

/-- The download that a call waits for began, over some events, where the call had just looked for its
job: from the jobs there were, those left of the covered ones in front are left, and the one that is
downloaded is the first of them. Since then the store is the same, and the targets are those there were,
as far as queues have marked them, but for the target of the download. -/
structure Began (act : κ → χ → χ) (s begun : Node χ) (heads : Heads) (during : List (Event κ))
    (m : Node χ) (d : JobDownload) : Prop where
  looking : s.call = some (.looking heads)
  begins : s.callStep = some (.next begun)
  since : begun.Goes act during 0 m
  jobs : s.jobs.dropWhile (Job.covered heads) = m.jobs
  store : m.board.store = begun.board.store
  targets : (∀ e ∈ during, ∀ x ∈ e.downloaded, x.hash ∉ begun.board.targets) →
    ∃ marks, marks.length ≤ during.countP Event.ofQueue ∧
      (begun.board.targets.marked marks).Beside d.download.registered m.board.targets

variable {s begun k : Node χ} {heads : Heads} {during : List (Event κ)} {d d' : JobDownload}

/-- The download goes on with an event that leaves the store alone. -/
theorem Began.tail (h : Began act s begun heads during k d) {e : Event κ}
    (hsince : begun.Goes act (during ++ [e]) 0 m) (hstore : m.board.store = k.board.store)
    (htargets : (∀ x ∈ e.downloaded, x.hash ∉ begun.board.targets) → ∀ marks,
      (begun.board.targets.marked marks).Beside d.download.registered k.board.targets →
      ∃ more : List Hash, more.length ≤ [e].countP Event.ofQueue ∧
        (begun.board.targets.marked (marks ++ more)).Beside d'.download.registered m.board.targets) :
    Began act s begun heads (during ++ [e]) m d' where
  looking := h.looking
  begins := h.begins
  since := hsince
  jobs := by rw [h.jobs, Node.jobs, ← hstore, Node.jobs]
  store := hstore.trans h.store
  targets hnew := by
    obtain ⟨marks, hlength, hbeside⟩ := h.targets fun e' he' => hnew e' (List.mem_append_left _ he')
    obtain ⟨more, hmore, hbeside'⟩ := htargets (hnew e (by simp)) marks hbeside
    refine ⟨marks ++ more, ?_, hbeside'⟩
    rw [List.length_append, List.countP_append]
    exact Nat.add_le_add hlength hmore

/-- The download goes on while others do something. -/
theorem Began.quiet (h : Began act s begun heads during k d) (hk : k.call = some (.asking d))
    {e : Event κ} (he : e.ofWorker = false) (hstep : step act k e = some m)
    (hjobs : ∀ id ∈ m.board.store.jobs, id ∈ k.board.store.jobs) :
    Began act s begun heads (during ++ [e]) m d := by
  have hstore := (quiet_step he hstep hjobs).2
  have hbegun : k.roundsBegun e = 0 := by
    cases e <;> first | rfl | cases he
  have hsince := h.since.tail (by simp [hk]) hstep fun _ => hjobs
  rw [hbegun] at hsince
  refine h.tail hsince hstore ?_
  intro _ marks hbeside
  obtain hsame | ⟨q, hash, rfl, hmark⟩ := targets_meanwhile he hstep
  · refine ⟨[], Nat.zero_le _, ?_⟩
    rwa [List.append_nil, hsame]
  · refine ⟨[hash], Nat.le_refl 1, ?_⟩
    rw [Targets.marked_concat, hmark]
    exact hbeside.mark hash true

/-- The download goes on with an answer. -/
theorem Began.answer (h : Began act s begun heads during k d) (hasks : k.Asks d)
    {answer : BatchAnswer} (hstep : step act k (.answerCall answer) = some m)
    (hd : m.call = some (.asking d')) :
    Began act s begun heads (during ++ [.answerCall answer]) m d' := by
  have hsince : begun.Goes act (during ++ [.answerCall answer]) 0 m :=
    h.since.tail (by simp [hasks.call]) hstep nofun
  obtain ⟨r, -, rfl⟩ := Option.map_eq_some_iff.mp hstep
  have hturn := hasks.answerTurn answer
  generalize k.answerCall answer = t at hturn hd hsince
  cases hturn with
  | @next batch m last hlast hpending hm hboard =>
    rw [CallTurn.node] at hd hsince ⊢
    obtain rfl := Call.asking.inj (Option.some.inj (hm.symm.trans hd))
    refine h.tail hsince (by rw [hboard, store_registerTarget]) ?_
    intro hnew marks hbeside
    refine ⟨[], Nat.zero_le _, ?_⟩
    rw [List.append_nil, hboard]
    refine beside_registerTarget hbeside ?_
    rw [Targets.mem_marked]
    exact hnew last (List.mem_of_getLast? hlast)
  | @retarget m origin rest hzero hlt hpending hm hboard =>
    rw [CallTurn.node] at hd hsince ⊢
    obtain rfl := Call.asking.inj (Option.some.inj (hm.symm.trans hd))
    refine h.tail hsince (by rw [hboard]) ?_
    intro _ marks hbeside
    refine ⟨[], Nat.zero_le _, ?_⟩
    rw [hasks.unregistered hzero] at hbeside
    rwa [List.append_nil, hboard]
  | barren hm | advance _ _ hm | broken _ hm | spare hm | fail _ hm =>
    rw [CallTurn.node, hm] at hd
    cases hd

/-- A download begins where the call looks for its job. -/
theorem began_of_callStep (hk : k.AtWork) (hlooking : k.call = some (.looking heads))
    (hstep : step act k .callStep = some m) (hd : m.call = some (.asking d)) :
    Began act k m heads ([] : List (Event κ)) m d := by
  have hcallStep : k.callStep = some (k.lookForJob heads) := by rw [callStep, hlooking]
  rw [step, hcallStep, Option.map_some, Option.some.injEq] at hstep
  have hturn := lookTurn hk.valid heads
  generalize k.lookForJob heads = t at hcallStep hstep hturn
  subst hstep
  cases hturn with
  | wait hm | broken _ hm | drop _ hm =>
    rw [CallTurn.node, hm] at hd
    cases hd
  | @begins m j origin rest hrest hpending hm hfirst hjobs =>
    rw [CallTurn.node] at hd ⊢
    obtain rfl := Call.asking.inj (Option.some.inj (hm.symm.trans hd))
    exact ⟨hlooking, hcallStep, .refl, hjobs.symm, rfl,
      fun _ => ⟨[], Nat.zero_le _, Targets.beside_none _⟩⟩

/-- Every download of a call began in the round it is in. -/
theorem Goes.began (hb : b.AtWork) (hround : b.call = some .round) (h : b.Goes act events rounds m)
    (hd : m.call = some (.asking d)) :
    ∃ past during s begun heads, events = past ++ .callStep :: during ∧ b.Goes act past rounds s ∧
      Began act s begun heads during m d := by
  induction h generalizing d with
  | refl =>
    rw [hround] at hd
    cases hd
  | @tail past rounds k m e hgoes hcall hstep hjobs ih =>
    have hk := (hgoes.inCall hb).atWork
    -- a download that goes on with an event began where it began
    have hon {d' : JobDownload} (hd' : k.call = some (.asking d'))
        (hnext : ∀ s begun heads during, Began act s begun heads during k d' →
          Began act s begun heads (during ++ [e]) m d) :
        ∃ past' during s begun heads, past ++ [e] = past' ++ .callStep :: during ∧
          b.Goes act past' (rounds + k.roundsBegun e) s ∧ Began act s begun heads during m d := by
      obtain ⟨past', during, s, begun, heads, rfl, hgoes', hbegan⟩ := ih hd'
      have hnone : k.roundsBegun e = 0 := by
        cases e <;> first | rfl | exact if_neg (by simp [hd'])
      rw [hnone, Nat.add_zero]
      exact ⟨past', during ++ [e], s, begun, heads, by simp, hgoes', hnext s begun heads during hbegan⟩
    cases he : e.ofWorker with
    | false =>
      have hsame := (quiet_step he hstep (hjobs he)).1
      rw [hsame] at hd
      exact hon hd fun s begun heads during hbegan => hbegan.quiet hd he hstep (hjobs he)
    | true =>
      cases e <;> simp only [Event.ofWorker, Bool.false_eq_true] at he
      case call =>
        rw [step, beginCall] at hstep
        simp [hcall] at hstep
      case callStep =>
        cases hc : k.call with
        | none => exact absurd hc hcall
        | some c =>
          cases c with
          | round =>
            obtain ⟨e, m', heq, hm', -⟩ | ⟨heads, m', heq, hm', -⟩ := k.beginRound_cases <;>
              rw [step, callStep, hc, Option.map_some, heq, CallTurn.node,
                Option.some.injEq] at hstep <;>
              rw [← hstep, hm'] at hd <;> cases hd
          | looking heads =>
            refine ⟨past, [], k, m, heads, rfl, ?_, began_of_callStep hk hc hstep hd⟩
            have hnone : k.roundsBegun (.callStep : Event κ) = 0 := if_neg (by simp [hc])
            rw [hnone]
            exact hgoes
          | asking d' =>
            rw [step, callStep, hc] at hstep
            cases hstep
      case answerCall answer =>
        obtain ⟨r, hr, -⟩ := Option.map_eq_some_iff.mp hstep
        rw [callRequest?] at hr
        split at hr
        case h_1 d' hd' =>
          exact hon hd' fun s begun heads during hbegan => hbegan.answer (hk.asks d' hd') hstep hd
        case h_2 => cases hr

/-! ## The whole call -/

/-- A call in progress can go on, or waits for a peer. -/
theorem AtWork.not_stuck (h : n.AtWork) (hcall : n.call ≠ none) :
    n.callStep.isSome ∨ n.callRequest?.isSome := by
  cases hc : n.call with
  | none => exact absurd hc hcall
  | some c =>
    cases c with
    | round | looking => exact .inl (by simp [callStep, hc])
    | asking d =>
      right
      rw [callRequest?, hc]
      exact (h.asks d hc).pending

/-- **A call of the worker**, whatever is stored, whatever the chain and peers answer, and whatever else
happens, as long as others bring no job. It takes at most one round more than there are jobs, and ends
after a bounded number of steps; until then it can go on or waits for a peer. It takes off the first
jobs, and changes at most the first of the others, in how far it has come.

While it waits for an answer to a download: if that answer fails the call, the job that is downloaded is
taken off, and in this round no other but the covered jobs in front of it. And if the peer is
unreachable before the job's deadline, and no block that came since the download began was a target
then, the stored jobs are what they were when it began, and so are the targets, but for those that
queues have marked in the meantime. -/
theorem call_front (act : κ → χ → χ) {n b m : Node χ} {events : List (Event κ)} {rounds : Nat}
    (hstore : n.board.store.Reachable) (hbegin : n.beginCall = some b)
    (hgoes : b.Goes act events rounds m) :
    rounds ≤ n.jobs.length + 1 ∧
    events.countP Event.ofWorker ≤ (n.jobs.length + 1) * (3 * n.settings.downloadCap + 2) ∧
    (m.call ≠ none → m.callStep.isSome ∨ m.callRequest?.isSome) ∧
    Shortened n.jobs m.jobs ∧
    ∀ d, m.call = some (.asking d) →
      ∃ past during s begun heads, events = past ++ .callStep :: during ∧ b.Goes act past rounds s ∧
        s.call = some (.looking heads) ∧ s.callStep = some (.next begun) ∧
        begun.Goes act during 0 m ∧
        (∀ answer e, (m.answerCall answer).result? = some (.error e) →
          s.jobs.dropWhile (Job.covered heads) = d.job :: (m.answerCall answer).node.jobs) ∧
        ∀ p, m.now < d.job.deadline →
          (∀ e ∈ during, ∀ x ∈ e.downloaded, x.hash ∉ begun.board.targets) →
          (m.answerCall (.error (.unreachable p))).result? = some (.ok ()) ∧
          (m.answerCall (.error (.unreachable p))).node.board.store = begun.board.store ∧
          ∃ marks, marks.length ≤ during.countP Event.ofQueue ∧
            (m.answerCall (.error (.unreachable p))).node.board.targets =
              begun.board.targets.marked marks := by
  obtain ⟨hb, hround, hboard, hsettings⟩ := atWork_beginCall hstore.valid hbegin
  have hjobs : b.jobs = n.jobs := by rw [jobs, hboard, jobs]
  have h := hgoes.inCall hb
  refine ⟨?_, ?_, h.atWork.not_stuck, hjobs ▸ h.shortened, ?_⟩
  · have hrounds := h.rounds
    rw [roundsLeft_round hround, hjobs] at hrounds
    omega
  · have hsteps := h.steps
    rw [stepsLeft_round hround, hjobs, roundSteps_congr hsettings, ← Nat.succ_mul] at hsteps
    exact Nat.le_trans (Nat.le_add_left _ _) hsteps
  · intro d hd
    obtain ⟨past, during, s, begun, heads, hevents, hpast, hbegan⟩ := hgoes.began hb hround hd
    refine ⟨past, during, s, begun, heads, hevents, hpast, hbegan.looking, hbegan.begins,
      hbegan.since, ?_, ?_⟩
    · intro answer e he
      rw [hbegan.jobs]
      exact (h.atWork.asks d hd).jobs_of_error h.atWork.valid he
    · intro p hnow hnew
      obtain ⟨hresult, hboard'⟩ := answerCall_unreachable hd p hnow
      obtain ⟨marks, hlength, hbeside⟩ := hbegan.targets hnew
      refine ⟨hresult, ?_, marks, hlength, ?_⟩
      · rw [hboard', store_withdrawTarget, hbegan.store]
      · rw [hboard', targets_withdrawTarget hbeside]

/-- A call passes over a covered job and asks for the block of the other one. While the peer is
unreachable that job waits; when the peer answers with a block that does not follow, it is taken off. -/
theorem call_front_waiting :
    let genesis := Block.genesis 0
    let target := Block.make genesis.hash 2 0 []
    let stray := Block.make target.hash 2 0 []
    let n := (((Node.new {} 0 (BlockTree.new genesis)).enqueueJob genesis.tip 1 none).2.enqueueJob
      target.tip 1 none).2
    let job : Job :=
      ⟨target.hash, target.tip, 1, none, ⟨.zero, 0⟩, n.now.after n.board.timeout, n.now, false⟩
    ∃ b m d, ∃ (s begun : Node BlockTree) (heads : Heads), n.beginCall = some b ∧
      run Empty.elim b ([.callStep, .callStep] : List (Event Empty)) = some m ∧
      m.call = some (.asking d) ∧ d.job = job ∧ s.callStep = some (.next begun) ∧
      Shortened n.jobs m.jobs ∧
      s.jobs.dropWhile (Job.covered heads) = job :: (m.answerCall (.ok [stray])).node.jobs ∧
      (m.answerCall (.error (.unreachable "a"))).node.board.store = begun.board.store ∧
      (m.answerCall (.error (.unreachable "a"))).node.board.targets = begun.board.targets := by
  intro genesis target stray n job
  let d : JobDownload := ⟨job, .start genesis.tip 1 n.settings.downloadCap none, []⟩
  have hstore : n.board.store.Reachable := by
    have hjob {k : Node BlockTree} (hk : k.board.store.Reachable) (tip : Tip) :
        (k.enqueueJob tip 1 none).2.board.store.Reachable := by
      rw [enqueueJob]
      obtain hj | ⟨j, -, hj⟩ := JobBoard.store_enqueue (b := k.board) k.now tip 1 none
      · rwa [hj]
      · rw [hj]
        exact hk.add j
    exact hjob (hjob (.empty _) genesis.tip) target.tip
  obtain ⟨b, hb, k, hk, hkcall, m, hm, hd, hnow, hstray⟩ : ∃ b, n.beginCall = some b ∧
      ∃ k, step Empty.elim b (.callStep : Event Empty) = some k ∧ k.call.isSome ∧
        ∃ m, step Empty.elim k (.callStep : Event Empty) = some m ∧ m.call = some (.asking d) ∧
          m.now < job.deadline ∧ (m.answerCall (.ok [stray])).result? =
            some (.error (.brokenSequence genesis.hash target.hash)) := by
    have h : (n.beginCall.any fun b => (step Empty.elim b (.callStep : Event Empty)).any fun k =>
        k.call.isSome ∧ (step Empty.elim k (.callStep : Event Empty)).any fun m =>
          m.call = some (.asking d) ∧ m.now < job.deadline ∧ (m.answerCall (.ok [stray])).result? =
            some (.error (.brokenSequence genesis.hash target.hash))) = true := by
      decide +kernel
    simpa [Option.any_eq_true] using h
  have hbcall : b.call = some .round := (atWork_beginCall hstore.valid hb).2.1
  have hworker : (.callStep : Event Empty).ofWorker ≠ false := Bool.false_ne_true.symm
  have hgoes : b.Goes Empty.elim ([.callStep, .callStep] : List (Event Empty)) _ m :=
    .tail (.tail .refl (by simp [hbcall]) hk (absurd · hworker))
      (Option.isSome_iff_ne_none.mp hkcall) hm (absurd · hworker)
  obtain ⟨-, -, -, hshortened, hdownload⟩ := call_front Empty.elim hstore hb hgoes
  obtain ⟨past, during, s, begun, heads, hevents, -, -, hbegins, -, herror, hpeer⟩ := hdownload d hd
  have hduring : ∀ e ∈ during, e = .callStep := by
    intro e he
    have hmem : e ∈ ([.callStep, .callStep] : List (Event Empty)) := by
      rw [hevents]
      simp [he]
    simpa using hmem
  obtain ⟨-, hsame, marks, hlength, htargets⟩ := hpeer "a" hnow (by
    intro e he x hx
    rw [hduring e he] at hx
    cases hx)
  have hmarks : marks = [] := by
    have hqueue : during.countP Event.ofQueue = 0 := by
      refine List.countP_eq_zero.mpr ?_
      intro e he
      rw [hduring e he]
      exact Bool.false_ne_true
    exact List.eq_nil_of_length_eq_zero (Nat.le_zero.mp (hqueue ▸ hlength))
  rw [hmarks] at htargets
  refine ⟨b, m, d, s, begun, heads, hb, ?_, hd, rfl, hbegins, hshortened, herror _ _ hstray, hsame,
    htargets⟩
  rw [run_cons, hk, Option.bind_some, run_cons, hm]
  rfl

end Node

end ChainNode

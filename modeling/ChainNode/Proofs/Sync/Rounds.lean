import ChainNode.Proofs.Sync.Front
import ChainNode.Proofs.Sync.Placement

/-!
# The rounds of a call

A call of the worker goes through rounds, one for every job it takes off and one more at most. There is a
bound on the rounds that may still begin (`Node.roundsLeft`), and on the steps that are left
(`Node.stepsLeft`): every step of the worker keeps to both, and only shortens the jobs
(`Node.Onward`).
-/

namespace ChainNode.Node

variable {χ : Type} {n m b : Node χ} {heads : Heads} {d : JobDownload}

/-! ## What is left of a call -/

/-- The number of rounds that may still begin. -/
def roundsLeft (n : Node χ) : Nat :=
  match n.call with
  | none => 0
  | some .round => n.jobs.length + 1
  | some (.looking _) | some (.asking _) => n.jobs.length

/-- The number of steps a round may take: for the heads, for the job, and for the answers to downloads
from three origins. -/
def roundSteps (n : Node χ) : Nat := 3 * n.settings.downloadCap + 2

/-- The number of steps the worker may still take. -/
def stepsLeft (n : Node χ) : Nat :=
  match n.call with
  | none => 0
  | some .round => n.jobs.length * n.roundSteps + n.roundSteps
  | some (.looking _) => n.jobs.length * n.roundSteps + 3 * n.settings.downloadCap + 1
  | some (.asking d) => n.jobs.length * n.roundSteps + d.origins.length * n.settings.downloadCap +
    (n.settings.downloadCap - d.download.count)

section Left

theorem roundsLeft_none (h : n.call = none) : n.roundsLeft = 0 := by rw [roundsLeft, h]

theorem roundsLeft_round (h : n.call = some .round) : n.roundsLeft = n.jobs.length + 1 := by
  rw [roundsLeft, h]

theorem roundsLeft_looking (h : n.call = some (.looking heads)) : n.roundsLeft = n.jobs.length := by
  rw [roundsLeft, h]

theorem roundsLeft_asking (h : n.call = some (.asking d)) : n.roundsLeft = n.jobs.length := by
  rw [roundsLeft, h]

theorem roundSteps_congr (h : m.settings = n.settings) : m.roundSteps = n.roundSteps := by
  rw [roundSteps, h, roundSteps]

theorem stepsLeft_none (h : n.call = none) : n.stepsLeft = 0 := by rw [stepsLeft, h]

theorem stepsLeft_round (h : n.call = some .round) :
    n.stepsLeft = n.jobs.length * n.roundSteps + n.roundSteps := by
  rw [stepsLeft, h]

theorem stepsLeft_looking (h : n.call = some (.looking heads)) :
    n.stepsLeft = n.jobs.length * n.roundSteps + 3 * n.settings.downloadCap + 1 := by
  rw [stepsLeft, h]

theorem stepsLeft_asking (h : n.call = some (.asking d)) :
    n.stepsLeft = n.jobs.length * n.roundSteps + d.origins.length * n.settings.downloadCap +
      (n.settings.downloadCap - d.download.count) := by
  rw [stepsLeft, h]

end Left

/-- Some jobs are those that are left when the first ones are taken off, but for the first of them, which
may have come further. -/
def Shortened (before after : List Job) : Prop :=
  ∃ removed kept, before = removed ++ kept ∧
    (after = kept ∨ ∃ j k rest, kept = j :: rest ∧ j.Advanced k ∧ after = k :: rest)

theorem shortened_of_suffix {before after : List Job} (h : after <:+ before) :
    Shortened before after := by
  obtain ⟨removed, h⟩ := h
  exact ⟨removed, after, h.symm, .inl rfl⟩

theorem Shortened.of_suffix {first before after : List Job} (h : Shortened before after)
    (hsuffix : before <:+ first) : Shortened first after := by
  obtain ⟨more, rfl⟩ := hsuffix
  obtain ⟨removed, kept, rfl, hafter⟩ := h
  exact ⟨more ++ removed, kept, (List.append_assoc ..).symm, hafter⟩

/-! ## The steps of the worker -/

/-- The stored jobs are in order, and a download is for the oldest of them. -/
structure AtWork (n : Node χ) : Prop where
  valid : n.board.store.Valid
  asks : ∀ d, n.call = some (.asking d) → n.Asks d

theorem atWork_of_not_asking (hv : n.board.store.Valid) (hcall : ∀ d, n.call ≠ some (.asking d)) :
    n.AtWork := ⟨hv, fun d hd => absurd hd (hcall d)⟩

theorem atWork_beginCall (hv : n.board.store.Valid) (h : n.beginCall = some b) :
    b.AtWork ∧ b.call = some .round ∧ b.board = n.board ∧ b.settings = n.settings := by
  rw [beginCall] at h
  split at h
  case isTrue =>
    obtain rfl := Option.some.inj h
    exact ⟨atWork_of_not_asking hv (by simp), rfl, rfl, rfl⟩
  case isFalse => cases h

/-- What a step of the worker does to the jobs, and to what is left of its call. -/
structure Onward (n m : Node χ) (rounds : Nat) : Prop where
  atWork : m.AtWork
  rounds : m.roundsLeft + rounds ≤ n.roundsLeft
  steps : m.stepsLeft < n.stepsLeft
  suffix : m.call ≠ none → m.jobs <:+ n.jobs
  shortened : Shortened n.jobs m.jobs

/-- The call ends, and has done no more than to shorten the jobs. -/
theorem onward_none {rounds : Nat} (hv : m.board.store.Valid) (hm : m.call = none)
    (hrounds : rounds ≤ n.roundsLeft) (hsteps : 0 < n.stepsLeft) (hjobs : Shortened n.jobs m.jobs) :
    n.Onward m rounds where
  atWork := atWork_of_not_asking hv (by simp [hm])
  rounds := by
    rw [roundsLeft_none hm]
    omega
  steps := by rwa [stepsLeft_none hm]
  suffix h := absurd hm h
  shortened := hjobs

/-- Another round begins, with one job less at least. -/
theorem onward_round (hv : m.board.store.Valid) (hm : m.call = some .round)
    (hsettings : m.settings = n.settings) (hjobs : m.jobs <:+ n.jobs)
    (hlength : m.jobs.length < n.jobs.length) (hrounds : n.roundsLeft = n.jobs.length)
    (hsteps : n.jobs.length * n.roundSteps < n.stepsLeft) : n.Onward m 0 where
  atWork := atWork_of_not_asking hv (by simp [hm])
  rounds := by
    rw [roundsLeft_round hm, hrounds]
    exact hlength
  steps := by
    have hmul := Nat.mul_le_mul_right n.roundSteps hlength
    rw [Nat.succ_mul] at hmul
    rw [stepsLeft_round hm, roundSteps_congr hsettings]
    omega
  suffix _ := hjobs
  shortened := shortened_of_suffix hjobs

/-- The call waits for an answer. -/
theorem onward_asks (hv : m.board.store.Valid) (hm : m.Asks d) (hsettings : m.settings = n.settings)
    (hjobs : m.jobs <:+ n.jobs) (hrounds : n.roundsLeft = n.jobs.length)
    (hsteps : n.jobs.length * n.roundSteps + d.origins.length * n.settings.downloadCap +
      (n.settings.downloadCap - d.download.count) < n.stepsLeft) : n.Onward m 0 where
  atWork := by
    refine ⟨hv, ?_⟩
    intro d' hd'
    obtain rfl := Call.asking.inj (Option.some.inj (hm.call.symm.trans hd'))
    exact hm
  rounds := by
    rw [roundsLeft_asking hm.call, hrounds]
    exact hjobs.length_le
  steps := by
    have hmul := Nat.mul_le_mul_right n.roundSteps hjobs.length_le
    rw [stepsLeft_asking hm.call, roundSteps_congr hsettings, hsettings]
    omega
  suffix _ := hjobs
  shortened := shortened_of_suffix hjobs

/-- The heads are read, or the call ends because they can not be. -/
theorem beginRound_cases [ChainService χ] (n : Node χ) :
    (∃ e m, n.beginRound = .ended (.returned (.error (.chain e))) m ∧ m.call = none ∧ m.board = n.board) ∨
    ∃ heads m, n.beginRound = .next m ∧ m.call = some (.looking heads) ∧ m.board = n.board := by
  rw [beginRound]
  split
  case h_1 e k hk =>
    obtain rfl := congrArg Prod.snd hk
    exact .inl ⟨e, _, rfl, rfl, rfl⟩
  case h_2 heads k hk =>
    obtain rfl := congrArg Prod.snd hk
    exact .inr ⟨heads, _, rfl, rfl, rfl⟩

theorem onward_beginRound [ChainService χ] (hv : n.board.store.Valid) (hcall : n.call = some .round)
    (hsettings : n.beginRound.node.settings = n.settings) : n.Onward n.beginRound.node 1 := by
  have hrounds := roundsLeft_round hcall
  have hsteps := stepsLeft_round hcall
  have hround : n.roundSteps = 3 * n.settings.downloadCap + 2 := rfl
  obtain ⟨e, m, heq, hm, hboard⟩ | ⟨heads, m, heq, hm, hboard⟩ := n.beginRound_cases <;>
    rw [heq] at hsettings ⊢ <;> have hjobs : m.jobs = n.jobs := by rw [jobs, hboard, jobs]
  · exact onward_none (hboard ▸ hv) hm (by omega) (by omega) (shortened_of_suffix ⟨[], hjobs⟩)
  · exact {
      atWork := atWork_of_not_asking (hboard ▸ hv) (by simp [CallTurn.node, hm])
      rounds := by
        rw [CallTurn.node, roundsLeft_looking hm, hjobs]
        omega
      steps := by
        rw [CallTurn.node] at hsettings ⊢
        rw [stepsLeft_looking hm, hjobs, roundSteps_congr hsettings, hsettings]
        omega
      suffix := fun _ => ⟨[], hjobs⟩
      shortened := shortened_of_suffix ⟨[], hjobs⟩ }

theorem onward_lookTurn (hcall : n.call = some (.looking heads)) {t : CallTurn χ}
    (ht : n.LookTurn heads t) (hv : t.node.board.store.Valid)
    (hsettings : t.node.settings = n.settings) : n.Onward t.node 0 := by
  have hrounds := roundsLeft_looking hcall
  have hsteps := stepsLeft_looking hcall
  have hdrop : n.jobs.dropWhile (Job.covered heads) <:+ n.jobs := List.dropWhile_suffix _
  cases ht with
  | wait hm hjobs | broken _ hm hjobs =>
    exact onward_none hv hm (Nat.zero_le _) (by omega) (shortened_of_suffix (hjobs ▸ hdrop))
  | @drop m j hm hjobs =>
    have hsuffix : m.jobs <:+ n.jobs := (List.suffix_cons j m.jobs).trans (hjobs ▸ hdrop)
    have hlength : m.jobs.length < n.jobs.length := by
      have := hdrop.length_le
      rwa [hjobs, List.length_cons] at this
    exact onward_round hv hm hsettings hsuffix hlength hrounds (by omega)
  | @begins m j origin rest hrest hpending hm hfirst hjobs =>
    have hasks : m.Asks ⟨j, .start origin j.batch n.settings.downloadCap j.peer, rest⟩ :=
      ⟨hm, hfirst, congrArg SyncSettings.downloadCap hsettings.symm, hpending, fun _ => rfl, hrest⟩
    have horigins := Nat.mul_le_mul_right n.settings.downloadCap hrest
    refine onward_asks hv hasks hsettings (hjobs ▸ hdrop) hrounds ?_
    dsimp only [Download.start]
    omega

theorem Asks.congr {d : JobDownload} (h : n.Asks d) (hcall : m.call = n.call)
    (hstore : m.board.store = n.board.store) (hsettings : m.settings = n.settings) : m.Asks d where
  call := hcall.trans h.call
  first := hstore ▸ h.first
  cap_eq := hsettings ▸ h.cap_eq
  pending := h.pending
  unregistered := h.unregistered
  origins_le := h.origins_le

theorem Asks.count_lt (h : n.Asks d) : d.download.count < n.settings.downloadCap := by
  have hover : ¬ (d.download.ended = true ∨ d.download.cap ≤ d.download.count) := by
    intro hover
    have hpending := h.pending
    simp [Download.request?, hover] at hpending
  rw [not_or, Nat.not_le, h.cap_eq] at hover
  exact hover.2

theorem onward_answerTurn (h : n.Asks d) (hn : n.board.store.Valid) {answer : BatchAnswer}
    {t : CallTurn χ} (ht : n.AnswerTurn d answer t) (hv : t.node.board.store.Valid)
    (hsettings : t.node.settings = n.settings) : n.Onward t.node 0 := by
  have hrounds := roundsLeft_asking h.call
  have hsteps := stepsLeft_asking h.call
  have hcount := h.count_lt
  have hjobs : n.jobs = d.job :: n.jobs.tail := hn.toList_eq_cons h.first
  have hremoved : ∀ k : Node χ, k.board.store = (n.board.store.remove d.job.id).2 →
      k.jobs = n.jobs.tail := by
    intro k hk
    rw [jobs, hk, hn.toList_remove_first h.first, jobs]
  cases ht with
  | @next batch m last hlast hpending hm hboard =>
    have hsame : m.jobs = n.jobs := by rw [jobs, hboard, store_registerTarget, jobs]
    have hpos := List.length_pos_of_mem (List.mem_of_getLast? hlast)
    have hextend : (d.download.extend batch last).count = d.download.count + batch.length := rfl
    have hasks : m.Asks { d with download := d.download.extend batch last } := {
      call := hm
      first := by rw [hboard, store_registerTarget, h.first]
      cap_eq := h.cap_eq.trans (congrArg SyncSettings.downloadCap hsettings.symm)
      pending := hpending
      unregistered := fun hzero => absurd (hextend.symm.trans hzero) (by omega)
      origins_le := h.origins_le }
    refine onward_asks hv hasks hsettings ⟨[], hsame⟩ hrounds ?_
    dsimp only
    omega
  | @retarget m origin rest hzero hlt hpending hm hboard =>
    have hsame : m.jobs = n.jobs := by rw [jobs, hboard, jobs]
    have hasks : m.Asks ⟨d.job, .start origin d.job.batch n.settings.downloadCap d.job.peer, rest⟩ := {
      call := hm
      first := by rw [hboard, h.first]
      cap_eq := congrArg SyncSettings.downloadCap hsettings.symm
      pending := hpending
      unregistered := fun _ => rfl
      origins_le := Nat.le_trans (Nat.le_of_lt hlt) h.origins_le }
    have horigins := Nat.mul_le_mul_right n.settings.downloadCap hlt
    rw [Nat.succ_mul] at horigins
    refine onward_asks hv hasks hsettings ⟨[], hsame⟩ hrounds ?_
    dsimp only [Download.start]
    omega
  | @barren m hm hstore =>
    have htail := hremoved m hstore
    have hlength : m.jobs.length < n.jobs.length := by
      rw [htail, hjobs]
      exact Nat.lt_succ_self _
    exact onward_round hv hm hsettings (htail ▸ List.tail_suffix _) hlength hrounds (by omega)
  | @advance batch m k hk hm hstore =>
    have hid : k.id = d.job.id := by
      obtain ⟨current, deadline, finished, rfl⟩ := hk
      rfl
    have hupdated : m.jobs = k :: n.jobs.tail := by
      rw [jobs, hstore, hn.toList_update_first h.first hid, jobs]
    exact onward_none hv hm (Nat.zero_le _) (by omega)
      ⟨[], n.jobs, rfl, .inr ⟨d.job, k, n.jobs.tail, hjobs, hk, hupdated⟩⟩
  | spare hm hstore | broken _ hm hstore =>
    refine onward_none hv hm (Nat.zero_le _) (by omega) (shortened_of_suffix ⟨[], ?_⟩)
    rw [List.nil_append, CallTurn.node, jobs, hstore, jobs]
  | @fail answer m e hm hstore =>
    exact onward_none hv hm (Nat.zero_le _) (by omega)
      (shortened_of_suffix (hremoved m hstore ▸ List.tail_suffix _))

end ChainNode.Node

import ChainNode.Proofs.Sync.Candidates

/-!
# Who is asked next

Calls on the announcements are logged with their answers. A peer is handed out as the next to be asked
for a block only if it announced the block after the announcement that was let through, and each such
announcement is good for one time (`AnnouncementLog.Offers`). The peer whose announcement was let
through is not kept out: it is handed out like any other if it announces the block again
(`AnnouncementCache.not_kept_out`), and only then (`AnnouncementCache.handed_out_announced_again`).
-/

namespace ChainNode

/-- Calls with their times and their answers, the first one first. -/
abbrev AnnouncementLog := List ((Instant × AnnouncementCall) × AnnouncementAnswer)

namespace AnnouncementLog

/-- What is logged of calls, made one after the other. -/
def of {σ : Type} (perform : σ → Instant → AnnouncementCall → AnnouncementAnswer × σ) (s : σ)
    (calls : List (Instant × AnnouncementCall)) : AnnouncementLog :=
  calls.zip (performAll perform s calls).1

/-- A peer made a further announcement of a block; since then it has not been handed out, and the
candidates for the block have not been cleared. -/
def Offers (log : AnnouncementLog) (hash : Hash) (p : Peer) : Prop :=
  ∃ (early late : AnnouncementLog) (t : Instant) (height : UInt64),
    log = early ++ ((t, .add hash height p), .letThrough false) :: late ∧
      ∀ e ∈ late, e.1.2 ≠ .clearCandidates hash ∧
        (e.1.2 = .nextCandidate hash → e.2 ≠ .candidate (some p))

variable {log : AnnouncementLog} {hash : Hash} {p : Peer}

theorem Offers.concat (h : log.Offers hash p) {e : (Instant × AnnouncementCall) × AnnouncementAnswer}
    (hclear : e.1.2 ≠ .clearCandidates hash)
    (hnext : e.1.2 = .nextCandidate hash → e.2 ≠ .candidate (some p)) :
    Offers (log ++ [e]) hash p := by
  obtain ⟨early, late, t, height, rfl, hlate⟩ := h
  refine ⟨early, late ++ [e], t, height, by simp, ?_⟩
  rw [List.forall_mem_append, List.forall_mem_singleton]
  exact ⟨hlate, hclear, hnext⟩

theorem offers_concat_add (log : AnnouncementLog) (t : Instant) (hash : Hash) (height : UInt64)
    (p : Peer) : Offers (log ++ [((t, .add hash height p), .letThrough false)]) hash p :=
  ⟨log, [], t, height, rfl, by simp⟩

section Of
variable {σ : Type} {perform : σ → Instant → AnnouncementCall → AnnouncementAnswer × σ} {s : σ}

theorem of_cons (call : Instant × AnnouncementCall) (rest : List (Instant × AnnouncementCall)) :
    of perform s (call :: rest) = (call, (perform s call.1 call.2).1) ::
      of perform (perform s call.1 call.2).2 rest := rfl

theorem of_eq_cons {calls : List (Instant × AnnouncementCall)} {now : Instant}
    {call : AnnouncementCall} {answer : AnnouncementAnswer} {log : AnnouncementLog}
    (h : of perform s calls = ((now, call), answer) :: log) :
    ∃ rest, calls = (now, call) :: rest ∧ (perform s now call).1 = answer ∧
      of perform (perform s now call).2 rest = log := by
  cases calls with
  | nil => cases h
  | cons first rest =>
    rw [of_cons] at h
    obtain ⟨hhead, rfl⟩ := List.cons.inj h
    obtain ⟨rfl, rfl⟩ := Prod.mk.inj hhead
    exact ⟨rest, rfl, rfl, rfl⟩

/-- A log is taken apart where the calls are. -/
theorem of_eq_append {calls : List (Instant × AnnouncementCall)} {first second : AnnouncementLog}
    (h : of perform s calls = first ++ second) :
    ∃ early late, calls = early ++ late ∧ of perform s early = first ∧
      of perform (performAll perform s early).2 late = second := by
  induction first generalizing s calls with
  | nil => exact ⟨[], calls, rfl, rfl, h⟩
  | cons e first ih =>
    obtain ⟨⟨now, call⟩, answer⟩ := e
    obtain ⟨rest, rfl, hanswer, hrest⟩ := of_eq_cons h
    obtain ⟨early, late, rfl, hearly, hlate⟩ := ih hrest
    exact ⟨(now, call) :: early, late, rfl, by rw [of_cons, hearly, hanswer], hlate⟩

end Of

end AnnouncementLog

/-! ## The candidates have announced the block -/

namespace AnnouncementMap

variable {m : AnnouncementMap} {ttl : Duration} {now next t : Instant} {hash : Hash}
  {log : AnnouncementLog}

/-- A block that was let through at `t` is remembered, and its candidates are those that the log since
then offers, each once. -/
structure Offering (m : AnnouncementMap) (ttl : Duration) (now : Instant) (hash : Hash) (t : Instant)
    (log : AnnouncementLog) : Prop where
  ttl_eq : m.ttl = ttl
  exists_found : ∃ a, m.find? now hash = some a ∧ a.since = t ∧ a.candidates.Nodup ∧
    ∀ p ∈ a.candidates, log.Offers hash p

theorem ttl_performAll (m : AnnouncementMap) (calls : List (Instant × AnnouncementCall)) :
    (performAll AnnouncementMap.perform m calls).2.ttl = m.ttl := by
  induction calls generalizing m with
  | nil => rfl
  | cons call rest ih => exact (ih _).trans (m.ttl_perform call.1 call.2)

theorem Offering.later (h : m.Offering ttl now hash t log) (hlive : next < t.after ttl) :
    m.Offering ttl next hash t log := by
  obtain ⟨a, ha, rfl, hnodup, hoffers⟩ := h.exists_found
  exact ⟨h.ttl_eq, a, find?_later ha (h.ttl_eq ▸ hlive), rfl, hnodup, hoffers⟩

/-- A block that is let through has no candidates at first. -/
theorem offering_admitted {height : UInt64} {sender : Peer} (hlive : t < t.after m.ttl)
    (hnew : (m.perform t (.add hash height sender)).1 = .letThrough true) :
    (m.perform t (.add hash height sender)).2.Offering m.ttl t hash t [] := by
  have hnew : (m.add t hash height sender).1 = true := AnnouncementAnswer.letThrough.inj hnew
  show (m.add t hash height sender).2.Offering m.ttl t hash t []
  cases hfind : m.find? t hash with
  | some a =>
    rw [(find?_add hfind height sender).1] at hnew
    cases hnew
  | none =>
    rw [add, hfind]
    refine ⟨rfl, ⟨height, [], t⟩, ?_, rfl, List.nodup_nil, by simp⟩
    exact find?_eq_some_iff.mpr ⟨Std.ExtTreeMap.getElem?_insert_self, hlive⟩

/-- A call that takes no candidates of the block away and adds none. -/
theorem Offering.aside (h : m.Offering ttl now hash t log) {call : AnnouncementCall}
    {answer : AnnouncementAnswer} {m' : AnnouncementMap} (httl : m'.ttl = m.ttl)
    (hfind : m'.find? now hash = m.find? now hash) (hclear : call ≠ .clearCandidates hash)
    (hnext : call ≠ .nextCandidate hash) :
    m'.Offering ttl now hash t (log ++ [((now, call), answer)]) := by
  obtain ⟨a, ha, hsince, hnodup, hoffers⟩ := h.exists_found
  refine ⟨httl.trans h.ttl_eq, a, hfind.trans ha, hsince, hnodup, fun p hp => ?_⟩
  exact (hoffers p hp).concat hclear fun he => absurd he hnext

/-- What is said about the candidates stays right with one more call. -/
theorem Offering.perform (h : m.Offering ttl now hash t log) (call : AnnouncementCall) :
    (m.perform now call).2.Offering ttl now hash t
      (log ++ [((now, call), (m.perform now call).1)]) := by
  have httl := (m.ttl_perform now call).trans h.ttl_eq
  obtain ⟨a, ha, hsince, hnodup, hoffers⟩ := h.exists_found
  cases call with
  | height | size => exact h.aside rfl rfl (by simp) (by simp)
  | add other height sender =>
    by_cases hother : other = hash
    · subst hother
      obtain ⟨hanswer, hfind⟩ := find?_add ha height sender
      refine ⟨httl, _, hfind, hsince, ?_, ?_⟩
      · split
        · rwa [List.append_nil]
        · rename_i hnew
          exact List.concat_eq_append ▸ hnodup.concat hnew
      · intro p hp
        rcases List.mem_append.mp hp with hp | hp
        · exact (hoffers p hp).concat (by simp) (by simp)
        · split at hp
          · cases hp
          · obtain rfl := List.mem_singleton.mp hp
            simp only [AnnouncementMap.perform, Prod.map_fst, hanswer]
            exact AnnouncementLog.offers_concat_add ..
    · exact h.aside (m.ttl_perform ..) (find?_add_of_ne hother height sender) (by simp)
        (by simp)
  | nextCandidate other =>
    by_cases hother : other = hash
    · subst hother
      obtain ⟨hanswer, hfind⟩ := find?_nextCandidate ha
      refine ⟨httl, _, hfind, hsince, hnodup.tail, fun p hp => ?_⟩
      -- The peer that is handed out stands nowhere else among the candidates.
      refine (hoffers p (List.mem_of_mem_tail hp)).concat (by simp) fun _ hanswered => ?_
      simp only [AnnouncementMap.perform, Prod.map_fst, hanswer, AnnouncementAnswer.candidate.injEq]
        at hanswered
      obtain ⟨rest, hrest⟩ := List.head?_eq_some_iff.mp hanswered
      rw [hrest] at hp hnodup
      exact (List.nodup_cons.mp hnodup).1 hp
    · exact h.aside (m.ttl_perform ..) (find?_nextCandidate_of_ne hother) (by simp)
        fun he => hother (AnnouncementCall.nextCandidate.inj he)
  | clearCandidates other =>
    by_cases hother : other = hash
    · subst hother
      exact ⟨httl, _, find?_clearCandidates ha, hsince, List.nodup_nil, by simp⟩
    · exact h.aside (m.ttl_perform ..) (find?_clearCandidates_of_ne hother)
        (fun he => hother (AnnouncementCall.clearCandidates.inj he)) (by simp)

theorem Offering.performAll (h : m.Offering ttl now hash t log)
    {calls : List (Instant × AnnouncementCall)} (hcalls : ∀ call ∈ calls, call.1 ≤ next)
    (hlive : next < t.after ttl) :
    (performAll AnnouncementMap.perform m calls).2.Offering ttl next hash t
      (log ++ .of AnnouncementMap.perform m calls) := by
  induction calls generalizing m log now with
  | nil => exact (List.append_nil log).symm ▸ h.later hlive
  | cons call rest ih =>
    obtain ⟨hcall, hrest⟩ := List.forall_mem_cons.mp hcalls
    have hstep := (h.later (Int.lt_of_le_of_lt hcall hlive)).perform call.2
    rw [AnnouncementLog.of_cons, List.append_cons]
    exact ih hstep hrest

/-- A peer that is handed out has been offered. -/
theorem Offering.offers (h : m.Offering ttl now hash t log) {p : Peer}
    (hnext : (m.nextCandidate now hash).1 = some p) : log.Offers hash p := by
  obtain ⟨a, ha, -, -, hoffers⟩ := h.exists_found
  rw [(find?_nextCandidate ha).1] at hnext
  exact hoffers p (List.mem_of_mem_head? hnext)

end AnnouncementMap

namespace AnnouncementCache

variable {c : AnnouncementCache} {m : AnnouncementMap} {last : Instant}
  {calls : List (Instant × AnnouncementCall)} {before after : AnnouncementLog}
  {call : Instant × AnnouncementCall} {answer : AnnouncementAnswer}

theorem panicked_of_poisoned (hp : c.poisoned = true) :
    ∀ e ∈ AnnouncementLog.of perform c calls, e.2 = .panicked .poisonedLock := by
  induction calls with
  | nil => nofun
  | cons call rest ih =>
    rw [AnnouncementLog.of_cons, perform_of_poisoned hp]
    exact List.forall_mem_cons.mpr ⟨rfl, ih⟩

/-- Up to an answer that is no panic, the log of a cache is that of the map that it stands for: there
is no panic before it either. -/
theorem Represents.log_eq (h : c.Represents last m) (hlast : ∀ call ∈ calls, last ≤ call.1)
    (htimes : calls.Pairwise fun earlier later => earlier.1 ≤ later.1)
    (hlog : AnnouncementLog.of AnnouncementCache.perform c calls = before ++ (call, answer) :: after)
    (hanswer : ∀ p, answer ≠ .panicked p) :
    ∃ after', AnnouncementLog.of AnnouncementMap.perform m calls =
      before ++ (call, answer) :: after' := by
  induction before generalizing c m last calls with
  | nil =>
    obtain ⟨rest, rfl, hfirst, -⟩ := AnnouncementLog.of_eq_cons hlog
    obtain ⟨-, hsame, -⟩ | ⟨p, -, hpanic, -⟩ := (h.later (hlast call List.mem_cons_self)).perform call.2
    · exact ⟨_, by rw [AnnouncementLog.of_cons, ← hsame, hfirst]; rfl⟩
    · exact absurd (hfirst.symm.trans hpanic) (hanswer p)
  | cons e before ih =>
    obtain ⟨rest, rfl, hfirst, hrest⟩ := AnnouncementLog.of_eq_cons hlog
    obtain ⟨hle, hlater⟩ := List.pairwise_cons.mp htimes
    obtain ⟨-, hsame, -, hafter⟩ | ⟨p, -, -, hp, -⟩ :=
      (h.later (hlast e.1 List.mem_cons_self)).perform e.1.2
    · obtain ⟨after', hmap⟩ := ih hafter hle hlater hrest
      refine ⟨after', (AnnouncementLog.of_cons e.1 rest).trans ?_⟩
      rw [← hsame, hfirst, hmap]
      rfl
    · have hmem : (call, answer) ∈ before ++ (call, answer) :: after := by simp
      rw [← List.append_eq, ← hrest] at hmem
      exact absurd (panicked_of_poisoned hp _ hmem) (hanswer _)

/-- **Only who announced the block again is handed out.** Whatever is asked of the cache, at times that
do not go back: while an announcement that was let through has not expired, a peer that is handed out
for the block has announced it since then, and it has not been handed out after that nor have the
candidates been cleared. So it is not the peer whose announcement was let through, unless that peer
announced the block again. -/
theorem handed_out_announced_again (ttl : Duration) {calls : List (Instant × AnnouncementCall)}
    (htimes : calls.Pairwise fun earlier later => earlier.1 ≤ later.1)
    {before between after : AnnouncementLog} {t u : Instant} {hash : Hash} {height : UInt64}
    {first p : Peer}
    (hlog : AnnouncementLog.of perform (empty ttl) calls =
      before ++ ((t, .add hash height first), .letThrough true) :: between ++
        ((u, .nextCandidate hash), .candidate (some p)) :: after)
    (hlive : u < t.after ttl) :
    between.Offers hash p ∧
      ((∀ e ∈ between, ∀ height, e.1.2 ≠ .add hash height first) → p ≠ first) := by
  obtain ⟨start, hstart⟩ := exists_start htimes
  obtain ⟨after', hlog⟩ := (represents_empty ttl start).log_eq hstart htimes hlog (by simp)
  rw [List.append_assoc, List.cons_append] at hlog
  -- The calls before the announcement that was let through, those after it, and those from the
  -- request on.
  obtain ⟨early, _, rfl, -, hadded⟩ := AnnouncementLog.of_eq_append hlog
  obtain ⟨_, rfl, hnew, hlater⟩ := AnnouncementLog.of_eq_cons hadded
  obtain ⟨middle, _, rfl, hbetween, hasked⟩ := AnnouncementLog.of_eq_append hlater
  obtain ⟨_, rfl, hnext, -⟩ := AnnouncementLog.of_eq_cons hasked
  obtain ⟨hfirst, hmiddle⟩ := List.pairwise_cons.mp (List.pairwise_append.mp htimes).2.1
  have hcalls : ∀ call ∈ middle, call.1 ≤ u := fun call hcall =>
    (List.pairwise_append.mp hmiddle).2.2 call hcall _ List.mem_cons_self
  have htu : t ≤ u := hfirst (u, .nextCandidate hash) (by simp)
  have httl : (performAll AnnouncementMap.perform (.empty ttl) early).2.ttl = ttl :=
    AnnouncementMap.ttl_performAll _ early
  have hstart := AnnouncementMap.offering_admitted (httl.symm ▸ Int.lt_of_le_of_lt htu hlive)
    hnew
  rw [httl] at hstart
  have hoffers := (hstart.performAll hcalls hlive).offers (AnnouncementAnswer.candidate.inj hnext)
  rw [List.nil_append, hbetween] at hoffers
  refine ⟨hoffers, ?_⟩
  rintro hagain rfl
  obtain ⟨first, last, v, height', rfl, -⟩ := hoffers
  exact hagain ((v, .add hash height' p), .letThrough false) (by simp) height' rfl

/-- Of two peers that announce a block after the first one, one does so again once the candidates have
been cleared, and is handed out. -/
theorem handed_out_announced_again_cleared :
    let hash : Hash := ⟨Vector.replicate 32 1⟩
    let calls : List (Instant × AnnouncementCall) :=
      [(0, .add hash 5 "a"), (1, .add hash 5 "b"), (2, .add hash 5 "c"), (3, .clearCandidates hash),
        (4, .add hash 5 "c"), (5, .nextCandidate hash)]
    let between : AnnouncementLog :=
      [((1, .add hash 5 "b"), .letThrough false), ((2, .add hash 5 "c"), .letThrough false),
        ((3, .clearCandidates hash), .cleared), ((4, .add hash 5 "c"), .letThrough false)]
    AnnouncementLog.of perform (empty ⟨20⟩) calls = ((0, .add hash 5 "a"), .letThrough true) ::
        between ++ [((5, .nextCandidate hash), .candidate (some "c"))] ∧
      between.Offers hash "c" ∧ "c" ≠ "a" := by
  intro hash calls between
  have hanswers : (performAll perform (empty ⟨20⟩) calls).1 = [.letThrough true, .letThrough false,
      .letThrough false, .cleared, .letThrough false, .candidate (some "c")] := by decide +kernel
  have hlog : AnnouncementLog.of perform (empty ⟨20⟩) calls =
      [] ++ ((0, .add hash 5 "a"), .letThrough true) :: between ++
        [((5, .nextCandidate hash), .candidate (some "c"))] := congrArg calls.zip hanswers
  obtain ⟨hoffers, hother⟩ := handed_out_announced_again ⟨20⟩ (by decide) hlog (by decide)
  exact ⟨hlog, hoffers, hother (by simp [between])⟩

/-- The peer whose announcement was let through can be handed out: it is enough that it announces the
block once more. -/
theorem not_kept_out : ¬ ∀ (ttl : Duration) (calls : List (Instant × AnnouncementCall)),
    (calls.Pairwise fun earlier later => earlier.1 ≤ later.1) →
    ∀ (before between after : AnnouncementLog) (t u : Instant) (hash : Hash) (height : UInt64)
      (first p : Peer),
    AnnouncementLog.of perform (empty ttl) calls =
      before ++ ((t, .add hash height first), .letThrough true) :: between ++
        ((u, .nextCandidate hash), .candidate (some p)) :: after →
    u < t.after ttl → p ≠ first := by
  intro h
  let hash : Hash := ⟨Vector.replicate 32 1⟩
  let calls : List (Instant × AnnouncementCall) :=
    [(0, .add hash 5 "a"), (1, .add hash 5 "a"), (2, .nextCandidate hash)]
  have hanswers : (performAll perform (empty ⟨20⟩) calls).1 =
      [.letThrough true, .letThrough false, .candidate (some "a")] := by decide +kernel
  exact h ⟨20⟩ calls (by decide) [] [((1, .add hash 5 "a"), .letThrough false)] [] 0 2 hash 5 "a" "a"
    (congrArg calls.zip hanswers) (by decide) rfl

end AnnouncementCache

end ChainNode

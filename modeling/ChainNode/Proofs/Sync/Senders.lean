import ChainNode.Proofs.Sync.Fetching

/-!
# A fetch follows the senders

An announcement that is let through starts a fetch from its sender. The fetch asks one peer after the
other, each a number of times, and the peers are the sender and then those that announced the block
while it was being fetched, in that order (`Node.fetch_follows_senders`). `Node.FetchStage` is where a
fetch stands: the attempts that are left are those at the peer that is being asked, and then those at
the candidates. This needs the fetch to be the only one of its block: two of them share the candidates
(`Node.not_asked_in_turn`).
-/

namespace ChainNode

/-- Each of some peers in turn, the first attempt and so many more. -/
def attempts (retries : Nat) (peers : List Peer) : List (Option Peer) :=
  peers.flatMap fun peer => List.replicate (retries + 1) (some peer)

theorem attempts_append (retries : Nat) (peers more : List Peer) :
    attempts retries (peers ++ more) = attempts retries peers ++ attempts retries more :=
  List.flatMap_append

theorem attempts_cons (retries : Nat) (peer : Peer) (peers : List Peer) :
    attempts retries (peer :: peers) =
      List.replicate (retries + 1) (some peer) ++ attempts retries peers := rfl

namespace Node

variable {χ κ α : Type} [ChainService χ] {n m : Node χ}

/-! ## Watching a run -/

/-- What is seen of a run, event by event. -/
def observe (act : κ → χ → χ) (see : Node χ → Event κ → List α) : Node χ → List (Event κ) → List α
  | _, [] => []
  | n, e :: rest => see n e ++ match step act n e with
    | none => []
    | some m => observe act see m rest

theorem observe_concat {act : κ → χ → χ} {see : Node χ → Event κ → List α} {past : List (Event κ)}
    (h : run act n past = some m) (e : Event κ) :
    observe act see n (past ++ [e]) = observe act see n past ++ see m e := by
  induction past generalizing n with
  | nil =>
    obtain rfl := Option.some.inj h
    show see n e ++ _ = [] ++ see n e
    cases step act n e <;> exact List.append_nil _
  | cons first rest ih =>
    rw [run_cons] at h
    obtain ⟨k, hk, hrest⟩ := Option.bind_eq_some_iff.mp h
    simp only [List.cons_append, observe, hk, ih hrest, List.append_assoc]

/-- What there is to note of the fetches of a block in a run. -/
def fetchLog (act : κ → χ → χ) (hash : Hash) : Node χ → List (Event κ) → List FetchNote :=
  observe act fun n e => (n.fetchNote? hash e).toList

/-- The peers that become candidates for a block while it is being fetched, in order. -/
def joined (act : κ → χ → χ) (hash : Hash) : Node χ → List (Event κ) → List Peer :=
  observe act fun n e => if (n.fetches hash).isEmpty then [] else n.joins hash (n.notice? e)

/-- Time does not go back. -/
theorem now_le_step {act : κ → χ → χ} {e : Event κ} (h : step act n e = some m) : n.now ≤ m.now := by
  have hrecalls := recalls_step h
  generalize n.notice? e = x at hrecalls
  cases hrecalls with
  | screen _ hnow | clear _ hnow | next _ hnow => exact Int.le_of_eq hnow.symm
  | keep hnow => exact hnow

theorem now_le_run {act : κ → χ → χ} {events : List (Event κ)} (h : run act n events = some m) :
    n.now ≤ m.now :=
  run_invariant (P := fun k => n.now ≤ k.now)
    (fun _ _ _ _ hk hstep => Int.le_trans hk (now_le_step hstep)) (Int.le_refl _) h

theorem run_through {act : κ → χ → χ} {k k₁ : Node χ} {past events : List (Event κ)} {e : Event κ}
    (hk : run act n past = some k) (hstep : step act k e = some k₁)
    (hrun : run act k₁ events = some m) : run act n (past ++ e :: events) = some m := by
  rw [run_append, hk, Option.bind_some, run_cons, hstep]
  exact hrun

/-! ## Where a fetch stands -/

/-- Where the only fetch of a block stands, by what was noted of it: the attempts that are left. -/
inductive FetchStage (n : Node χ) (block : Tip) (retries : Nat) (log : List FetchNote) :
    List (Option Peer) → Prop
  /-- The next attempt is enqueued. -/
  | due {peer : Peer} {more : Nat}
    (hfetch : n.fetches block.hash = [.fetch ⟨block, some peer⟩ more])
    (hgoing : ∀ note ∈ log, note.ends = false)
    (hcount : log.count .refused = (log.filterMap FetchNote.asked?).length) :
    FetchStage n block retries log
      (List.replicate (more + 1) (some peer) ++ attempts retries (n.candidates block.hash))
  /-- A peer is being asked. -/
  | asking {peer : Peer} {more : Nat}
    (hfetch : n.fetches block.hash = [.fetching ⟨block, some peer⟩ more])
    (hgoing : ∀ note ∈ log, note.ends = false)
    (hcount : log.count .refused + 1 = (log.filterMap FetchNote.asked?).length) :
    FetchStage n block retries log
      (List.replicate more (some peer) ++ attempts retries (n.candidates block.hash))
  /-- All attempts have been made. -/
  | spent (hfetch : n.fetches block.hash = []) (hgoing : ∀ note ∈ log, note.ends = false)
    (hcount : log.count .refused = (log.filterMap FetchNote.asked?).length) :
    FetchStage n block retries log []
  /-- The fetch has ended before. -/
  | ended {before : List FetchNote} {last : FetchNote} (left : List (Option Peer))
    (hfetch : n.fetches block.hash = []) (hlog : log = before ++ [last])
    (hgoing : ∀ note ∈ before, note.ends = false) (hends : last.ends = true) :
    FetchStage n block retries log left

theorem going_concat {log : List FetchNote} {note : FetchNote}
    (h : ∀ note ∈ log, note.ends = false) (hnote : note.ends = false) :
    ∀ x ∈ log ++ [note], x.ends = false := by
  intro x hx
  rcases List.mem_append.mp hx with hx | hx
  · exact h x hx
  · rwa [List.mem_singleton.mp hx]

theorem asked?_concat_of_ends {log : List FetchNote} {note : FetchNote} (h : note.ends = true) :
    (log ++ [note]).filterMap FetchNote.asked? = log.filterMap FetchNote.asked? := by
  rw [List.filterMap_append]
  cases note with
  | asked | refused => cases h
  | received | known | heldUp | failed => exact List.append_nil _

section FetchStage
variable {block : Tip} {retries : Nat} {log : List FetchNote} {left : List (Option Peer)}
  {a : Announcement}

omit [ChainService χ] in
/-- A fetch that is about to begin has made no attempt at its peer that was not answered. -/
theorem FetchStage.of_fetch (h : n.FetchStage block retries log left) {w : Wanted} {more : Nat}
    {rest : List Work} (hn : n.fetches block.hash = .fetch w more :: rest) :
    rest = [] ∧ (∀ note ∈ log, note.ends = false) ∧
      log.count .refused = (log.filterMap FetchNote.asked?).length ∧
      ∃ peer, w = ⟨block, some peer⟩ ∧ left =
        List.replicate (more + 1) (some peer) ++ attempts retries (n.candidates block.hash) := by
  cases h with
  | due hfetch hgoing hcount =>
    rw [hfetch] at hn
    obtain ⟨hwork, rfl⟩ := List.cons.inj hn
    obtain ⟨rfl, rfl⟩ := Work.fetch.inj hwork
    exact ⟨rfl, hgoing, hcount, _, rfl, rfl⟩
  | asking hfetch =>
    rw [hfetch] at hn
    cases (List.cons.inj hn).1
  | spent hfetch | ended _ hfetch =>
    rw [hfetch] at hn
    cases hn

omit [ChainService χ] in
/-- A fetch that waits for its peer has made one attempt that was not answered. -/
theorem FetchStage.of_fetching (h : n.FetchStage block retries log left) {w : Wanted} {more : Nat}
    {rest : List Work} (hn : n.fetches block.hash = .fetching w more :: rest) :
    rest = [] ∧ (∀ note ∈ log, note.ends = false) ∧
      log.count .refused + 1 = (log.filterMap FetchNote.asked?).length ∧
      ∃ peer, w = ⟨block, some peer⟩ ∧ left =
        List.replicate more (some peer) ++ attempts retries (n.candidates block.hash) := by
  cases h with
  | asking hfetch hgoing hcount =>
    rw [hfetch] at hn
    obtain ⟨hwork, rfl⟩ := List.cons.inj hn
    obtain ⟨rfl, rfl⟩ := Work.fetching.inj hwork
    exact ⟨rfl, hgoing, hcount, _, rfl, rfl⟩
  | due hfetch =>
    rw [hfetch] at hn
    cases (List.cons.inj hn).1
  | spent hfetch | ended _ hfetch =>
    rw [hfetch] at hn
    cases hn

omit [ChainService χ] in
/-- One event brings a fetch from one stage to the next; who joins is put behind what is left. -/
theorem FetchStage.turn (h : n.FetchStage block retries log left)
    (hretries : n.settings.retries = retries) (ha : n.recalled? block.hash = some a)
    {note : Option FetchNote} {joins : List Peer}
    (ht : n.FetchTurn block.hash a note joins m) :
    ∃ left', m.FetchStage block retries (log ++ note.toList) left' ∧
      (log ++ note.toList).filterMap FetchNote.asked? ++ left' =
        log.filterMap FetchNote.asked? ++ left ++
          attempts retries (if (n.fetches block.hash).isEmpty then [] else joins) := by
  have hcandidates := candidates_of_recalled? ha
  cases ht with
  | pass hm ha' =>
    have hcandidates' := candidates_of_recalled? ha'
    rw [← hcandidates] at hcandidates'
    simp only [Option.toList_none, List.append_nil]
    cases h with
    | @due peer more hfetch hgoing hcount =>
      refine ⟨_, .due (hm.trans hfetch) hgoing hcount, ?_⟩
      rw [hcandidates', attempts_append, hfetch]
      simp only [List.append_assoc]
      rfl
    | @asking peer more hfetch hgoing hcount =>
      refine ⟨_, .asking (hm.trans hfetch) hgoing hcount, ?_⟩
      rw [hcandidates', attempts_append, hfetch]
      simp only [List.append_assoc]
      rfl
    | spent hfetch hgoing hcount =>
      refine ⟨[], .spent (hm.trans hfetch) hgoing hcount, ?_⟩
      rw [hfetch]
      simp [attempts]
    | ended _ hfetch hlog hgoing hends =>
      refine ⟨left, .ended left (hm.trans hfetch) hlog hgoing hends, ?_⟩
      rw [hfetch]
      simp [attempts]
  | @asked w more rest _ hn hm ha' =>
    obtain ⟨rfl, hgoing, hcount, peer, rfl, rfl⟩ := h.of_fetch hn
    refine ⟨_, .asking hm (going_concat hgoing rfl) ?_, ?_⟩
    · simp [hcount, FetchNote.asked?]
    · rw [candidates_of_recalled? ha', hcandidates, ite_self]
      simp [attempts, FetchNote.asked?, List.replicate_succ]
  | @stopped note w more rest _ hends hattached hn hm ha' =>
    obtain ⟨rfl, hgoing, -⟩ := h.of_fetch hn
    refine ⟨left, .ended left hm rfl hgoing hends, ?_⟩
    rw [ite_self, Option.toList_some, asked?_concat_of_ends hends]
    exact (List.append_nil _).symm
  | @received b w more rest _ hn hm ha' =>
    obtain ⟨rfl, hgoing, -⟩ := h.of_fetching hn
    refine ⟨left, .ended left hm rfl hgoing rfl, ?_⟩
    rw [ite_self, Option.toList_some, asked?_concat_of_ends rfl]
    exact (List.append_nil _).symm
  | @again w more rest _ hn hm ha' =>
    obtain ⟨rfl, hgoing, hcount, peer, rfl, rfl⟩ := h.of_fetching hn
    refine ⟨_, .due hm (going_concat hgoing rfl) ?_, ?_⟩
    · simp [← hcount, FetchNote.asked?]
    · rw [candidates_of_recalled? ha', hcandidates, ite_self]
      simp [attempts, FetchNote.asked?]
  | @next w rest peer' candidates _ hn hnext hm ha' =>
    obtain ⟨rfl, hgoing, hcount, peer, rfl, rfl⟩ := h.of_fetching hn
    rw [hretries] at hm
    refine ⟨_, .due hm (going_concat hgoing rfl) ?_, ?_⟩
    · simp [← hcount, FetchNote.asked?]
    · rw [candidates_of_recalled? ha', hcandidates, hnext, attempts_cons, ite_self]
      simp [attempts, FetchNote.asked?]
  | @gaveUp w rest _ hn hnone hm ha' =>
    obtain ⟨rfl, hgoing, hcount, peer, rfl, rfl⟩ := h.of_fetching hn
    refine ⟨_, .spent hm (going_concat hgoing rfl) ?_, ?_⟩
    · simp [← hcount, FetchNote.asked?]
    · rw [hcandidates, hnone, ite_self]
      simp [attempts, FetchNote.asked?]

omit [ChainService χ] in
/-- Nothing is noted after the end. -/
theorem FetchStage.ends_last (h : n.FetchStage block retries log left)
    {before after : List FetchNote} {note : FetchNote} (hlog : log = before ++ note :: after)
    (hends : note.ends = true) : after = [] := by
  have hmem : note ∈ log := hlog ▸ List.mem_append_right _ List.mem_cons_self
  cases h with
  | due _ hgoing | asking _ hgoing | spent _ hgoing =>
    rw [hgoing note hmem] at hends
    cases hends
  | @ended going last _ _ hlast hgoing _ =>
    obtain rfl | ⟨rest, final, rfl⟩ := after.eq_nil_or_concat
    · rfl
    · rw [hlast, List.concat_eq_append, ← List.cons_append, ← List.append_assoc] at hlog
      obtain ⟨rfl, -⟩ := List.append_inj' hlog rfl
      rw [hgoing note (List.mem_append_right _ List.mem_cons_self)] at hends
      cases hends

omit [ChainService χ] in
/-- A fetch is over once it has ended, and once every attempt has failed. -/
theorem FetchStage.fetches_eq_nil_iff (h : n.FetchStage block retries log left) :
    n.fetches block.hash = [] ↔ (∃ note ∈ log, note.ends = true) ∨
      log.count .refused = (log.filterMap FetchNote.asked? ++ left).length := by
  have hnone (hgoing : ∀ note ∈ log, note.ends = false) : ¬ ∃ note ∈ log, note.ends = true := by
    rintro ⟨note, hmem, hends⟩
    rw [hgoing note hmem] at hends
    cases hends
  rw [List.length_append]
  cases h with
  | due hfetch hgoing hcount =>
    rw [hfetch, hcount, List.length_append, List.length_replicate]
    exact iff_of_false nofun (not_or.mpr ⟨hnone hgoing, by omega⟩)
  | asking hfetch hgoing hcount =>
    rw [hfetch]
    exact iff_of_false nofun (not_or.mpr ⟨hnone hgoing, by omega⟩)
  | spent hfetch _ hcount => exact iff_of_true hfetch (.inr hcount)
  | @ended _ last _ hfetch hlog _ hends =>
    exact iff_of_true hfetch (.inl ⟨last, hlog ▸ List.mem_append_right _ List.mem_cons_self, hends⟩)

end FetchStage

/-! ## From the first announcement on -/

/-- An announcement is let through and starts a fetch of its block. -/
structure Starts (n : Node χ) (x : Notice) (e : Event κ) : Prop where
  notice : n.notice? e = some x
  announced : e.pushed? = none
  lets : n.lets x = true
  near : n.isNear x.heads x.block.height = .ok true
  available : n.available .fetch = true

section Run
variable {act : κ → χ → χ} {settings : SyncSettings} {now : Instant} {chain : χ} {k : Node χ}
  {past events : List (Event κ)} {x : Notice} {e : Event κ}

omit [ChainService χ] in
theorem syncAnnounced_of_open {heads : Heads} {w : Wanted} {batch : Nat}
    (hnear : n.isNear heads w.block.height = .ok true) (hopen : n.available .fetch = true) :
    (n.syncAnnounced heads w batch).2 = n.enqueueFetch w n.settings.retries := by
  rw [syncAnnounced, hnear]
  exact if_pos hopen

/-- The sender of the announcement is asked first. -/
theorem Starts.begins (h : n.Starts x e) (halone : n.fetches x.block.hash = []) {ttl : Duration}
    {admitted : List (Hash × Instant)} (hr : n.Remembers ttl admitted) (hstep : step act n e = some m)
    (hlive : n.now < n.now.after ttl) (hdated : n.now.after ttl ≤ Instant.last) :
    m.fetches x.block.hash = [.fetch ⟨x.block, some x.sender⟩ n.settings.retries] ∧
      m.recalled? x.block.hash = some ⟨x.block.height, [], n.now⟩ := by
  obtain ⟨chain, hm⟩ := step_of_notice h.notice hstep
  rw [h.announced] at hm
  let k := (({ n with chain } : Node χ).screen x.heads x.block x.sender).2
  have hfetch : m = k.enqueueFetch ⟨x.block, some x.sender⟩ n.settings.retries := by
    rw [hm, announceUnder_eq]
    exact (if_pos h.lets).trans (syncAnnounced_of_open (n := k) h.near h.available)
  rw [hfetch]
  refine ⟨?_, hr.recalled?_admitted h.lets hlive hdated⟩
  rw [enqueueFetch, fetches_enqueue, if_pos ⟨rfl, rfl⟩]
  exact congrArg (· ++ _) halone

/-- What is known of a fetch after some events, counted from the announcement that started it at the
given time. -/
structure Followed (act : κ → χ → χ) (start : Node χ) (block : Tip) (sender : Peer) (since : Instant)
    (events : List (Event κ)) (m : Node χ) : Prop where
  recalled : ∃ a, m.recalled? block.hash = some a ∧ a.since = since
  stage : ∃ left,
    m.FetchStage block start.settings.retries (fetchLog act block.hash start events) left ∧
      (fetchLog act block.hash start events).filterMap FetchNote.asked? ++ left =
        attempts start.settings.retries (sender :: joined act block.hash start events)

theorem Starts.followed_nil {k₁ : Node χ} (hstarts : k.Starts x e)
    (halone : k.fetches x.block.hash = [])
    (hk : run act (new settings now chain) past = some k) (hstep : step act k e = some k₁)
    (hlive : k.now < k.now.after settings.announcementTtl)
    (hdated : k.now.after settings.announcementTtl ≤ Instant.last) :
    Followed act k₁ x.block x.sender k.now [] k₁ := by
  obtain ⟨hfetch, hrecalled⟩ := hstarts.begins halone (remembers_run hk) hstep hlive hdated
  rw [← settings_step hstep] at hfetch
  refine ⟨⟨_, hrecalled, rfl⟩, _, .due hfetch nofun rfl, ?_⟩
  rw [candidates_of_recalled? hrecalled]
  rfl

/-- One more event. -/
theorem Followed.concat {start m' : Node χ} {block : Tip} {sender : Peer} {since : Instant}
    (h : Followed act start block sender since events m) (hm : run act start events = some m)
    {ttl : Duration} {admitted : List (Hash × Instant)} (hr : m.Remembers ttl admitted)
    (hplace : m.InPlace) (hstep : step act m e = some m') (hdirect : e.direct? ≠ some block.hash)
    (hlive : m'.now < since.after ttl) (hdated : since.after ttl ≤ Instant.last) :
    Followed act start block sender since (events ++ [e]) m' := by
  obtain ⟨⟨a, ha, rfl⟩, left, hstage, hsequence⟩ := h
  have hturn := hplace.fetchTurn hr ha hdated hstep hlive hdirect
  obtain ⟨left', hstage', hsequence'⟩ := hstage.turn (congrArg _ (settings_run hm)) ha hturn
  refine ⟨hturn.recalled, left', ?_, ?_⟩
  · rw [fetchLog, observe_concat hm]
    exact hstage'
  · rw [fetchLog, joined, observe_concat hm, observe_concat hm, ← List.cons_append, attempts_append]
    exact hsequence'.trans (congrArg (· ++ _) hsequence)

/-- As long as the announcement has not expired, the fetch follows the senders. -/
theorem Starts.followed {k₁ : Node χ} (hstarts : k.Starts x e)
    (halone : k.fetches x.block.hash = [])
    (hk : run act (new settings now chain) past = some k) (hstep : step act k e = some k₁)
    (hrun : run act k₁ events = some m) (hdirect : ∀ e' ∈ events, e'.direct? ≠ some x.block.hash)
    (hlive : m.now < k.now.after settings.announcementTtl)
    (hdated : k.now.after settings.announcementTtl ≤ Instant.last) :
    Followed act k₁ x.block x.sender k.now events m := by
  refine run_history (P := fun events m => (∀ e' ∈ events, e'.direct? ≠ some x.block.hash) →
    m.now < k.now.after settings.announcementTtl → Followed act k₁ x.block x.sender k.now events m)
    ?_ (fun _ hlive => ?_) hrun hdirect hlive
  · intro before n e' n' hn ih hstep' hdirect' hlive'
    have hreach := run_through hk hstep hn
    refine (ih ?_ ?_).concat hn (remembers_run hreach) (inPlace_run hreach) hstep' ?_ hlive' hdated
    · exact fun e he => hdirect' e (List.mem_append_left _ he)
    · exact Int.lt_of_le_of_lt (now_le_step hstep') hlive'
    · exact hdirect' e' (List.mem_append_right _ List.mem_cons_self)
  · exact hstarts.followed_nil halone hk hstep (Int.lt_of_le_of_lt (now_le_step hstep) hlive) hdated

/-- What happens at one event in between. -/
theorem Starts.eventAt {k₁ n' : Node χ} (hstarts : k.Starts x e)
    (halone : k.fetches x.block.hash = [])
    (hk : run act (new settings now chain) past = some k) (hstep : step act k e = some k₁)
    (hn : run act k₁ events = some n) {e' : Event κ} (hstep' : step act n e' = some n')
    (hdirect : ∀ e'' ∈ events ++ [e'], e''.direct? ≠ some x.block.hash)
    (hlive : n'.now < k.now.after settings.announcementTtl)
    (hdated : k.now.after settings.announcementTtl ≤ Instant.last) :
    (n.fetchNote? x.block.hash e' = none → n'.fetches x.block.hash = n.fetches x.block.hash) ∧
      ∀ note, n.fetchNote? x.block.hash e' = some note → n.Noted n' x.block.hash note := by
  have hreach := run_through hk hstep hn
  obtain ⟨a, ha, hsince⟩ := (hstarts.followed halone hk hstep hn
    (fun e he => hdirect e (List.mem_append_left _ he))
    (Int.lt_of_le_of_lt (now_le_step hstep') hlive) hdated).recalled
  have hdated : a.Dated settings.announcementTtl := by
    rwa [Announcement.Dated, hsince]
  refine ⟨fun hnone => ?_, fun note hnote => ?_⟩
  · have hturn := (inPlace_run hreach).fetchTurn (remembers_run hreach) ha hdated hstep'
      (hsince ▸ hlive) (hdirect e' (List.mem_append_right _ List.mem_cons_self))
    rw [hnone] at hturn
    exact hturn.fetches_of_none
  · exact (inPlace_run hreach).noted (remembers_run hreach) ha hdated hstep' hnote

/-- **A fetch follows the senders, and stops.** An announcement is let through and starts a fetch of
its block, the only one there is, and none is brought in past the announcements before it expires, as
it does at an instant. Whatever happens in the meantime, and whatever the answers are: the peers that
are asked are the sender and then those that announce the block while it is being fetched, each one a
number of times. The fetch is over once the block came, the chain has it, attaching is held up or the
chain failed, or when all these attempts have failed; then there are no more, and until then it is not
stuck. The block is enqueued to be attached just when it came, and then nobody is left to be asked. -/
theorem fetch_follows_senders {k₁ : Node χ} (hk : run act (new settings now chain) past = some k)
    (hstarts : k.Starts x e) (halone : k.fetches x.block.hash = []) (hstep : step act k e = some k₁)
    (hrun : run act k₁ events = some m) (hdirect : ∀ e' ∈ events, e'.direct? ≠ some x.block.hash)
    (hlive : m.now < k.now.after settings.announcementTtl)
    (hexpiry : k.now.after settings.announcementTtl ≤ Instant.last) :
    let hash := x.block.hash
    let log := fetchLog act hash k₁ events
    let sequence := attempts settings.retries (x.sender :: joined act hash k₁ events)
    log.filterMap FetchNote.asked? <+: sequence ∧
      (∀ before note after, log = before ++ note :: after → note.ends = true → after = []) ∧
      (m.fetches hash = [] ↔
        (∃ note ∈ log, note.ends = true) ∨ log.count .refused = sequence.length) ∧
      (m.fetches hash ≠ [] → (m.queueStep .fetch).isSome ∨ (m.queueRequest? .fetch).isSome) ∧
      ∀ before e' after n n', events = before ++ e' :: after → run act k₁ before = some n →
        step act n e' = some n' →
        (n.fetchNote? hash e' = none → n'.fetches hash = n.fetches hash) ∧
          ∀ note, n.fetchNote? hash e' = some note → n.Noted n' hash note := by
  intro hash log sequence
  obtain ⟨-, left, hstage, hsequence⟩ :=
    hstarts.followed halone hk hstep hrun hdirect hlive hexpiry
  have hsettings : k₁.settings = settings := (settings_step hstep).trans (settings_run hk)
  have hsequence : log.filterMap FetchNote.asked? ++ left = sequence :=
    hsequence.trans (by rw [hsettings])
  refine ⟨⟨left, hsequence⟩, fun _ _ _ => hstage.ends_last, ?_, ?_, ?_⟩
  · rw [← hsequence]
    exact hstage.fetches_eq_nil_iff
  · exact (inPlace_run (run_through hk hstep hrun)).fetches_go_on
  · intro before e' after n n' hevents hn hstep'
    rw [hevents] at hrun hdirect
    rw [run_append, hn, Option.bind_some, run_cons, hstep'] at hrun
    have hbefore : ∀ e'' ∈ before ++ [e'], e''.direct? ≠ some hash := fun e'' he =>
      hdirect e'' (by rw [List.append_cons]; exact List.mem_append_left _ he)
    have hlive' : n'.now < k.now.after settings.announcementTtl :=
      Int.lt_of_le_of_lt (now_le_run hrun) hlive
    exact hstarts.eventAt halone hk hstep hn hstep' hbefore hlive' hexpiry

end Run

/-- The first sender does not have the block, the second one does. -/
theorem fetch_follows_senders_second :
    let b := Block.make (Block.genesis 0).hash 2 0 []
    let settings : SyncSettings := { (default : SyncSettings) with retries := 1 }
    let start := new settings 0 (BlockTree.new (.genesis 0))
    let k₁ := (start.announce b.tip "a").2
    let ask : List (Event Hash) := [.queue .fetch, .queue .fetch]
    let refuse : List (Event Hash) := [.answerQueue .fetch (.ok none), .queue .fetch]
    let events := ask ++ .announce b.tip "b" :: refuse ++ ask ++ refuse ++ .announce b.tip "c" ::
      ask ++ [.answerQueue .fetch (.ok (some b))]
    let log := fetchLog BlockTree.askIrreversible b.hash k₁ events
    log = [.asked (some "a"), .refused, .asked (some "a"), .refused, .asked (some "b"),
        .received b (some "b")] ∧
      log.filterMap FetchNote.asked? <+: attempts 1 ["a", "b", "c"] ∧
      ∃ m, run BlockTree.askIrreversible k₁ events = some m ∧ m.fetches b.hash = [] := by
  intro b settings start k₁ ask refuse events log
  have hstarts : start.Starts ⟨start.chain.heads, b.tip, "a"⟩ (.announce b.tip "a" : Event Hash) :=
    ⟨rfl, rfl, by decide +kernel, by decide +kernel, by decide +kernel⟩
  have hlog : log = [.asked (some "a"), .refused, .asked (some "a"), .refused, .asked (some "b"),
      .received b (some "b")] := by decide +kernel
  have hjoined : joined BlockTree.askIrreversible b.hash k₁ events = ["b", "c"] := by decide +kernel
  have h : ((run BlockTree.askIrreversible k₁ events).any fun m => m.now = 0) = true := by
    decide +kernel
  obtain ⟨m, hm, hnow⟩ := (Option.any_eq_true _ _).mp h
  have hlive : m.now < start.now.after settings.announcementTtl := by
    rw [of_decide_eq_true hnow]
    decide
  have hdirect : ∀ e ∈ events, e.direct? ≠ some b.hash := by decide +kernel
  obtain ⟨hasked, -, hover, -, -⟩ :=
    fetch_follows_senders (run_nil (n := start)) hstarts rfl rfl hm hdirect hlive (by decide)
  refine ⟨hlog, ?_, m, hm, hover.mpr (.inl ⟨.received b (some "b"), ?_, rfl⟩)⟩
  · exact hjoined ▸ hasked
  · show FetchNote.received b (some "b") ∈ log
    rw [hlog]
    simp

/-- Two fetches of a block share the candidates. The announcement of "a" expires while "a" is being
asked, and that of "b" is let through. Its fetch does not come to ask "b", "c" and "d" twice each, though
nobody has the block and both fetches are over before it expires. -/
theorem not_asked_in_turn :
    let b := Block.make (Block.genesis 0).hash 2 0 []
    let settings : SyncSettings :=
      { (default : SyncSettings) with retries := 1, announcementTtl := ⟨800⟩ }
    let past : List (Event Hash) := [.announce b.tip "a", .queue .fetch, .queue .fetch, .wait 850]
    let refuse : List (Event Hash) := [.answerQueue .fetch (.ok none), .queue .fetch]
    let again : List (Event Hash) := [.queue .fetch, .queue .fetch] ++ refuse
    let events := .announce b.tip "c" :: .announce b.tip "d" :: refuse ++
      (List.replicate 7 again).flatten
    ∃ k m, run BlockTree.askIrreversible (new settings 0 (BlockTree.new (.genesis 0))) past = some k ∧
      k.Starts ⟨k.chain.heads, b.tip, "b"⟩ (.announce b.tip "b" : Event Hash) ∧
      let k₁ := (k.announce b.tip "b").2
      let log := fetchLog BlockTree.askIrreversible b.hash k₁ events
      run BlockTree.askIrreversible k₁ events = some m ∧
        m.now < k.now.after settings.announcementTtl ∧ m.fetches b.hash = [] ∧
        joined BlockTree.askIrreversible b.hash k₁ events = ["c", "d"] ∧
        log.filterMap FetchNote.asked? = [some "b", some "a", some "b", some "c", some "d", some "c",
          some "d"] ∧
        ¬ (attempts settings.retries ["b", "c", "d"]).Sublist (log.filterMap FetchNote.asked?) := by
  intro b settings past refuse again events
  have h : ((run BlockTree.askIrreversible (new settings 0 (BlockTree.new (.genesis 0))) past).any
      fun k =>
        let k₁ := (k.announce b.tip "b").2
        (k.lets ⟨k.chain.heads, b.tip, "b"⟩ = true ∧ k.isNear k.chain.heads b.height = .ok true ∧
          k.available .fetch = true) ∧
        joined BlockTree.askIrreversible b.hash k₁ events = ["c", "d"] ∧
        (fetchLog BlockTree.askIrreversible b.hash k₁ events).filterMap FetchNote.asked? =
          [some "b", some "a", some "b", some "c", some "d", some "c", some "d"] ∧
        ((run BlockTree.askIrreversible k₁ events).any fun m =>
          m.now < k.now.after settings.announcementTtl ∧ m.fetches b.hash = []) = true) = true := by
    decide +kernel
  obtain ⟨k, hk, hfacts⟩ := (Option.any_eq_true _ _).mp h
  obtain ⟨⟨hlets, hnear, hopen⟩, hjoined, hasked, hm⟩ := of_decide_eq_true hfacts
  obtain ⟨m, hm, hend⟩ := (Option.any_eq_true _ _).mp hm
  obtain ⟨hlive, hover⟩ := of_decide_eq_true hend
  refine ⟨k, m, hk, ⟨rfl, rfl, hlets, hnear, hopen⟩, hm, hlive, hover, hjoined, hasked, ?_⟩
  rw [hasked]
  decide

end Node

end ChainNode

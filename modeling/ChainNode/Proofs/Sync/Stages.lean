import ChainNode.Proofs.Sync.Climbing
import ChainNode.Proofs.Sync.Front

/-!
# The stages of a call

A node that has one job, to download up to the target of a route, goes through some stages while a call
of the worker is in progress and it is left alone with the peer that serves the route (`Node.Stage`).
It reads the heads, looks for the job, tries the places where the download may start, and downloads as
many blocks of the route as a call may; or it finds that the target is reached, and takes the job off
the board. Every step leads to another stage and makes the node lighter, and it does not get stuck
(`Node.Stage.alone`, `Node.Stage.exists_alone`). Nor does the call panic where the clock and the heights
leave room for the download (`Node.InBounds`).
-/

namespace ChainNode

variable {server : BlockServer}

/-- A download that starts at some places in turn gets nothing at the first ones, and then comes to
the place after so many blocks of the route. -/
def Route.Leads (r : Route server) (e : Nat) (tips : List Tip) : Prop :=
  ∃ barren rest, tips = barren ++ r.place e :: rest ∧
    ∀ t ∈ barren, ∀ count, server.following count t.hash = []

namespace Download

variable {r : Route server} {cap s e k : Nat} {peer : Option Peer} {d : Download} {blocks : List Block}
  {last : Block}

theorem request?_eq (hended : d.ended = false) (hlt : d.count < d.cap) :
    d.request? = some (.following d.last.hash d.wanted d.peer) := by
  simp [request?, hended, hlt]

/-- A download has brought the blocks of a route between two places. -/
structure Along (r : Route server) (cap s e : Nat) (peer : Option Peer) (d : Download) : Prop where
  last : d.last = r.place e
  le : s ≤ e
  count : d.count = e - s
  cap_eq : d.cap = cap
  batch : 0 < d.batch
  peer_eq : d.peer = peer

theorem along_start (batch : Nat) : (start (r.place s) batch cap peer).Along r cap s s peer where
  last := rfl
  le := Nat.le_refl s
  count := (Nat.sub_self s).symm
  cap_eq := rfl
  batch := Nat.lt_of_lt_of_le Nat.one_pos (Nat.le_max_right _ _)
  peer_eq := rfl

theorem Along.wanted_eq (h : d.Along r cap s e peer) : d.wanted = min d.batch (cap - (e - s)) := by
  rw [wanted, h.cap_eq, h.count]

theorem Along.extend (h : d.Along r cap s e peer) (hlength : blocks.length = k)
    (hlast : last.tip = r.place (e + k)) : (d.extend blocks last).Along r cap s (e + k) peer where
  last := hlast
  le := Nat.le_add_right_of_le h.le
  count := by
    have := h.le
    simp only [Download.extend, hlength, h.count]
    omega
  cap_eq := h.cap_eq
  batch := h.batch
  peer_eq := h.peer_eq

/-- It goes no further when it has brought as much as it may, or all there is. -/
theorem Along.eq_of_stop (h : d.Along r cap s e peer) (hlength : blocks.length = k) (hk : 0 < k)
    (hwanted : k ≤ d.wanted) (hle : e + k ≤ r.blocks.length)
    (hshort : k < d.wanted → e + k = r.blocks.length)
    (hstop : (d.extend blocks last).ended = true ∨
      (d.extend blocks last).cap ≤ (d.extend blocks last).count) :
    e + k = min (s + cap) r.blocks.length := by
  have := h.le
  simp only [Download.extend, hlength, h.cap_eq, h.count, decide_eq_true_eq] at hstop
  rw [h.wanted_eq] at hwanted hshort hstop
  omega

end Download

namespace Node

variable {n m : Node BlockTree} {r : Route server} {cap s e : Nat} {j : Job} {latest : Instant}

/-! ## Room for a download -/

/-- The clock and the heights leave room for a download along a route: up to some instant there is a
deadline for whatever one call brings, and one can look ahead from below the target. -/
structure InBounds (r : Route server) (latest : Instant) (n : Node BlockTree) : Prop where
  now_le : n.now ≤ latest
  deadline : ∀ count ≤ n.settings.downloadCap, count ≤ r.blocks.length →
    ∃ span, n.settings.perBlock.times count = .ok span ∧ latest.after span ≤ Instant.last
  height_lt : r.origin.height.toNat + r.goal + 7 < UInt64.size

theorem InBounds.congr (h : n.InBounds r latest) (hsettings : m.settings = n.settings)
    (hnow : m.now ≤ latest) : m.InBounds r latest :=
  { h with
    now_le := hnow
    deadline := hsettings ▸ h.deadline }

theorem InBounds.exists_deadline (h : n.InBounds r latest) {d : Download}
    (hcap : d.count ≤ n.settings.downloadCap) (hcount : d.count ≤ r.blocks.length) :
    ∃ deadline, n.batchDeadline d = .ok deadline := by
  have hmod := Nat.mod_le d.count UInt32.size
  obtain ⟨span, hspan, hle⟩ :=
    h.deadline _ (Nat.le_trans hmod hcap) (Nat.le_trans hmod hcount)
  exact exists_batchDeadline h.now_le hspan hle

/-- No height below the target is too high to look ahead from. -/
theorem InBounds.sum_lead (h : n.InBounds r latest) {height : UInt64}
    (hlt : height.toNat < r.origin.height.toNat + r.goal) (o : Overflow) :
    o.sum height lead = .ok (height + lead) ∧ (height + lead).toNat = height.toNat + 8 := by
  have hlead : lead.toNat = 8 := rfl
  have hfits : height.toNat + lead.toNat < UInt64.size := by
    have := h.height_lt
    omega
  exact ⟨Overflow.sum_eq_ok hfits o, by rw [UInt64.toNat_add, hlead]; exact Nat.mod_eq_of_lt hfits⟩

/-! ## The job -/

/-- There is one job, and so many blocks of the route have been downloaded for it. -/
structure JobAt (r : Route server) (cap s : Nat) (n : Node BlockTree) (j : Job) : Prop where
  cap_eq : n.settings.downloadCap = cap
  valid : n.board.store.Valid
  jobs : n.board.store.toList = [j]
  target : j.target.height.toNat = r.origin.height.toNat + r.goal
  finished : j.finished = decide (r.goal ≤ s)
  peer : BlockServer.refusal? j.peer = none
  fresh : s = 0 → j.started = false
  current : 0 < s → j.current = r.place s

theorem JobAt.congr (h : JobAt r cap s n j) (hsettings : m.settings = n.settings)
    (hstore : m.board.store = n.board.store) : JobAt r cap s m j :=
  { h with
    cap_eq := hsettings ▸ h.cap_eq
    valid := hstore ▸ h.valid
    jobs := hstore ▸ h.jobs }

theorem JobAt.first? (h : JobAt r cap s n j) : n.board.store.first? = some j := by
  rw [h.valid.first?_eq, h.jobs, List.head?_cons]

/-- A download has brought the job to another place. -/
theorem JobAt.advanced (h : JobAt r cap s n j) {d : Download} (hlast : d.last = r.place e)
    (hpos : 0 < e) (he : e ≤ r.blocks.length) (deadline : Instant) :
    JobAt r cap e ((n.dropTarget j).updateJob (advancedJob j d deadline))
      (advancedJob j d deadline) where
  cap_eq := (congrArg SyncSettings.downloadCap (settings_dropTarget n j)).trans h.cap_eq
  valid := by
    rw [store_updateJob, store_dropTarget]
    exact h.valid.update _
  jobs := by
    rw [store_updateJob, store_dropTarget, h.valid.toList_update, h.jobs]
    simp [advancedJob]
  target := h.target
  finished := by
    simp only [advancedJob, hlast, UInt64.le_iff_toNat_le, h.target, r.height_place he]
    exact decide_eq_decide.mpr (by omega)
  peer := h.peer
  fresh he' := absurd he' (Nat.ne_of_gt hpos)
  current _ := hlast

/-- Taking back the target of a job leaves no target unmarked that was not. -/
theorem unmarked_of_dropTarget {hash : Hash}
    (h : (n.dropTarget j).board.targets[hash]? = some false) :
    n.board.targets[hash]? = some false := by
  rw [dropTarget] at h
  split at h
  case isTrue => exact Targets.getElem?_of_erase h
  case isFalse => exact h

/-- Taking the job off leaves no target unmarked that was not. -/
theorem targets_removeJob (hjob : JobAt r cap s n j) {hash : Hash}
    (h : (n.removeJob j.id).board.targets[hash]? = some false) :
    n.board.targets[hash]? = some false := by
  rw [removeJob, JobBoard.targets_remove_first hjob.valid hjob.first?] at h
  split at h
  case isTrue => exact Targets.getElem?_of_erase h
  case isFalse => exact h

/-! ## A call -/

/-- A download for a job has somewhere to start, and comes to the place after so many blocks. -/
def LeadsOn (r : Route server) (s : Nat) (n : Node BlockTree) (j : Job) : Prop :=
  ∃ places, n.origins n.chain.heads j = .ok places ∧ r.Leads s places

theorem LeadsOn.congr (h : LeadsOn r s n j) (hsettings : m.settings = n.settings)
    (hchain : m.chain = n.chain) : LeadsOn r s m j := by
  rwa [LeadsOn, origins, hsettings, hchain]

/-- Where a call stands that began at rest, when so many blocks had been downloaded. -/
inductive Stage (r : Route server) (cap s : Nat) (n : Node BlockTree) : Prop
  | beginning {j : Job} (call : n.call = some .round) (idle : n.pipeline.Idle)
    (climbing : n.Climbing r s) (job : JobAt r cap s n j) (leads : s < r.goal → LeadsOn r s n j)
  | looking {j : Job} (call : n.call = some (.looking n.chain.heads)) (idle : n.pipeline.Idle)
    (climbing : n.Climbing r s) (job : JobAt r cap s n j) (leads : s < r.goal → LeadsOn r s n j)
  /-- It asks for what follows a block that nothing served follows. -/
  | trying {d : JobDownload} (call : n.call = some (.asking d)) (idle : n.pipeline.Idle)
    (climbing : n.Climbing r s) (job : JobAt r cap s n d.job) (below : s < r.goal)
    (barren : ∀ count, server.following count d.download.last.hash = [])
    (download : d.download = .start d.download.last d.job.batch cap d.job.peer)
    (leads : r.Leads s d.origins)
  | downloading {d : JobDownload} {e : Nat} (call : n.call = some (.asking d))
    (climbing : n.Climbing r e) (job : JobAt r cap s n d.job) (below : s < r.goal)
    (along : d.download.Along r cap s e d.job.peer) (ended : d.download.ended = false)
    (lt : d.download.count < d.download.cap)
  | finished {j : Job} {e : Nat} (call : n.call = none) (climbing : n.Climbing r e)
    (job : JobAt r cap e n j) (below : s < r.goal) (eq : e = min (s + cap) r.blocks.length)
  /-- The target had been reached. -/
  | covered (call : n.call = none) (idle : n.pipeline.Idle) (climbing : n.Climbing r s)
    (le : r.goal ≤ s) (store : n.board.store.size = 0)

theorem Climbing.later (h : n.Climbing r e) (millis : Nat) : (n.later millis).Climbing r e :=
  { h with agreeing := agreeing_step h.agreeing (e := .wait millis) rfl }

theorem Stage.later (h : n.Stage r cap s) (millis : Nat) : (n.later millis).Stage r cap s := by
  cases h with
  | beginning call idle climbing job leads =>
    exact .beginning call idle (climbing.later millis) (job.congr rfl rfl) leads
  | looking call idle climbing job leads =>
    exact .looking call idle (climbing.later millis) (job.congr rfl rfl) leads
  | trying call idle climbing job below barren download leads =>
    exact .trying call idle (climbing.later millis) (job.congr rfl rfl) below barren download leads
  | downloading call climbing job below along ended lt =>
    exact .downloading call (climbing.later millis) (job.congr rfl rfl) below along ended lt
  | finished call climbing job below eq =>
    exact .finished call (climbing.later millis) (job.congr rfl rfl) below eq
  | covered call idle climbing le store => exact .covered call idle (climbing.later millis) le store

theorem Stage.climbing (h : n.Stage r cap s) : ∃ e, n.Climbing r e := by
  cases h with
  | beginning _ _ climbing | looking _ _ climbing | trying _ _ climbing | downloading _ climbing
  | finished _ climbing | covered _ _ climbing => exact ⟨_, climbing⟩

/-- The queues take their steps during a call. -/
theorem Stage.queueStep (h : n.Stage r cap s) {q : Queue} (hm : n.queueStep q = some m) :
    m.Stage r cap s ∧ m.weight < n.weight := by
  obtain ⟨hsettings, hcall, c, hboard⟩ := queueStep_frame hm
  have hstore : m.board.store = n.board.store := by rw [hboard, store_complete]
  have hclimbs {e : Nat} (hclimbing : n.Climbing r e) : m.Climbing r e := (hclimbing.queueStep hm).1
  have hidle (hidle : n.pipeline.Idle) : m.pipeline.Idle ∧ m.chain = n.chain := by
    obtain ⟨p, hp, rfl⟩ := queueStep_of_idle hidle hm
    exact ⟨hp, rfl⟩
  constructor
  · cases h with
    | beginning call idle climbing job leads =>
      obtain ⟨hidle, hchain⟩ := hidle idle
      exact .beginning (hcall.trans call) hidle (hclimbs climbing) (job.congr hsettings hstore)
        fun hs => (leads hs).congr hsettings hchain
    | looking call idle climbing job leads =>
      obtain ⟨hidle, hchain⟩ := hidle idle
      exact .looking (by rw [hcall, call, hchain]) hidle (hclimbs climbing)
        (job.congr hsettings hstore) fun hs => (leads hs).congr hsettings hchain
    | trying call idle climbing job below barren download leads =>
      exact .trying (hcall.trans call) (hidle idle).1 (hclimbs climbing) (job.congr hsettings hstore)
        below barren download leads
    | downloading call climbing job below along ended lt =>
      exact .downloading (hcall.trans call) (hclimbs climbing) (job.congr hsettings hstore) below along
        ended lt
    | finished call climbing job below eq =>
      exact .finished (hcall.trans call) (hclimbs climbing) (job.congr hsettings hstore) below eq
    | covered call idle climbing le store =>
      exact .covered (hcall.trans call) (hidle idle).1 (hclimbs climbing) le (hstore ▸ store)
  · obtain ⟨e, hclimbing⟩ := h.climbing
    have := (hclimbing.queueStep hm).2
    rw [weight, weight, hsettings, hcall]
    omega

/-! ## A download begins -/

/-- A download for the job begins where it leads on, or at a place before that. -/
theorem downloadFrom_of_leads (hcap : 0 < cap) (hcap_eq : n.settings.downloadCap = cap)
    {tips : List Tip} (hleads : r.Leads s tips) (j : Job) :
    ∃ origin rest, n.downloadFrom j tips =
        .next { n with call := some (.asking ⟨j, .start origin j.batch cap j.peer, rest⟩) } ∧
      rest.length < tips.length ∧
      (origin = r.place s ∨ (∀ count, server.following count origin.hash = []) ∧ r.Leads s rest) := by
  have key (origin : Tip) (rest : List Tip) : n.downloadFrom j (origin :: rest) =
      .next { n with call := some (.asking ⟨j, .start origin j.batch cap j.peer, rest⟩) } := by
    have hrequest : (Download.start origin j.batch cap j.peer).request?.isSome := by
      simp [Download.request?, Download.start, Nat.pos_iff_ne_zero.mp hcap]
    rw [downloadFrom, hcap_eq]
    exact if_pos hrequest
  obtain ⟨barren, rest, rfl, hbarren⟩ := hleads
  cases barren with
  | nil => exact ⟨r.place s, rest, key _ _, by simp, .inl rfl⟩
  | cons origin barren =>
    refine ⟨origin, barren ++ r.place s :: rest, key _ _, by simp,
      .inr ⟨hbarren origin List.mem_cons_self, barren, rest, rfl, ?_⟩⟩
    exact fun t ht => hbarren t (List.mem_cons_of_mem _ ht)

/-- From there the call waits for an answer. -/
theorem stage_downloadFrom (hcap : 0 < cap) (hidle : n.pipeline.Idle) (hclimbing : n.Climbing r s)
    (hjob : JobAt r cap s n j) (hs : s < r.goal) {tips : List Tip} (hleads : r.Leads s tips)
    (hm : (n.downloadFrom j tips).node.Agreeing) :
    (n.downloadFrom j tips).ending? = none ∧ (n.downloadFrom j tips).node.Stage r cap s ∧
      (n.downloadFrom j tips).node.weight + (11 * cap + 2) ≤
        tips.length * (11 * cap + 2) + 11 * cap + 1 + n.pipeline.weight := by
  obtain ⟨origin, rest, heq, hlength, horigin⟩ :=
    downloadFrom_of_leads (n := n) hcap hjob.cap_eq hleads j
  rw [heq] at hm ⊢
  have hclimbing' : ({ n with
      call := some (.asking ⟨j, .start origin j.batch cap j.peer, rest⟩) } : Node BlockTree).Climbing
        r s :=
    { hclimbing with agreeing := hm }
  refine ⟨rfl, ?_, ?_⟩
  · obtain rfl | ⟨hbarren, hrest⟩ := horigin
    · exact .downloading rfl hclimbing' (hjob.congr rfl rfl) hs (Download.along_start j.batch) rfl hcap
    · exact .trying rfl hidle hclimbing' (hjob.congr rfl rfl) hs hbarren rfl hrest
  · have hmul := Nat.mul_le_mul_right (11 * cap + 2) hlength
    simp only [CallTurn.node, weight, hjob.cap_eq, Call.weight, Download.start]
    rw [Nat.succ_mul] at hmul
    omega

/-! ## The job is looked for -/

theorem Climbing.best_eq (h : n.Climbing r e) (hidle : n.pipeline.Idle) :
    n.chain.heads.best = n.chain.heads.longest := (h.agreeing.of_idle hidle).best_eq

/-- A node at rest has stored all that was handed over. -/
theorem Climbing.mem_of_idle (h : n.Climbing r e) (hidle : n.pipeline.Idle) :
    ∀ b ∈ r.blocks.take e, b.hash ∈ n.chain.blocks := by
  obtain ⟨d, hd, hstored, hmap⟩ := h.attachments
  have hnone : n.attachments = [] := by rw [Node.attachments, hidle]; rfl
  rw [hnone, List.map_nil, eq_comm, List.drop_eq_nil_iff, List.length_take] at hmap
  have hle := h.le
  obtain rfl : d = e := by omega
  exact hstored

/-- No stored block is as high as the target. -/
theorem Climbing.best_lt (h : n.Climbing r s) (hidle : n.pipeline.Idle) (hs : s < r.goal) :
    n.chain.heads.best.height.toNat < r.origin.height.toNat + r.goal := by
  obtain ⟨b, hb, hheight⟩ := h.headed.longest
  have hlow := h.low _ b hb
  rw [h.best_eq hidle, ← hheight]
  omega

/-- A node at rest has come to each place where it has been. -/
theorem Climbing.place_mem (h : n.Climbing r s) (hidle : n.pipeline.Idle) (hpos : 0 < e)
    (he : e ≤ s) :
    (r.place e).hash ∈ n.chain.blocks ∧ (r.place e).height ≤ n.chain.heads.best.height := by
  obtain ⟨i, rfl⟩ : ∃ i, e = i + 1 := ⟨e - 1, by omega⟩
  have hi : i < r.blocks.length := Nat.lt_of_lt_of_le he h.le
  have hmem := h.mem_of_idle hidle r.blocks[i]
    (List.mem_take_iff_getElem.mpr ⟨i, by omega, rfl⟩)
  obtain ⟨c, hc⟩ := BlockTree.mem_blocks_iff.mp hmem
  have hle := h.headed.le_longest _ c hc
  rw [h.height _ (List.getElem_mem hi) c hc] at hle
  rw [r.place_succ hi, h.best_eq hidle]
  exact ⟨hmem, hle⟩

/-- Nothing is owed at rest. -/
theorem Climbing.target_of_idle (h : n.Climbing r s) (hidle : n.pipeline.Idle) (hpos : 0 < s) :
    n.board.targets[(r.place s).hash]? ≠ some false := by
  intro hfalse
  obtain ⟨q, w, hw, -⟩ := h.owes hpos hfalse
  rw [hidle q] at hw
  cases hw

/-- At rest the worker may download, and the job is looked at. -/
theorem JobAt.mayDownload (h : JobAt r cap s n j) (hclimbing : n.Climbing r s)
    (hidle : n.pipeline.Idle) : n.mayDownload j = true := by
  have hsound := hclimbing.agreeing.guarded.inPlace.sound
  have havailable (q : Queue) : n.available q = true := by
    have hrunning : (n.pipeline.lane q).running = none := by
      simpa [Lane.works] using (List.append_eq_nil_iff.mp (hidle q)).1
    have htime : n.pipeline.time q = none := by
      have := hsound.time_isSome q
      rwa [hrunning, Option.isSome_none, Option.isSome_eq_false_iff, Option.isNone_iff_eq_none] at this
    rw [available, Pipeline.available, htime]
  have htarget : j.started = true → n.board.targets[j.current.hash]? ≠ some false := by
    intro hstarted
    have hpos : 0 < s := by
      by_contra hzero
      rw [h.fresh (by omega)] at hstarted
      cases hstarted
    rw [h.current hpos]
    exact hclimbing.target_of_idle hidle hpos
  simp only [Node.mayDownload, attachAvailable, havailable, Bool.and_self, Bool.true_and]
  cases hstarted : j.started with
  | false => rfl
  | true => simp [htarget hstarted]

/-- The worker finds the job and downloads for it, if it can tell where to start. -/
theorem lookForJob_first (hclimbing : n.Climbing r s) (hidle : n.pipeline.Idle)
    (hjob : JobAt r cap s n j) (hs : s < r.goal) :
    n.lookForJob n.chain.heads = match n.origins n.chain.heads j with
      | .ok places => n.downloadFrom j places
      | .error p => n.breakOff p := by
  have hbest := hclimbing.best_lt hidle hs
  rw [← hjob.target, ← UInt64.lt_iff_toNat_lt] at hbest
  have hfirst : n.board.firstWaiting n.chain.heads = (some j, n.board) := by
    rw [JobBoard.firstWaiting, JobBoard.pruneFirst, hjob.first?]
    exact if_pos hbest
  have hfinished : j.finished = false := by
    rw [hjob.finished, decide_eq_false_iff_not]
    omega
  simp only [lookForJob, hfirst, hjob.mayDownload hclimbing hidle, hfinished]
  rfl

/-- The worker takes the job off if its target is reached. -/
theorem lookForJob_of_covered (hclimbing : n.Climbing r s) (hidle : n.pipeline.Idle)
    (hjob : JobAt r cap s n j) (hpos : 0 < r.goal) (hs : r.goal ≤ s) :
    n.lookForJob n.chain.heads = (n.removeJob j.id).endCall (.ok ()) ∧
      (n.removeJob j.id).board.store.size = 0 := by
  have hcovered : j.target.height ≤ n.chain.heads.best.height := by
    rw [show j.target.height = (r.place r.goal).height by
      rw [← UInt64.toNat_inj, hjob.target, r.height_place r.goal_le]]
    exact (hclimbing.place_mem hidle hpos hs).2
  obtain ⟨hnone, hsize⟩ := JobBoard.firstWaiting_of_covered hjob.valid hjob.jobs hcovered
  exact ⟨by rw [lookForJob, hnone]; rfl, hsize⟩

/-- The worker cannot look ahead from the end of a longest chain that is too high: it panics, or it
drops a job that is not done. -/
theorem lookForJob_of_high (hclimbing : n.Climbing r s) (hidle : n.pipeline.Idle)
    (hjob : JobAt r cap s n j) (hs : s < r.goal) (hstarted : j.started = true)
    (hcurrent : lead ≤ j.current.height)
    (hhigh : UInt64.size ≤ n.chain.heads.longest.height.toNat + 8) :
    n.lookForJob n.chain.heads = match n.settings.overflow with
      | .panics => n.breakOff .sumOverflow
      | .wraps => (n.removeJob j.id).nextRound := by
  have hwrapped : ¬ j.current.height ≤ n.chain.heads.longest.height + lead := by
    have hlead : lead.toNat = 8 := rfl
    have hsize : UInt64.size = 2 ^ 64 := rfl
    have hlt := n.chain.heads.longest.height.toNat_lt
    rw [UInt64.le_iff_toNat_le] at hcurrent ⊢
    rw [UInt64.toNat_add, hlead]
    omega
  rw [lookForJob_first hclimbing hidle hjob hs, origins, if_pos hstarted,
    Overflow.sum_of_size_le (b := lead) hhigh]
  cases n.settings.overflow with
  | panics => rfl
  | wraps =>
    have hplaces : (do
        let furthest ← (.ok (n.chain.heads.longest.height + lead) : Except Panic UInt64)
        return if j.current.height ≤ furthest then [j.current] else [] : Except Panic (List Tip)) =
          .ok [] := congrArg Except.ok (if_neg hwrapped)
    dsimp only
    rw [hplaces]
    rfl

/-- A job that has started goes on from its place, below the target. -/
theorem InBounds.leadsOn (hbounds : n.InBounds r latest) (hclimbing : n.Climbing r s)
    (hidle : n.pipeline.Idle) (hjob : JobAt r cap s n j) (hpos : 0 < s) (hs : s < r.goal) :
    LeadsOn r s n j := by
  obtain ⟨i, rfl⟩ : ∃ i, s = i + 1 := ⟨s - 1, by omega⟩
  have hi : i < r.blocks.length := hclimbing.le
  have hcurrent := hjob.current hpos
  have hheight := r.height_place hclimbing.le
  have hstarted : j.started = true := by
    rw [Job.started, hcurrent, decide_eq_true_eq]
    intro hzero
    rw [hzero] at hheight
    simp at hheight
  have hlongest : n.chain.heads.best.height.toNat < r.origin.height.toNat + r.goal :=
    hclimbing.best_lt hidle hs
  rw [hclimbing.best_eq hidle] at hlongest
  obtain ⟨hsum, hahead⟩ := hbounds.sum_lead hlongest n.settings.overflow
  have hle : j.current.height ≤ n.chain.heads.longest.height + lead := by
    have hplace := UInt64.le_iff_toNat_le.mp (hclimbing.place_mem hidle hpos (Nat.le_refl _)).2
    rw [hclimbing.best_eq hidle] at hplace
    rw [hcurrent, UInt64.le_iff_toNat_le, hahead]
    omega
  refine ⟨[r.place (i + 1)], ?_, [], [], rfl, nofun⟩
  rw [origins, if_pos hstarted, hsum, ← hcurrent]
  exact congrArg Except.ok (if_pos hle)

/-- A step of the call: the heads are read, then a download begins. -/
theorem Stage.callStep (hcap : 0 < cap) (hpos : 0 < r.goal) (h : n.Stage r cap s)
    {t : CallTurn BlockTree} (ht : n.callStep = some t) (hm : t.node.Agreeing) :
    (∀ e, t.ending? = some e → e = .done) ∧ t.node.Stage r cap s ∧ t.node.weight < n.weight := by
  cases h with
  | beginning call idle climbing job leads =>
    simp only [Node.callStep, call, Option.some.injEq] at ht
    subst ht
    refine ⟨by simp [beginRound, CallTurn.ending?], ?_, ?_⟩
    · exact .looking rfl idle { climbing with agreeing := hm } (job.congr rfl rfl) leads
    simp only [beginRound, heads_tree, CallTurn.node, weight, call, Call.weight, job.cap_eq]
    omega
  | @looking j call idle climbing job leads =>
    simp only [Node.callStep, call, Option.some.injEq] at ht
    subst ht
    have hn : n.weight = 33 * cap + 6 + n.pipeline.weight := by
      rw [weight, call, job.cap_eq, Call.weight]
    obtain hs | hs := Nat.lt_or_ge s r.goal
    · obtain ⟨places, hplaces, hleads⟩ := leads hs
      have heq : n.lookForJob n.chain.heads = n.downloadFrom j places := by
        rw [lookForJob_first climbing idle job hs, hplaces]
      rw [heq] at hm ⊢
      obtain ⟨hgoing, hstage, hweight⟩ := stage_downloadFrom hcap idle climbing job hs hleads hm
      have hlength := Nat.mul_le_mul_right (11 * cap + 2) (length_origins_le hplaces)
      exact ⟨by simp [hgoing], hstage, by omega⟩
    · obtain ⟨heq, hsize⟩ := lookForJob_of_covered climbing idle job hpos hs
      rw [heq] at hm ⊢
      refine ⟨by simp [endCall, CallTurn.ending?, Ending.done], .covered rfl idle ?_ hs hsize, ?_⟩
      · refine climbing.of_blocks_eq hm climbing.headed rfl rfl rfl (.inl rfl) fun he ht => ?_
        exact absurd (targets_removeJob job ht) (climbing.target_of_idle idle he)
      · simp only [endCall, CallTurn.node, weight, Call.weight, removeJob] at hn ⊢
        omega
  | trying call | downloading call | finished call | covered call =>
    simp only [Node.callStep, call, reduceCtorEq] at ht

/-! ## An answer -/

/-- When a peer has nothing more, the download is over. -/
theorem answerCall_nil {d : JobDownload} (hcall : n.call = some (.asking d)) :
    n.answerCall (.ok []) =
      n.downloadOver { d with download := { d.download with ended := true } } := by
  simp only [answerCall, hcall, receiveBatch, Download.receive, List.getLast?_nil]
  rfl

/-- When blocks come that are linked to what came before, they are enqueued to be attached, and the
download goes on or is over. -/
theorem answerCall_linked {d : JobDownload} (hcall : n.call = some (.asking d)) {blocks : List Block}
    {last : Block} (hlast : blocks.getLast? = some last)
    (hlinked : Linked d.download.last.hash blocks) {d' : JobDownload}
    (hd' : d' = { d with download := d.download.extend blocks last })
    (hm : m = (n.registerTarget d.download.registered last.hash).enqueueBatch blocks d.download.peer
      last.hash) :
    n.answerCall (.ok blocks) =
      if d'.download.request?.isSome then .next { m with call := some (.asking d') }
      else m.downloadOver d' := by
  subst hd' hm
  simp only [answerCall, hcall, receiveBatch, Download.receive_eq hlast hlinked, hlast]

/-- A download along a route that has brought blocks is over: the call ends well. -/
theorem InBounds.downloadOver_eq (hbounds : n.InBounds r latest) {d : JobDownload}
    (hcap : n.settings.downloadCap = cap) (halong : d.download.Along r cap s e d.job.peer)
    (hlt : s < e) (hend : e = min (s + cap) r.blocks.length) :
    ∃ deadline, n.downloadOver d =
      ((n.dropTarget d.job).updateJob (advancedJob d.job d.download deadline)).endCall (.ok ()) := by
  have hcount := halong.count
  obtain ⟨deadline, hdeadline⟩ := hbounds.exists_deadline (d := d.download) (by omega) (by omega)
  refine ⟨deadline, ?_⟩
  rw [downloadOver, if_neg (by omega), recordProgress_eq, hdeadline]

/-- Then neither the queues nor the chain have changed. -/
theorem downloadOver_frame {t : CallTurn BlockTree} {j' : Job}
    (ht : t = ((n.dropTarget j).updateJob j').endCall (.ok ())) :
    t.node.pipeline = n.pipeline ∧ t.node.chain = n.chain := by
  subst ht
  exact ⟨pipeline_dropTarget n j, chain_dropTarget n j⟩

theorem Climbing.downloadOver (h : n.Climbing r e) {t : CallTurn BlockTree} {j' : Job}
    (ht : t = ((n.dropTarget j).updateJob j').endCall (.ok ())) (hm : t.node.Agreeing) :
    t.node.Climbing r e := by
  obtain ⟨hpipeline, hchain⟩ := downloadOver_frame ht
  refine h.of_blocks_eq hm (hchain ▸ h.headed) (by rw [hchain]) (by rw [hchain]) (by rw [hpipeline])
    (.inl (by rw [Node.attachments, hpipeline, Node.attachments])) fun he hfalse => ?_
  subst ht
  exact (h.owes he (unmarked_of_dropTarget hfalse)).congr fun q => by rw [hpipeline]

/-- A download that has brought blocks is over. -/
theorem stage_downloadOver {d : JobDownload} (hjob : JobAt r cap s n d.job) (hs : s < r.goal)
    (hlast : d.download.last = r.place e) (hend : e = min (s + cap) r.blocks.length) (hpos : 0 < e)
    {deadline : Instant} {t : CallTurn BlockTree}
    (ht : t =
      ((n.dropTarget d.job).updateJob (advancedJob d.job d.download deadline)).endCall (.ok ()))
    (hclimbing : t.node.Climbing r e) :
    (∀ err, t.ending? = some err → err = .done) ∧ t.node.Stage r cap s ∧
      t.node.weight = n.pipeline.weight := by
  have hjob' := hjob.advanced hlast hpos hclimbing.le deadline
  subst ht
  refine ⟨by simp [endCall, CallTurn.ending?, Ending.done], ?_, ?_⟩
  · exact .finished rfl hclimbing (hjob'.congr rfl rfl) hs hend
  · simp [endCall, CallTurn.node, weight, Call.weight, updateJob]

theorem weight_asking {d : JobDownload} (hcall : n.call = some (.asking d))
    (hcap : n.settings.downloadCap = cap) (h : d.download.Along r cap s e d.job.peer) :
    n.weight = d.origins.length * (11 * cap + 2) + 11 * (cap - (e - s)) + 1 + n.pipeline.weight := by
  rw [weight, hcall, hcap, Call.weight, h.count]

/-- The next blocks of the route come. -/
theorem stage_answerCall_linked (hbounds : n.InBounds r latest) {d : JobDownload}
    (hcall : n.call = some (.asking d)) (hclimbing : n.Climbing r e) (hjob : JobAt r cap s n d.job)
    (hs : s < r.goal) (halong : d.download.Along r cap s e d.job.peer) {k : Nat} {b : Block}
    (hk : 0 < k) (hwanted : k ≤ d.download.wanted) (hle : e + k ≤ r.blocks.length)
    (hshort : k < d.download.wanted → e + k = r.blocks.length)
    (hb : ((r.blocks.drop e).take k).getLast? = some b) (htip : b.tip = r.place (e + k))
    {t : CallTurn BlockTree} (ht : n.answerCall (.ok ((r.blocks.drop e).take k)) = t)
    (hm : t.node.Agreeing) :
    (∀ err, t.ending? = some err → err = .done) ∧ t.node.Stage r cap s ∧
      t.node.weight < n.weight := by
  have hlinked : Linked d.download.last.hash ((r.blocks.drop e).take k) :=
    halong.last ▸ (r.linked_drop hclimbing.le).take k
  have hhash : b.hash = (r.place (e + k)).hash := by rw [← htip]; rfl
  have hlength : ((r.blocks.drop e).take k).length = k := by
    rw [List.length_take, List.length_drop]
    omega
  have hn := weight_asking hcall hjob.cap_eq halong
  have hroom := halong.wanted_eq
  have hse := halong.le
  -- the download and the node once the blocks are enqueued
  obtain ⟨d', hd'⟩ : ∃ d', d' = { d with
    download := d.download.extend ((r.blocks.drop e).take k) b } := ⟨_, rfl⟩
  obtain ⟨m, hm'⟩ : ∃ m, m = (n.registerTarget d.download.registered b.hash).enqueueBatch
    ((r.blocks.drop e).take k) d.download.peer b.hash := ⟨_, rfl⟩
  have halong' : d'.download.Along r cap s (e + k) d'.job.peer := hd' ▸ halong.extend hlength htip
  have hjob' : JobAt r cap s m d'.job := by
    rw [hd']
    exact hjob.congr (by simp [hm']) (by simp [hm'])
  have hclimbing' {k' : Node BlockTree} (hpipeline : k'.pipeline = m.pipeline)
      (hchain : k'.chain = m.chain) (hk' : k'.Agreeing) : k'.Climbing r (e + k) := by
    refine hclimbing.enqueueBatch hk hle d.download.peer d.download.registered ?_ ?_ hk'
    · rw [hpipeline, hm', hhash]
    · rw [hchain, hm', chain_enqueueBatch, chain_registerTarget]
  have hweight : m.pipeline.weight = n.pipeline.weight + 10 * k := by
    rw [hm', weight_enqueueBatch, hlength, pipeline_registerTarget]
  rw [answerCall_linked hcall hb hlinked hd' hm'] at ht
  subst ht
  by_cases hstop : d'.download.ended = true ∨ d'.download.cap ≤ d'.download.count
  · -- the call ends, and the job goes on from the last block next time
    have hover : ¬ d'.download.request?.isSome = true := by simp [Download.request?, hstop]
    rw [if_neg hover] at hm ⊢
    have hend := halong.eq_of_stop hlength hk hwanted hle hshort (by rwa [hd'] at hstop)
    have hbounds' : m.InBounds r latest :=
      hbounds.congr (by simp [hm']) (by simpa [hm'] using hbounds.now_le)
    obtain ⟨deadline, hover⟩ := hbounds'.downloadOver_eq hjob'.cap_eq halong' (by omega) hend
    obtain ⟨hpipeline, hchain⟩ := downloadOver_frame hover
    obtain ⟨hending, hstage, hweight'⟩ := stage_downloadOver hjob' hs halong'.last hend
      (by omega) hover (hclimbing' hpipeline hchain hm)
    exact ⟨hending, hstage, by omega⟩
  · -- the call asks for more: with 10 for a block in the queue against 11 for one to come
    obtain ⟨hended, hlt⟩ := not_or.mp hstop
    rw [Bool.not_eq_true] at hended
    rw [Nat.not_le] at hlt
    rw [if_pos (by rw [Download.request?_eq hended hlt]; rfl)] at hm ⊢
    refine ⟨fun err herr => ?_, .downloading rfl (hclimbing' rfl rfl hm) (hjob'.congr rfl rfl) hs
      halong' hended hlt, ?_⟩
    · cases herr
    have horigins : d'.origins = d.origins := by rw [hd']
    have hweight' : ({ m with call := some (.asking d') } : Node BlockTree).weight = _ :=
      weight_asking rfl hjob'.cap_eq halong'
    simp only [horigins, hweight] at hweight'
    rw [CallTurn.node, hweight', hn]
    omega

/-- What an asking call asks for. -/
theorem callRequest?_eq {d : JobDownload} (hcall : n.call = some (.asking d))
    (hended : d.download.ended = false) (hlt : d.download.count < d.download.cap) :
    n.callRequest? = some (.following d.download.last.hash d.download.wanted d.download.peer) := by
  simp only [callRequest?, hcall, Download.request?_eq hended hlt]

/-- An answer brings the next blocks of the route, or ends the call. -/
theorem Stage.answerCall (hcap : 0 < cap) (hbounds : n.InBounds r latest) (h : n.Stage r cap s)
    {previous : Hash} {count : Nat}
    {peer : Option Peer} (hrequest : n.callRequest? = some (.following previous count peer))
    {t : CallTurn BlockTree} (ht : n.answerCall (server.answerBatch previous count peer) = t)
    (hm : t.node.Agreeing) :
    (∀ e, t.ending? = some e → e = .done) ∧ t.node.Stage r cap s ∧ t.node.weight < n.weight := by
  cases h with
  | beginning call | looking call | finished call | covered call => simp [callRequest?, call] at hrequest
  | @trying d call idle climbing job below barren download leads =>
    have hcount : d.download.count = 0 := by rw [download]; rfl
    have hpeer : d.download.peer = d.job.peer := by rw [download]; rfl
    rw [callRequest?_eq call (by rw [download]; rfl) (by rw [download]; exact hcap)] at hrequest
    cases hrequest
    have ht : n.downloadFrom d.job d.origins = t := by
      rwa [BlockServer.answerBatch, hpeer, job.peer, barren, answerCall_nil call, downloadOver,
        if_pos hcount] at ht
    subst ht
    obtain ⟨hgoing, hstage, hweight⟩ := stage_downloadFrom hcap idle climbing job below leads hm
    have hn : n.weight = d.origins.length * (11 * cap + 2) + 11 * cap + 1 + n.pipeline.weight := by
      rw [weight, call, job.cap_eq, Call.weight, hcount, Nat.sub_zero]
    exact ⟨by simp [hgoing], hstage, by omega⟩
  | @downloading d e call climbing job below along ended lt =>
    have hgoal := r.goal_le
    have hle := along.le
    rw [along.count, along.cap_eq] at lt
    have hwanted : 0 < d.download.wanted := by
      have := along.batch
      rw [along.wanted_eq]
      omega
    rw [callRequest?_eq call ended (by rwa [along.count, along.cap_eq])] at hrequest
    cases hrequest
    rw [BlockServer.answerBatch, along.peer_eq, job.peer, along.last] at ht
    obtain ⟨hend, hnone⟩ | ⟨k, b, hk, hle, hlength, hshort, hblocks, hb, htip⟩ :=
      r.following_place_cases climbing.le hwanted
    · let last : JobDownload := { d with download := { d.download with ended := true } }
      have along' : last.download.Along r cap s e last.job.peer := { along with }
      obtain ⟨deadline, hover⟩ := hbounds.downloadOver_eq job.cap_eq along' (by omega) (by omega)
      rw [hnone, answerCall_nil call, hover] at ht
      obtain ⟨hending, hstage, hweight⟩ := stage_downloadOver (d := last) job below along'.last
        (by omega) (by omega) ht.symm (climbing.downloadOver ht.symm hm)
      refine ⟨hending, hstage, ?_⟩
      rw [hweight, weight_asking call job.cap_eq along]
      omega
    · rw [hblocks] at ht
      exact stage_answerCall_linked hbounds call climbing job below along hk hle hlength hshort hb htip
        ht hm

/-! ## Every step -/

/-- No queue waits for a peer. -/
theorem Climbing.queueRequest? (h : n.Climbing r e) (q : Queue) : n.queueRequest? q = none := by
  cases hr : (n.pipeline.lane q).running with
  | none => rw [Node.queueRequest?, hr, Option.bind_none]
  | some w =>
    have hbegun := h.agreeing.guarded.inPlace.holds.running q w hr
    rw [Node.queueRequest?, hr, Option.bind_some]
    cases w with
    | fetching => cases q <;> first | exact absurd rfl (h.ne_fetch hr) | exact hbegun.elim
    | fetch | attach | judge | store | handOver | update | report | ended => rfl

/-- However a node that is left alone goes on during a call, it comes to a stage of the call and gets
lighter, and the call ends well if it does. -/
theorem Stage.alone (hcap : 0 < cap) (hpos : 0 < r.goal) (h : n.Stage r cap s)
    (hbounds : n.InBounds r latest) {ending : Option Ending}
    (hm : n.Alone server latest ending m) :
    (∀ e, ending = some e → e = .done) ∧ (m.Stage r cap s ∧ m.InBounds r latest) ∧
      m.weight < n.weight := by
  obtain ⟨e, hclimbing⟩ := h.climbing
  obtain ⟨events, hrun⟩ := hm.run
  have hagreeing : m.Agreeing := agreeing_run hclimbing.agreeing hrun
  have hbounds' : m.InBounds r latest := hbounds.congr (settings_run hrun) hm.now_le
  suffices hstep : (∀ e, ending = some e → e = .done) ∧ m.Stage r cap s ∧ m.weight < n.weight from
    ⟨hstep.1, ⟨hstep.2.1, hbounds'⟩, hstep.2.2⟩
  cases hm with
  | queue millis q hlate hstep => exact ⟨nofun, (h.later millis).queueStep hstep⟩
  | answerQueue millis q hlate hrequest =>
    rw [hclimbing.queueRequest? q] at hrequest
    cases hrequest
  | callStep millis hlate ht => exact (h.later millis).callStep hcap hpos ht hagreeing
  | answerCall millis hlate hrequest =>
    have hlater : (n.later millis).InBounds r latest := hbounds.congr rfl hlate
    exact (h.later millis).answerCall hcap hlater hrequest rfl hagreeing

/-- A call does not get stuck. -/
theorem Stage.exists_alone (hcap : 0 < cap) (h : n.Stage r cap s) (hnow : n.now ≤ latest)
    (hrest : ¬ n.AtRest) : ∃ ending m, n.Alone server latest ending m := by
  have hlate : (n.later 0).now ≤ latest := by simpa [Node.later] using hnow
  have hqueue {e : Nat} (hclimbing : n.Climbing r e) (hcall : n.call = none) :
      ∃ ending m, n.Alone server latest ending m := by
    obtain ⟨q, hworks⟩ : ∃ q, (n.pipeline.lane q).works ≠ [] := by
      by_contra hidle
      exact hrest ⟨hcall, fun q => not_not.mp fun hq => hidle ⟨q, hq⟩⟩
    have hfetch : q ≠ .fetch := by
      rintro rfl
      exact hworks hclimbing.fetch
    obtain ⟨m, hm⟩ := Option.isSome_iff_exists.mp
      ((hclimbing.later 0).agreeing.guarded.inPlace.queueStep_isSome hfetch hworks)
    exact ⟨none, m, .queue 0 q hlate hm⟩
  cases h with
  | beginning call | looking call =>
    obtain ⟨t, ht⟩ : ∃ t, (n.later 0).callStep = some t := by
      have hcall : (n.later 0).call = _ := call
      simp only [Node.callStep, hcall]
      exact ⟨_, rfl⟩
    exact ⟨_, _, .callStep 0 hlate ht⟩
  | trying call idle climbing job below barren download leads =>
    exact ⟨_, _, .answerCall 0 hlate
      (callRequest?_eq call (by rw [download]; rfl) (by rw [download]; exact hcap))⟩
  | downloading call climbing job below along ended lt =>
    exact ⟨_, _, .answerCall 0 hlate (callRequest?_eq call ended lt)⟩
  | finished call climbing => exact hqueue climbing call
  | covered call idle => exact absurd ⟨call, idle⟩ hrest

end Node

end ChainNode

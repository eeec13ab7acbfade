import ChainNode.Proofs.Sync.Expiry
import ChainNode.Proofs.Sync.Placement

/-!
# What was let through

An announcement of a block is let through when none of the block is remembered. Which ones were, a
run tells (`Node.admissions`), and it tells what is remembered: an announcement is filtered out
exactly when one of its block was let through and has not expired (`Node.Remembers.lets_iff`),
whatever became of the work for it. Nothing is let through by a cache that panics.
-/

namespace ChainNode

/-! ## Announcements that were let through -/

/-- The map has an announcement of each block that was let through, with the last time it was. -/
structure AnnouncementMap.Holds (m : AnnouncementMap) (ttl : Duration)
    (admitted : List (Hash × Instant)) : Prop where
  ttl_eq : m.ttl = ttl
  mem : ∀ {hash : Hash} {a : Announcement}, m.entries[hash]? = some a → (hash, a.since) ∈ admitted
  latest : ∀ {hash : Hash} {t : Instant}, (hash, t) ∈ admitted →
    ∃ a, m.entries[hash]? = some a ∧ t ≤ a.since

namespace AnnouncementMap
variable {m : AnnouncementMap} {ttl : Duration} {admitted : List (Hash × Instant)} {now : Instant}
  {hash : Hash}

theorem holds_empty (ttl : Duration) : (empty ttl).Holds ttl [] where
  ttl_eq := rfl
  mem h := by simp [empty] at h
  latest h := (List.not_mem_nil h).elim

/-- Nothing of a block is remembered when all that was let through has expired. -/
theorem Holds.find?_eq_none_iff (h : m.Holds ttl admitted) :
    m.find? now hash = none ↔ ∀ t, (hash, t) ∈ admitted → t.after ttl ≤ now := by
  rw [find?, getElem?_remembered, h.ttl_eq]
  constructor
  · intro hnone t ht
    obtain ⟨a, ha, hle⟩ := h.latest ht
    rw [ha, Option.filter_some, ite_eq_right_iff] at hnone
    have hexpired : a.since.after ttl ≤ now := by
      by_contra hlive
      cases hnone (decide_eq_true (Int.not_le.mp hlive))
    exact Int.le_trans (Int.add_le_add_right hle _) hexpired
  · intro hall
    cases ha : m.entries[hash]? with
    | none => rfl
    | some a =>
      rw [Option.filter_some, if_neg]
      rw [decide_eq_true_iff, Int.not_lt]
      exact hall a.since (h.mem ha)

/-- The announcement of a block may be exchanged for another that was let through at the same time. -/
theorem Holds.exchange (h : m.Holds ttl admitted) {a b : Announcement}
    (ha : m.entries[hash]? = some a) (hsince : b.since = a.since) :
    { m with entries := m.entries.insert hash b }.Holds ttl admitted where
  ttl_eq := h.ttl_eq
  mem {k c} hc := by
    simp only [Std.ExtTreeMap.getElem?_insert, Std.LawfulEqOrd.compare_eq_iff_eq] at hc
    split at hc
    case isTrue hk =>
      obtain rfl := Option.some.inj hc
      exact hk ▸ hsince ▸ h.mem ha
    case isFalse => exact h.mem hc
  latest {k t} ht := by
    obtain ⟨c, hc, hle⟩ := h.latest ht
    simp only [Std.ExtTreeMap.getElem?_insert, Std.LawfulEqOrd.compare_eq_iff_eq]
    split
    case isTrue hk =>
      subst hk
      obtain rfl := Option.some.inj (ha.symm.trans hc)
      exact ⟨b, rfl, hsince ▸ hle⟩
    case isFalse => exact ⟨c, hc, hle⟩

/-- An announcement that is let through now is the last of its block. -/
theorem Holds.admit (h : m.Holds ttl admitted) (hpast : ∀ x ∈ admitted, x.2 ≤ now) (hash : Hash)
    {a : Announcement} (hsince : a.since = now) :
    { m with entries := m.entries.insert hash a }.Holds ttl (admitted ++ [(hash, now)]) where
  ttl_eq := h.ttl_eq
  mem {k c} hc := by
    simp only [Std.ExtTreeMap.getElem?_insert, Std.LawfulEqOrd.compare_eq_iff_eq] at hc
    split at hc
    case isTrue hk =>
      obtain rfl := Option.some.inj hc
      rw [hk, hsince]
      exact List.mem_append_right _ (List.mem_singleton_self _)
    case isFalse => exact List.mem_append_left _ (h.mem hc)
  latest {k t} ht := by
    simp only [Std.ExtTreeMap.getElem?_insert, Std.LawfulEqOrd.compare_eq_iff_eq]
    obtain hold | hnew := List.mem_append.mp ht
    · split
      case isTrue => exact ⟨a, rfl, hsince ▸ hpast _ hold⟩
      case isFalse => exact h.latest hold
    · obtain ⟨rfl, rfl⟩ := Prod.mk.inj (List.mem_singleton.mp hnew)
      exact ⟨a, if_pos rfl, hsince ▸ Int.le_refl _⟩

theorem Holds.add (h : m.Holds ttl admitted) (hpast : ∀ x ∈ admitted, x.2 ≤ now) (hash : Hash)
    (height : UInt64) (sender : Peer) :
    (m.add now hash height sender).2.Holds ttl
      (admitted ++ if (m.add now hash height sender).1 then [(hash, now)] else []) := by
  rw [AnnouncementMap.add]
  cases hfind : m.find? now hash with
  | none => exact h.admit hpast hash rfl
  | some a =>
    dsimp only
    split
    · rwa [if_neg Bool.false_ne_true, List.append_nil]
    · rw [if_neg Bool.false_ne_true, List.append_nil]
      exact h.exchange (entries_of_find? hfind) rfl

theorem Holds.nextCandidate (h : m.Holds ttl admitted) (hash : Hash) :
    (m.nextCandidate now hash).2.Holds ttl admitted := by
  rw [AnnouncementMap.nextCandidate]
  cases hfind : m.find? now hash with
  | none => exact h
  | some a => exact h.exchange (entries_of_find? hfind) rfl

theorem Holds.clearCandidates (h : m.Holds ttl admitted) (hash : Hash) :
    (m.clearCandidates now hash).Holds ttl admitted := by
  rw [AnnouncementMap.clearCandidates]
  cases hfind : m.find? now hash with
  | none => exact h
  | some a => exact h.exchange (entries_of_find? hfind) rfl

end AnnouncementMap

namespace Node
variable {χ κ : Type} {n m : Node χ} {ttl : Duration} {past : List (Hash × Instant)}

/-! ## What is remembered -/

/-- What is announced, and the heads it is judged by. -/
structure Notice where
  heads : Heads
  block : Tip
  sender : Peer

/-- An announcement is let through: it is above the last irreversible height, and none of its block
is remembered. -/
def lets (n : Node χ) (x : Notice) : Bool :=
  match (n.screen x.heads x.block x.sender).1 with
  | .ok fresh => fresh
  | .error _ => false

/-- The block whose announcement is let through, with the time. -/
def admitted (n : Node χ) : Option Notice → List (Hash × Instant)
  | some x => if n.lets x then [(x.block.hash, n.now)] else []
  | none => []

/-- A node remembers the announcements that were let through and have not expired. Nobody has panicked
with the cache as long as what is announced expires at an instant. -/
def Remembers (n : Node χ) (ttl : Duration) (past : List (Hash × Instant)) : Prop :=
  ∃ m : AnnouncementMap, n.announcements.Represents n.now m ∧ m.Holds ttl past ∧
    (∀ x ∈ past, x.2 ≤ n.now) ∧
    (n.now.after ttl ≤ Instant.last → n.announcements.poisoned = false)

theorem remembers_new (settings : SyncSettings) (now : Instant) (chain : χ) :
    (new settings now chain).Remembers settings.announcementTtl [] :=
  ⟨.empty settings.announcementTtl, AnnouncementCache.represents_empty _ _,
    AnnouncementMap.holds_empty _, nofun, fun _ => rfl⟩

/-- The cache can be used as long as what is announced expires at an instant. -/
theorem Remembers.usable (h : n.Remembers ttl past) (hnow : n.now.after ttl ≤ Instant.last) :
    n.announcements.Usable n.now := by
  obtain ⟨map, hmap, hholds, -, hsound⟩ := h
  exact hmap.usable_of_now (hsound hnow) (hholds.ttl_eq ▸ hnow)

/-- What is announced is checked against what is remembered. -/
theorem Remembers.screen (h : n.Remembers ttl past) (x : Notice) :
    (n.screen x.heads x.block x.sender).2.Remembers ttl (past ++ n.admitted (some x)) := by
  have husable := h.usable
  obtain ⟨map, hmap, hholds, hpast, hsound⟩ := h
  rw [admitted, lets, Node.screen, Validation.announcement]
  by_cases hlow : x.block.height ≤ x.heads.irreversible.height
  · simp only [if_pos hlow, Bool.false_eq_true, if_false, List.append_nil]
    exact ⟨map, hmap, hholds, hpast, hsound⟩
  · simp only [if_neg hlow]
    obtain ⟨-, hanswer, hp, hafter⟩ | ⟨p, he, hanswer, -, hafter⟩ :=
      hmap.add x.block.hash x.block.height x.sender
    · have hadd := hholds.add hpast x.block.hash x.block.height x.sender
      rw [hanswer]
      refine ⟨_, hafter, hadd, ?_, fun _ => hp⟩
      intro y hy
      obtain hold | hnew := List.mem_append.mp hy
      · exact hpast y hold
      · dsimp only at hnew
        split at hnew
        · exact Int.le_of_eq (congrArg Prod.snd (List.mem_singleton.mp hnew))
        · cases hnew
    · rw [hanswer]
      simp only [Bool.false_eq_true, if_false, List.append_nil]
      exact ⟨map, hafter, hholds, hpast, fun hnow => nomatch he.symm.trans (husable hnow)⟩

/-- **Only what was let through is remembered.** An announcement above the last irreversible height is
let through exactly when the cache can be used and all announcements of its block that were let through
have expired. -/
theorem Remembers.lets_iff (h : n.Remembers ttl past) {x : Notice}
    (hheight : x.heads.irreversible.height < x.block.height) :
    n.lets x = true ↔ n.announcements.Usable n.now ∧
      ∀ t, (x.block.hash, t) ∈ past → t.after ttl ≤ n.now := by
  obtain ⟨map, hmap, hholds, -⟩ := h
  rw [lets, Node.screen, Validation.announcement, if_neg (UInt64.not_le.mpr hheight),
    ← hholds.find?_eq_none_iff]
  obtain ⟨hu, hanswer, -⟩ | ⟨p, he, hanswer, -⟩ :=
    hmap.add x.block.hash x.block.height x.sender
  · simp only [hanswer, hu, true_and]
    rw [AnnouncementMap.add]
    cases map.find? n.now x.block.hash with
    | none => simp
    | some a =>
      dsimp only
      split <;> simp
  · simp [hanswer, AnnouncementCache.Usable, he]


/-! ## What becomes of it -/

/-- What becomes of the announcements that are remembered. -/
inductive Recalls (n m : Node χ) : Option Notice → Prop
  /-- An announcement comes in. -/
  | screen (x : Notice) (hnow : m.now = n.now)
    (h : m.announcements = (n.screen x.heads x.block x.sender).2.announcements) :
    Recalls n m (some x)
  | keep (hnow : n.now ≤ m.now) (h : m.announcements = n.announcements) : Recalls n m none
  | clear (hash : Hash) (hnow : m.now = n.now)
    (h : m.announcements = (n.announcements.clearCandidates n.now hash).2) : Recalls n m none
  | next (hash : Hash) (hnow : m.now = n.now)
    (h : m.announcements = (n.announcements.nextCandidate n.now hash).2) : Recalls n m none

/-- Nothing else about the node after the event matters. -/
theorem Recalls.congr {k : Node χ} {x : Option Notice} (h : Recalls n k x) (hnow : m.now = k.now)
    (hann : m.announcements = k.announcements) : Recalls n m x := by
  cases h with
  | screen x hnow' h => exact .screen x (hnow.trans hnow') (hann.trans h)
  | keep hnow' h => exact .keep (hnow ▸ hnow') (hann.trans h)
  | clear hash hnow' h => exact .clear hash (hnow.trans hnow') (hann.trans h)
  | next hash hnow' h => exact .next hash (hnow.trans hnow') (hann.trans h)

/-- Whatever becomes of the announcements, those that were let through are remembered. -/
theorem Remembers.recalls (h : n.Remembers ttl past) {x : Option Notice} (hm : Recalls n m x) :
    m.Remembers ttl (past ++ n.admitted x) := by
  cases hm with
  | screen x hnow hann =>
    rw [Remembers, hann, hnow]
    exact h.screen x
  | keep hnow hann =>
    obtain ⟨map, hmap, hholds, hpast, hsound⟩ := h
    rw [admitted, List.append_nil, Remembers, hann]
    refine ⟨map, hmap.later hnow, hholds, fun y hy => Int.le_trans (hpast y hy) hnow, fun hle => ?_⟩
    exact hsound (Int.le_trans (Int.add_le_add_right hnow _) hle)
  | clear hash hnow hann =>
    have husable := h.usable
    obtain ⟨map, hmap, hholds, hpast, -⟩ := h
    rw [admitted, List.append_nil, Remembers, hann, hnow]
    obtain ⟨-, -, hp, hafter⟩ | ⟨p, he, -, -, hafter⟩ := hmap.clearCandidates hash
    · exact ⟨_, hafter, hholds.clearCandidates hash, hpast, fun _ => hp⟩
    · exact ⟨_, hafter, hholds, hpast, fun hnow => nomatch he.symm.trans (husable hnow)⟩
  | next hash hnow hann =>
    have husable := h.usable
    obtain ⟨map, hmap, hholds, hpast, -⟩ := h
    rw [admitted, List.append_nil, Remembers, hann, hnow]
    obtain ⟨-, -, hp, hafter⟩ | ⟨p, he, -, -, hafter⟩ := hmap.nextCandidate hash
    · exact ⟨_, hafter, hholds.nextCandidate hash, hpast, fun _ => hp⟩
    · exact ⟨_, hafter, hholds, hpast, fun hnow => nomatch he.symm.trans (husable hnow)⟩

theorem syncAnnounced_frame (n : Node χ) (heads : Heads) (w : Wanted) (batch : Nat) :
    (n.syncAnnounced heads w batch).2.now = n.now ∧
      (n.syncAnnounced heads w batch).2.announcements = n.announcements := by
  rw [syncAnnounced]
  split
  · dsimp only
    split <;> exact ⟨rfl, rfl⟩
  · exact ⟨rfl, rfl⟩
  · exact ⟨rfl, rfl⟩

theorem syncBlock_frame (n : Node χ) (heads : Heads) (b : Block) (batch : Nat)
    (peer : Option Peer) :
    (n.syncBlock heads b batch peer).2.now = n.now ∧
      (n.syncBlock heads b batch peer).2.announcements = n.announcements := by
  rw [syncBlock]
  split
  · dsimp only
    split <;> exact ⟨rfl, rfl⟩
  · exact ⟨rfl, rfl⟩
  · exact ⟨rfl, rfl⟩

theorem recalls_announceUnder (heads : Heads) (block : Tip) (sender : Peer) :
    Recalls n (n.announceUnder heads block sender).2 (some ⟨heads, block, sender⟩) := by
  rw [announceUnder]
  split <;> rename_i k h <;> obtain rfl := congrArg Prod.snd h
  · obtain ⟨hnow, hann⟩ := syncAnnounced_frame (n.screen heads block sender).2 heads
      ⟨block, some sender⟩ n.settings.batch
    exact .screen _ hnow hann
  · exact .screen _ rfl rfl
  · exact .screen _ rfl rfl

theorem recalls_pushUnder (heads : Heads) (b : Block) (sender : Peer) :
    Recalls n (n.pushUnder heads b sender).2 (some ⟨heads, b.tip, sender⟩) := by
  rw [pushUnder]
  split <;> rename_i k h <;> obtain rfl := congrArg Prod.snd h
  · obtain ⟨hnow, hann⟩ := syncBlock_frame (n.screen heads b.tip sender).2 heads b
      n.settings.batch (some sender)
    exact .screen _ hnow hann
  · exact .screen _ rfl rfl
  · exact .screen _ rfl rfl

theorem recalls_finishFetch (w : Wanted) (retries : Nat) (answer : BlockAnswer) :
    Recalls n (n.finishFetch w retries answer).2 none := by
  have haccept : (n.acceptBlock w answer).2.now = n.now ∧
      (n.acceptBlock w answer).2.announcements = n.announcements := by
    unfold acceptBlock
    split
    · split <;> exact ⟨rfl, rfl⟩
    · exact ⟨rfl, rfl⟩
  rw [finishFetch]
  split <;> rename_i k h <;> obtain rfl := congrArg Prod.snd h
  · refine .clear w.block.hash haccept.1 ?_
    rw [fetched, haccept.1, haccept.2]
  · cases retries with
    | succ retries => exact .keep (Int.le_of_eq haccept.1.symm) haccept.2
    | zero =>
      simp only [notFetched]
      rw [haccept.1, haccept.2]
      split
      · exact .next w.block.hash rfl rfl
      · exact .next w.block.hash rfl rfl
      · exact .next w.block.hash rfl rfl

variable [ChainService χ]

/-- Reading the heads first makes no difference. -/
theorem Recalls.of_heads {x : Notice} (h : Recalls n.heads.2 m (some x)) : Recalls n m (some x) := by
  cases h with
  | screen _ hnow hann => exact .screen x hnow hann

/-! ## Runs -/

/-- What an event announces. A block that is pushed announces itself. -/
def notice? (n : Node χ) : Event κ → Option Notice
  | .announce block sender => n.heads.1.toOption.map fun heads => ⟨heads, block, sender⟩
  | .push b sender => n.heads.1.toOption.map fun heads => ⟨heads, b.tip, sender⟩
  | .announceUnder heads block sender => some ⟨heads, block, sender⟩
  | .pushUnder heads b sender => some ⟨heads, b.tip, sender⟩
  | _ => none

theorem recalls_announce (block : Tip) (sender : Peer) :
    Recalls n (n.announce block sender).2 (n.notice? (.announce block sender : Event κ)) := by
  rw [announce, notice?]
  split <;> rename_i k h <;> obtain rfl := congrArg Prod.snd h <;> rw [h]
  · exact .keep (Int.le_refl _) rfl
  · exact (recalls_announceUnder _ block sender).of_heads

theorem recalls_push (b : Block) (sender : Peer) :
    Recalls n (n.push b sender).2 (n.notice? (.push b sender : Event κ)) := by
  rw [push, notice?]
  split <;> rename_i k h <;> obtain rfl := congrArg Prod.snd h <;> rw [h]
  · exact .keep (Int.le_refl _) rfl
  · exact (recalls_pushUnder _ b sender).of_heads

theorem WorkerMoves.recalls (h : n.WorkerMoves m) : Recalls n m none :=
  .keep (Int.le_of_eq h.frame.1.symm) h.frame.2

/-- Of all work, only a fetch that finds its block forgets candidates. -/
theorem recalls_workStep {w w' : Work} (h : n.workStep w = some (w', m)) : Recalls n m none := by
  cases workEffect_of_workStep h with
  | chain | handOver => exact .keep (Int.le_refl _) rfl
  | fetched _ wanted => exact .clear wanted.block.hash rfl rfl
  | complete _ c =>
    match c with
    | none | some (.markTarget _) | some (.note _) => exact .keep (Int.le_refl _) rfl

theorem recalls_queueStep {q : Queue} (h : n.queueStep q = some m) : Recalls n m none := by
  obtain ⟨p, -, rfl⟩ | ⟨r, -, rfl⟩ | ⟨w, w', k, -, hk, rfl⟩ := queueStep_cases h
  · exact .keep (Int.le_refl _) rfl
  · exact .keep (Int.le_refl _) rfl
  · exact (recalls_workStep hk).congr rfl rfl

/-- An event that announces something has it checked; others at most use up candidates. -/
theorem recalls_step {act : κ → χ → χ} {e : Event κ} (h : step act n e = some m) :
    Recalls n m (n.notice? e) := by
  cases e <;> simp only [step, Option.some.injEq] at h
  case wait millis =>
    subst h
    exact .keep (Int.le_add_of_nonneg_right (Int.natCast_nonneg millis)) rfl
  case announce block sender => exact h ▸ recalls_announce block sender
  case push b sender => exact h ▸ recalls_push b sender
  case announceUnder heads block sender => exact h ▸ recalls_announceUnder heads block sender
  case pushUnder heads b sender => exact h ▸ recalls_pushUnder heads b sender
  case syncAnnounced heads wanted batch =>
    obtain ⟨hnow, hann⟩ := syncAnnounced_frame n heads wanted batch
    exact h ▸ .keep (Int.le_of_eq hnow.symm) hann
  case syncBlock heads b batch peer =>
    obtain ⟨hnow, hann⟩ := syncBlock_frame n heads b batch peer
    exact h ▸ .keep (Int.le_of_eq hnow.symm) hann
  case enqueueJob target batch peer => exact h ▸ .keep (Int.le_refl _) rfl
  case call => exact (workerMoves_beginCall h).recalls
  case callStep =>
    obtain ⟨t, ht, rfl⟩ := Option.map_eq_some_iff.mp h
    exact (workerMoves_callStep ht).recalls
  case answerCall answer =>
    obtain ⟨_, -, rfl⟩ := Option.map_eq_some_iff.mp h
    exact (workerMoves_answerCall n answer).recalls
  case queue q => exact recalls_queueStep h
  case answerQueue q answer =>
    obtain ⟨_, -, rfl⟩ := Option.map_eq_some_iff.mp h
    rw [answerQueue]
    split
    · exact (recalls_finishFetch _ _ answer).congr rfl rfl
    · exact .keep (Int.le_refl _) rfl
  case post q => exact h ▸ .keep (Int.le_refl _) rfl
  case chain change => exact h ▸ .keep (Int.le_refl _) rfl

/-- The blocks whose announcements a run lets through, with the times. -/
def admissions (act : κ → χ → χ) : Node χ → List (Event κ) → List (Hash × Instant)
  | _, [] => []
  | n, e :: rest => n.admitted (n.notice? e) ++ match step act n e with
    | none => []
    | some m => admissions act m rest

theorem admissions_append {act : κ → χ → χ} {n m : Node χ} {past : List (Event κ)}
    (h : run act n past = some m) (events : List (Event κ)) :
    admissions act n (past ++ events) = admissions act n past ++ admissions act m events := by
  induction past generalizing n with
  | nil =>
    obtain rfl := Option.some.inj h
    rfl
  | cons e rest ih =>
    rw [run_cons] at h
    obtain ⟨k, hk, hrest⟩ := Option.bind_eq_some_iff.mp h
    simp only [List.cons_append, admissions, hk, ih hrest, List.append_assoc]

/-- Whatever happens, a node remembers what was let through and has not expired. -/
theorem remembers_run {act : κ → χ → χ} {settings : SyncSettings} {now : Instant} {chain : χ}
    {events : List (Event κ)} (hrun : run act (new settings now chain) events = some n) :
    n.Remembers settings.announcementTtl (admissions act (new settings now chain) events) := by
  refine run_history (P := fun past n => n.Remembers settings.announcementTtl
    (admissions act (new settings now chain) past)) ?_ (remembers_new settings now chain) hrun
  intro past k e k' hk hpast hstep
  rw [admissions_append hk, admissions, hstep]
  simpa [admissions] using hpast.recalls (recalls_step hstep)

end Node

end ChainNode

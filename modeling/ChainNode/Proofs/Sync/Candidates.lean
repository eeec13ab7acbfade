import ChainNode.Proofs.Sync.Dropped

/-!
# The candidates for a block

While a block is remembered, those that announce it again become candidates for its fetch, one after
the other. What the cache does with one announcement and its candidates is read off the map that it
stands for (`Node.recalled?_eq_some_iff`). No operation panics while an announcement is remembered that
expires at an instant of the clock.
-/

namespace ChainNode

/-! ## The announcement of one block -/

namespace AnnouncementMap
variable {m : AnnouncementMap} {now : Instant} {hash other : Hash} {a b : Announcement}

theorem find?_eq_some_iff :
    m.find? now hash = some a ↔ m.entries[hash]? = some a ∧ now < a.since.after m.ttl := by
  rw [find?, getElem?_remembered, Option.filter_eq_some_iff, decide_eq_true_iff]

/-- An announcement is remembered until it expires. -/
theorem find?_later (h : m.find? now hash = some a) {later : Instant}
    (hlive : later < a.since.after m.ttl) : m.find? later hash = some a :=
  find?_eq_some_iff.mpr ⟨(find?_eq_some_iff.mp h).1, hlive⟩

theorem find?_exchange (h : m.find? now hash = some a) (hsince : b.since = a.since) :
    { m with entries := m.entries.insert hash b }.find? now hash = some b := by
  rw [find?_eq_some_iff, hsince]
  exact ⟨Std.ExtTreeMap.getElem?_insert_self, (find?_eq_some_iff.mp h).2⟩

theorem find?_exchange_of_ne (hne : other ≠ hash) (b : Announcement) :
    { m with entries := m.entries.insert other b }.find? now hash = m.find? now hash := by
  rw [find?, find?, getElem?_remembered, getElem?_remembered, Std.ExtTreeMap.getElem?_insert,
    if_neg (by simpa using hne)]

/-- The sender of a further announcement becomes the last candidate. -/
theorem find?_add (h : m.find? now hash = some a) (height : UInt64) (sender : Peer) :
    (m.add now hash height sender).1 = false ∧
      (m.add now hash height sender).2.find? now hash = some { a with
        candidates := a.candidates ++ if sender ∈ a.candidates then [] else [sender] } := by
  rw [add, h]
  dsimp only
  split
  · rw [List.append_nil]
    exact ⟨rfl, h⟩
  · exact ⟨rfl, find?_exchange h rfl⟩

theorem find?_add_of_ne (hne : other ≠ hash) (height : UInt64) (sender : Peer) :
    (m.add now other height sender).2.find? now hash = m.find? now hash := by
  rw [add]
  split
  · exact find?_exchange_of_ne hne _
  · split
    · rfl
    · exact find?_exchange_of_ne hne _

theorem find?_nextCandidate (h : m.find? now hash = some a) :
    (m.nextCandidate now hash).1 = a.candidates.head? ∧
      (m.nextCandidate now hash).2.find? now hash =
        some { a with candidates := a.candidates.tail } := by
  rw [nextCandidate, h]
  exact ⟨rfl, find?_exchange h rfl⟩

theorem find?_nextCandidate_of_ne (hne : other ≠ hash) :
    (m.nextCandidate now other).2.find? now hash = m.find? now hash := by
  rw [nextCandidate]
  split
  · rfl
  · exact find?_exchange_of_ne hne _

theorem find?_clearCandidates (h : m.find? now hash = some a) :
    (m.clearCandidates now hash).find? now hash = some { a with candidates := [] } := by
  rw [clearCandidates, h]
  exact find?_exchange h rfl

theorem find?_clearCandidates_of_ne (hne : other ≠ hash) :
    (m.clearCandidates now other).find? now hash = m.find? now hash := by
  rw [clearCandidates]
  split
  · rfl
  · exact find?_exchange_of_ne hne _

end AnnouncementMap

namespace Node

variable {χ : Type} {n m : Node χ} {hash : Hash} {a : Announcement}

/-- The announcement of a block, if it is remembered and the cache can be used. -/
def recalled? (n : Node χ) (hash : Hash) : Option Announcement :=
  match n.announcements.evict n.now with
  | (.ok (), c) => c.entries[hash]?
  | (.error _, _) => none

/-- The peers that are left to be asked for a block. -/
def candidates (n : Node χ) (hash : Hash) : List Peer :=
  ((n.recalled? hash).map Announcement.candidates).getD []

/-- The peer that becomes a candidate for a block by an announcement. -/
def joins (n : Node χ) (hash : Hash) : Option Notice → List Peer
  | some x =>
    if x.block.hash = hash ∧ x.heads.irreversible.height < x.block.height ∧
      x.sender ∉ n.candidates hash then [x.sender] else []
  | none => []

/-! ## What is remembered of the block -/

theorem recalled?_congr (hnow : m.now = n.now) (hann : m.announcements = n.announcements) :
    m.recalled? hash = n.recalled? hash := by
  rw [recalled?, recalled?, hnow, hann]

/-- What is remembered is what the map finds that the cache stands for. -/
theorem recalled?_eq_some_iff {map : AnnouncementMap}
    (h : n.announcements.Represents n.now map) :
    n.recalled? hash = some a ↔
      n.announcements.Usable n.now ∧ map.find? n.now hash = some a := by
  rw [recalled?, AnnouncementCache.Usable]
  split <;> rename_i c he
  · have hu : n.announcements.Usable n.now := congrArg Prod.fst he
    obtain ⟨-, hentries, -⟩ := h.evict hu
    rw [he] at hentries
    rw [AnnouncementMap.find?, ← hentries, he]
    simp
  · rw [he]
    simp

/-- Where nobody has panicked, it is enough that the announcement expires at an instant. -/
theorem recalled?_of_dated {map : AnnouncementMap} (h : n.announcements.Represents n.now map)
    (hp : n.announcements.poisoned = false) (hdated : a.Dated map.ttl)
    (hfind : map.find? n.now hash = some a) : n.recalled? hash = some a :=
  (recalled?_eq_some_iff h).mpr ⟨h.usable hp hfind hdated, hfind⟩

theorem candidates_of_recalled? (h : n.recalled? hash = some a) :
    n.candidates hash = a.candidates := by
  rw [candidates, h]
  rfl

/-- While something is remembered, using the cache comes to what using the map comes to. -/
theorem recalled?_follows {α : Type} {map : AnnouncementMap} {r : α × AnnouncementMap}
    {out : Except Panic α × AnnouncementCache} {b : Announcement}
    (hmap : n.announcements.Represents n.now map) (ha : n.recalled? hash = some a)
    (h : n.announcements.Follows n.now map r out) (hdated : b.Dated r.2.ttl)
    (hfind : r.2.find? n.now hash = some b) :
    out.1 = .ok r.1 ∧ { n with announcements := out.2 }.recalled? hash = some b := by
  obtain ⟨hu, -⟩ := (recalled?_eq_some_iff hmap).mp ha
  obtain ⟨hanswer, hp, hafter⟩ := h.of_usable hu
  exact ⟨hanswer, recalled?_of_dated hafter hp hdated hfind⟩

section Recalled
variable {ttl : Duration} {past : List (Hash × Instant)} {other : Hash}

theorem Remembers.recalled?_keep (h : n.Remembers ttl past) (ha : n.recalled? hash = some a)
    (hdated : a.Dated ttl) (hnow : n.now ≤ m.now) (hann : m.announcements = n.announcements)
    (hlive : m.now < a.since.after ttl) : m.recalled? hash = some a := by
  obtain ⟨map, hmap, hholds, -⟩ := h
  obtain rfl := hholds.ttl_eq
  have hlater : m.announcements.Represents m.now map := hann ▸ hmap.later hnow
  obtain ⟨hu, hfind⟩ := (recalled?_eq_some_iff hmap).mp ha
  have hp : m.announcements.poisoned = false := hann ▸ hu.not_poisoned
  exact recalled?_of_dated hlater hp hdated (AnnouncementMap.find?_later hfind hlive)

/-- A further announcement of the block is filtered out; its sender may become a candidate. -/
theorem Remembers.recalled?_screen (h : n.Remembers ttl past) (ha : n.recalled? hash = some a)
    (hdated : a.Dated ttl) (x : Notice) :
    (x.block.hash = hash → n.lets x = false) ∧
      (n.screen x.heads x.block x.sender).2.recalled? hash =
        some { a with candidates := a.candidates ++ n.joins hash (some x) } := by
  obtain ⟨map, hmap, hholds, -⟩ := h
  obtain rfl := hholds.ttl_eq
  simp only [lets, Node.screen, Validation.announcement, joins, candidates_of_recalled? ha]
  by_cases hlow : x.block.height ≤ x.heads.irreversible.height
  · have hskip : ¬ (x.block.hash = hash ∧ x.heads.irreversible.height < x.block.height ∧
        x.sender ∉ a.candidates) := fun hx => UInt64.not_lt.mpr hlow hx.2.1
    simp only [if_pos hlow, if_neg hskip, List.append_nil]
    exact ⟨fun _ => trivial, ha⟩
  · obtain ⟨-, hfind⟩ := (recalled?_eq_some_iff hmap).mp ha
    have hadd := hmap.add x.block.hash x.block.height x.sender
    simp only [if_neg hlow]
    by_cases hx : x.block.hash = hash
    · subst hx
      obtain ⟨hfalse, hfound⟩ := AnnouncementMap.find?_add hfind x.block.height x.sender
      obtain ⟨hanswer, hafter⟩ := recalled?_follows hmap ha hadd
        (show Announcement.Dated _ _ by rwa [AnnouncementMap.ttl_add]) hfound
      rw [hanswer]
      refine ⟨fun _ => hfalse, hafter.trans ?_⟩
      by_cases hs : x.sender ∈ a.candidates
      · rw [if_pos hs, if_neg (fun hx => hx.2.2 hs)]
      · rw [if_neg hs, if_pos ⟨rfl, UInt64.not_le.mp hlow, hs⟩]
    · rw [if_neg (fun h => hx h.1), List.append_nil]
      refine ⟨fun h => absurd h hx, (recalled?_follows hmap ha hadd ?_ ?_).2⟩
      · rwa [AnnouncementMap.ttl_add]
      · exact (AnnouncementMap.find?_add_of_ne hx ..).trans hfind

/-- What is let through is remembered from then on, with no candidates. -/
theorem Remembers.recalled?_admitted (h : n.Remembers ttl past) {x : Notice}
    (hlets : n.lets x = true) (hlive : n.now < n.now.after ttl)
    (hdated : n.now.after ttl ≤ Instant.last) :
    (n.screen x.heads x.block x.sender).2.recalled? x.block.hash =
      some ⟨x.block.height, [], n.now⟩ := by
  obtain ⟨map, hmap, hholds, -⟩ := h
  obtain rfl := hholds.ttl_eq
  simp only [lets, Node.screen, Validation.announcement] at hlets ⊢
  by_cases hlow : x.block.height ≤ x.heads.irreversible.height
  · rw [if_pos hlow] at hlets
    cases hlets
  · simp only [if_neg hlow] at hlets ⊢
    obtain ⟨-, hanswer, hp, hafter⟩ | ⟨p, -, hanswer, -⟩ :=
      hmap.add x.block.hash x.block.height x.sender
    · rw [hanswer] at hlets
      refine recalled?_of_dated hafter hp ?_ ?_
      · rwa [AnnouncementMap.ttl_add]
      · cases hfind : map.find? n.now x.block.hash with
        | some a =>
          have hfalse := (AnnouncementMap.find?_add hfind x.block.height x.sender).1
          cases hlets.symm.trans hfalse
        | none =>
          rw [AnnouncementMap.add, hfind, AnnouncementMap.find?_eq_some_iff]
          exact ⟨Std.ExtTreeMap.getElem?_insert_self, hlive⟩
    · rw [hanswer] at hlets
      cases hlets

theorem Remembers.recalled?_next (h : n.Remembers ttl past) (ha : n.recalled? hash = some a)
    (hdated : a.Dated ttl) :
    (n.announcements.nextCandidate n.now hash).1 = .ok a.candidates.head? ∧
      { n with announcements := (n.announcements.nextCandidate n.now hash).2 }.recalled? hash =
        some { a with candidates := a.candidates.tail } := by
  obtain ⟨map, hmap, hholds, -⟩ := h
  obtain rfl := hholds.ttl_eq
  obtain ⟨-, hfind⟩ := (recalled?_eq_some_iff hmap).mp ha
  obtain ⟨hhead, htail⟩ := AnnouncementMap.find?_nextCandidate hfind
  rw [← hhead]
  refine recalled?_follows hmap ha (hmap.nextCandidate hash) ?_ htail
  rwa [AnnouncementMap.ttl_nextCandidate]

theorem Remembers.recalled?_next_of_ne (h : n.Remembers ttl past) (ha : n.recalled? hash = some a)
    (hdated : a.Dated ttl) (hne : other ≠ hash) :
    { n with announcements := (n.announcements.nextCandidate n.now other).2 }.recalled? hash =
      some a := by
  obtain ⟨map, hmap, hholds, -⟩ := h
  obtain rfl := hholds.ttl_eq
  obtain ⟨-, hfind⟩ := (recalled?_eq_some_iff hmap).mp ha
  refine (recalled?_follows hmap ha (hmap.nextCandidate other) ?_ ?_).2
  · rwa [AnnouncementMap.ttl_nextCandidate]
  · exact (AnnouncementMap.find?_nextCandidate_of_ne hne).trans hfind

theorem Remembers.recalled?_fetched (h : n.Remembers ttl past) (ha : n.recalled? hash = some a)
    (hdated : a.Dated ttl) {w : Wanted} (hw : w.block.hash = hash) :
    (n.fetched w).2.recalled? hash = some { a with candidates := [] } := by
  obtain ⟨map, hmap, hholds, -⟩ := h
  obtain rfl := hholds.ttl_eq
  subst hw
  obtain ⟨-, hfind⟩ := (recalled?_eq_some_iff hmap).mp ha
  refine (recalled?_follows hmap ha (hmap.clearCandidates w.block.hash) ?_ ?_).2
  · rwa [AnnouncementMap.ttl_clearCandidates]
  · exact AnnouncementMap.find?_clearCandidates hfind

theorem Remembers.recalled?_fetched_of_ne (h : n.Remembers ttl past)
    (ha : n.recalled? hash = some a) (hdated : a.Dated ttl) {w : Wanted}
    (hw : w.block.hash ≠ hash) : (n.fetched w).2.recalled? hash = some a := by
  obtain ⟨map, hmap, hholds, -⟩ := h
  obtain rfl := hholds.ttl_eq
  obtain ⟨-, hfind⟩ := (recalled?_eq_some_iff hmap).mp ha
  refine (recalled?_follows hmap ha (hmap.clearCandidates w.block.hash) ?_ ?_).2
  · rwa [AnnouncementMap.ttl_clearCandidates]
  · exact (AnnouncementMap.find?_clearCandidates_of_ne hw).trans hfind

end Recalled

end Node

end ChainNode

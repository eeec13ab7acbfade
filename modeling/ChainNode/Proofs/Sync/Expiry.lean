import ChainNode.Sync.Announcements
import Mathlib.Data.List.Nodup

/-!
# Announcements expire

A plain map of announcements (`AnnouncementMap`) drops nothing: it looks at the time to tell which of
its announcements are remembered. The cache drops expired ones, but only from the front of its order.
This is enough, since the order lists the stored announcements by the time they were let through
(`AnnouncementCache.Valid`): after dropping, those that are left are the remembered ones
(`AnnouncementCache.Swept`). So cache and map answer alike as long as time does not go back.

An announcement that expires at no instant of the clock is the end of this: once such a one is the
oldest, the cache panics, and ever after. The map behind a lock (`LockedMap`) says when.
-/

namespace ChainNode

/-- The announcements that are remembered at a time, for so long after they were let through. -/
def remembered (ttl : Duration) (now : Instant) (entries : Std.ExtTreeMap Hash Announcement) :
    Std.ExtTreeMap Hash Announcement :=
  entries.filter fun _ a => now < a.since.after ttl

/-- An announcement expires at an instant of the clock. -/
def Announcement.Dated (a : Announcement) (ttl : Duration) : Prop := a.since.after ttl ≤ Instant.last

instance (a : Announcement) (ttl : Duration) : Decidable (a.Dated ttl) :=
  inferInstanceAs (Decidable (_ ≤ _))

section Remembered
variable {ttl : Duration} {now : Instant} {entries entries' : Std.ExtTreeMap Hash Announcement}

theorem getElem?_remembered (hash : Hash) :
    (remembered ttl now entries)[hash]? =
      entries[hash]?.filter fun a => now < a.since.after ttl :=
  Std.ExtTreeMap.getElem?_filter'

/-- What is remembered later is remembered of what is remembered now. -/
theorem remembered_later {later : Instant} (h : now ≤ later) :
    remembered ttl later (remembered ttl now entries) = remembered ttl later entries := by
  apply Std.ExtTreeMap.ext_getElem?
  intro hash
  simp only [getElem?_remembered, Option.filter_filter]
  congr 1
  funext a
  rw [Bool.and_eq_right_iff_imp, decide_eq_true_iff, decide_eq_true_iff]
  exact fun ha => Int.lt_of_le_of_lt h ha

/-- An announcement that is put in place of another has no part in what else is remembered. -/
theorem remembered_insert_congr (h : remembered ttl now entries = remembered ttl now entries')
    (hash : Hash) (a : Announcement) :
    remembered ttl now (entries.insert hash a) = remembered ttl now (entries'.insert hash a) := by
  apply Std.ExtTreeMap.ext_getElem?
  intro k
  have hk := congrArg (fun e => e[k]?) h
  simp only [getElem?_remembered] at hk ⊢
  simp only [Std.ExtTreeMap.getElem?_insert]
  by_cases he : compare hash k = .eq
  · rw [if_pos he, if_pos he]
  · rw [if_neg he, if_neg he, hk]

/-- An announcement that has expired has no part in what is remembered. -/
theorem remembered_erase {hash : Hash} {a : Announcement} (ha : entries[hash]? = some a)
    (hexpired : a.since.after ttl ≤ now) :
    remembered ttl now (entries.erase hash) = remembered ttl now entries := by
  apply Std.ExtTreeMap.ext_getElem?
  intro k
  rw [getElem?_remembered, getElem?_remembered, Std.ExtTreeMap.getElem?_erase]
  split
  case isFalse => rfl
  case isTrue hk =>
    rw [← Std.LawfulEqOrd.compare_eq_iff_eq.mp hk, ha, Option.filter_some, Option.filter_none,
      if_neg (by simpa using hexpired)]

/-- Putting in what is there changes nothing. -/
theorem insert_of_getElem? {hash : Hash} {a : Announcement} (h : entries[hash]? = some a) :
    entries.insert hash a = entries := by
  apply Std.ExtTreeMap.ext_getElem?
  intro k
  rw [Std.ExtTreeMap.getElem?_insert]
  split
  case isTrue hk => rw [← Std.LawfulEqOrd.compare_eq_iff_eq.mp hk, h]
  case isFalse => rfl

end Remembered

/-! ## The map -/

/-- Announcements by block. None is ever dropped. -/
structure AnnouncementMap where
  ttl : Duration
  entries : Std.ExtTreeMap Hash Announcement

namespace AnnouncementMap

/-- Nothing announced yet. -/
def empty (ttl : Duration) : AnnouncementMap := ⟨ttl, ∅⟩

/-- The announcement of a block, if it is remembered. -/
def find? (m : AnnouncementMap) (now : Instant) (hash : Hash) : Option Announcement :=
  (remembered m.ttl now m.entries)[hash]?

/-- Takes note of an announcement. It is let through if none of its block is remembered; otherwise its
sender becomes the last candidate, unless it is one already. -/
def add (m : AnnouncementMap) (now : Instant) (hash : Hash) (height : UInt64) (sender : Peer) :
    Bool × AnnouncementMap :=
  match m.find? now hash with
  | none => (true, { m with entries := m.entries.insert hash ⟨height, [], now⟩ })
  | some a =>
    if sender ∈ a.candidates then (false, m)
    else
      let a := { a with candidates := a.candidates ++ [sender] }
      (false, { m with entries := m.entries.insert hash a })

/-- Takes the first candidate of a block. -/
def nextCandidate (m : AnnouncementMap) (now : Instant) (hash : Hash) :
    Option Peer × AnnouncementMap :=
  match m.find? now hash with
  | none => (none, m)
  | some a =>
    (a.candidates.head?,
      { m with entries := m.entries.insert hash { a with candidates := a.candidates.tail } })

/-- Leaves a block no candidates. -/
def clearCandidates (m : AnnouncementMap) (now : Instant) (hash : Hash) : AnnouncementMap :=
  match m.find? now hash with
  | none => m
  | some a => { m with entries := m.entries.insert hash { a with candidates := [] } }

section Ttl
variable (m : AnnouncementMap) (now : Instant) (hash : Hash)

@[simp] theorem ttl_add (height : UInt64) (sender : Peer) :
    (m.add now hash height sender).2.ttl = m.ttl := by
  rw [add]
  split
  · rfl
  · split <;> rfl

@[simp] theorem ttl_nextCandidate : (m.nextCandidate now hash).2.ttl = m.ttl := by
  rw [nextCandidate]
  split <;> rfl

@[simp] theorem ttl_clearCandidates : (m.clearCandidates now hash).ttl = m.ttl := by
  rw [clearCandidates]
  split <;> rfl

end Ttl

end AnnouncementMap

/-! ## What can be asked -/

/-- A call on remembered announcements. -/
inductive AnnouncementCall
  | add (hash : Hash) (height : UInt64) (sender : Peer)
  | nextCandidate (hash : Hash)
  | clearCandidates (hash : Hash)
  | height (hash : Hash)
  | size

/-- The answer to a call. -/
inductive AnnouncementAnswer
  | letThrough (yes : Bool)
  | candidate (peer : Option Peer)
  | cleared
  | height (height : Option UInt64)
  | size (n : Nat)
  | panicked (p : Panic)
  deriving DecidableEq, Repr

/-- What is answered where something may have panicked. -/
def AnnouncementAnswer.of {α : Type} (f : α → AnnouncementAnswer) : Except Panic α → AnnouncementAnswer
  | .ok a => f a
  | .error p => panicked p

/-- A call on the cache. -/
def AnnouncementCache.perform (c : AnnouncementCache) (now : Instant) :
    AnnouncementCall → AnnouncementAnswer × AnnouncementCache
  | .add hash height sender => (c.add now hash height sender).map (.of .letThrough) id
  | .nextCandidate hash => (c.nextCandidate now hash).map (.of .candidate) id
  | .clearCandidates hash => (c.clearCandidates now hash).map (.of fun () => .cleared) id
  | .height hash => (c.height? now hash).map (.of .height) id
  | .size => (c.size now).map (.of .size) id

/-- A call on the map. -/
def AnnouncementMap.perform (m : AnnouncementMap) (now : Instant) :
    AnnouncementCall → AnnouncementAnswer × AnnouncementMap
  | .add hash height sender => (m.add now hash height sender).map .letThrough id
  | .nextCandidate hash => (m.nextCandidate now hash).map .candidate id
  | .clearCandidates hash => (.cleared, m.clearCandidates now hash)
  | .height hash => (.height ((m.find? now hash).map Announcement.height), m)
  | .size => (.size (remembered m.ttl now m.entries).size, m)

theorem AnnouncementMap.ttl_perform (m : AnnouncementMap) (now : Instant) (call : AnnouncementCall) :
    (m.perform now call).2.ttl = m.ttl := by
  cases call with
  | add | nextCandidate | clearCandidates => simp [perform]
  | height | size => rfl

/-- Something is remembered, and none of it expires at an instant of the clock. -/
def AnnouncementMap.Undated (m : AnnouncementMap) (now : Instant) : Prop :=
  let live := (remembered m.ttl now m.entries).toList
  live ≠ [] ∧ ∀ x ∈ live, ¬ x.2.Dated m.ttl

instance (m : AnnouncementMap) (now : Instant) : Decidable (m.Undated now) :=
  inferInstanceAs (Decidable (_ ∧ _))

/-- A map of announcements behind a lock. -/
structure LockedMap where
  map : AnnouncementMap
  poisoned : Bool

namespace LockedMap

/-- Nothing announced yet. -/
def empty (ttl : Duration) : LockedMap := ⟨.empty ttl, false⟩

/-- A call on the map behind the lock. The first one that finds nothing but announcements that expire at
no instant panics and poisons the lock. -/
def perform (l : LockedMap) (now : Instant) (call : AnnouncementCall) :
    AnnouncementAnswer × LockedMap :=
  if l.poisoned then (.panicked .poisonedLock, l)
  else if l.map.Undated now then (.panicked .instantOverflow, { l with poisoned := true })
  else (l.map.perform now call).map id fun map => { l with map }

end LockedMap

/-- Calls one after the other, each at its time: the answers, and what they leave. -/
def performAll {σ : Type} (perform : σ → Instant → AnnouncementCall → AnnouncementAnswer × σ) :
    σ → List (Instant × AnnouncementCall) → List AnnouncementAnswer × σ
  | s, [] => ([], s)
  | s, (now, call) :: rest =>
    let (answer, s) := perform s now call
    let (answers, s) := performAll perform s rest
    (answer :: answers, s)

/-- Calls at times that do not go back begin at some time. -/
theorem exists_start {calls : List (Instant × AnnouncementCall)}
    (htimes : calls.Pairwise fun earlier later => earlier.1 ≤ later.1) :
    ∃ start : Instant, ∀ call ∈ calls, start ≤ call.1 := by
  cases calls with
  | nil => exact ⟨0, by simp⟩
  | cons call rest =>
    refine ⟨call.1, List.forall_mem_cons.mpr ⟨Int.le_refl _, ?_⟩⟩
    exact (List.pairwise_cons.mp htimes).1

namespace AnnouncementCache

variable {c : AnnouncementCache} {m : AnnouncementMap} {last now : Instant} {hash : Hash}

/-! ## The order of the cache -/

/-- The order lists each stored announcement once, by the time it was let through, and none was let
through later than the last use of the cache. -/
structure Valid (c : AnnouncementCache) (last : Instant) : Prop where
  nodup : c.order.Nodup
  mem_order : ∀ hash, hash ∈ c.order ↔ hash ∈ c.entries
  sorted : c.order.Pairwise fun h k => ∀ a b, c.entries[h]? = some a → c.entries[k]? = some b →
    a.since ≤ b.since
  since_le : ∀ (hash : Hash) (a : Announcement), c.entries[hash]? = some a → a.since ≤ last

theorem valid_empty (ttl : Duration) (last : Instant) : (empty ttl).Valid last where
  nodup := List.nodup_nil
  mem_order hash := by simp [empty]
  sorted := List.Pairwise.nil
  since_le hash a ha := by simp [empty] at ha

theorem Valid.later (h : c.Valid last) (hle : last ≤ now) : c.Valid now :=
  { h with since_le := fun hash a ha => Int.le_trans (h.since_le hash a ha) hle }

/-- Dropping the oldest announcement leaves the others in order. -/
theorem Valid.dropOldest {ttl : Duration} {entries : Std.ExtTreeMap Hash Announcement}
    {rest : List Hash} {poisoned : Bool} (h : Valid ⟨ttl, entries, hash :: rest, poisoned⟩ last) :
    Valid ⟨ttl, entries.erase hash, rest, poisoned⟩ last := by
  have hnodup := List.nodup_cons.mp h.nodup
  have hkept {k : Hash} {a : Announcement} (hk : (entries.erase hash)[k]? = some a) :
      entries[k]? = some a := by
    rw [Std.ExtTreeMap.getElem?_erase] at hk
    split at hk
    · cases hk
    · exact hk
  refine ⟨hnodup.2, ?_, ?_, fun k a hk => h.since_le k a (hkept hk)⟩
  · intro k
    rw [Std.ExtTreeMap.mem_erase, ← h.mem_order k, List.mem_cons, ne_eq,
      Std.LawfulEqOrd.compare_eq_iff_eq]
    constructor
    · intro hk
      exact ⟨(ne_of_mem_of_not_mem hk hnodup.1).symm, .inr hk⟩
    · rintro ⟨hne, rfl | hk⟩
      · exact absurd rfl hne
      · exact hk
  · exact (List.pairwise_cons.mp h.sorted).2.imp fun hle a b ha hb => hle a b (hkept ha) (hkept hb)

/-- No announcement is older than the one at the front. -/
theorem Valid.oldest_le {ttl : Duration} {entries : Std.ExtTreeMap Hash Announcement}
    {rest : List Hash} {poisoned : Bool} (h : Valid ⟨ttl, entries, hash :: rest, poisoned⟩ last)
    {a : Announcement} (ha : entries[hash]? = some a) {k : Hash} {b : Announcement}
    (hb : entries[k]? = some b) : a.since ≤ b.since := by
  obtain rfl | hmem := List.mem_cons.mp
    ((h.mem_order k).mpr (Std.ExtTreeMap.mem_iff_isSome_getElem?.mpr (by simp [hb])))
  · rw [ha] at hb
    cases hb
    exact Int.le_refl _
  · exact (List.pairwise_cons.mp h.sorted).1 k hmem a b ha hb

/-- An announcement at the front that has not expired shows that none has. -/
theorem Valid.remembered_of_oldest {ttl : Duration} {entries : Std.ExtTreeMap Hash Announcement}
    {rest : List Hash} {poisoned : Bool} (h : Valid ⟨ttl, entries, hash :: rest, poisoned⟩ last)
    {a : Announcement} (ha : entries[hash]? = some a) (hlive : now < a.since.after ttl) :
    remembered ttl now entries = entries := by
  apply Std.ExtTreeMap.ext_getElem?
  intro k
  rw [getElem?_remembered]
  cases hk : entries[k]? with
  | none => rfl
  | some b =>
    have hb : now < b.since.after ttl :=
      Int.lt_of_lt_of_le hlive (Int.add_le_add_right (h.oldest_le ha hk) _)
    rw [Option.filter_some, if_pos (decide_eq_true hb)]

theorem expired_of_dated {ttl : Duration} {a : Announcement} (h : a.Dated ttl) (now : Instant) :
    expired ttl now (some a) = .ok (a.since.after ttl ≤ now) := by
  have hplus : a.since.plus ttl = .ok (a.since.after ttl) := if_pos h
  rw [expired, hplus]
  rfl

theorem expired_of_not_dated {ttl : Duration} {a : Announcement} (h : ¬ a.Dated ttl)
    (now : Instant) : expired ttl now (some a) = .error .instantOverflow := by
  have hplus : a.since.plus ttl = .error .instantOverflow := if_neg h
  rw [expired, hplus]
  rfl

/-- What dropping expired announcements comes to, if these are remembered. -/
inductive Swept (ttl : Duration) (now : Instant) (live : Std.ExtTreeMap Hash Announcement) :
    Except Panic Unit × AnnouncementCache → Prop
  /-- What is left is remembered; where anything is left, the oldest expires at an instant. -/
  | done {order : List Hash}
    (hdated : ∀ (k : Hash) (a : Announcement), live[k]? = some a →
      ∃ (k : Hash) (b : Announcement), live[k]? = some b ∧ b.Dated ttl) :
    Swept ttl now live (.ok (), ⟨ttl, live, order, false⟩)
  /-- The oldest one that is left expires at no instant, nor do the others. -/
  | stuck {left : Std.ExtTreeMap Hash Announcement} {order : List Hash}
    (hlive : remembered ttl now left = live)
    (hsome : ∃ (k : Hash) (a : Announcement), left[k]? = some a)
    (hundated : ∀ (k : Hash) (a : Announcement), left[k]? = some a → ¬ a.Dated ttl) :
    Swept ttl now live (.error .instantOverflow, ⟨ttl, left, order, true⟩)

/-- **Nothing expired is left.** Dropping from the front of the order leaves what is remembered, unless
it comes to an announcement that expires at no instant. -/
theorem Valid.evictFrom {ttl : Duration} {entries : Std.ExtTreeMap Hash Announcement}
    {order : List Hash} (h : Valid ⟨ttl, entries, order, false⟩ last) (now : Instant) :
    Swept ttl now (remembered ttl now entries) (evictFrom ttl now entries order) ∧
      (evictFrom ttl now entries order).2.Valid last := by
  induction order generalizing entries with
  | nil =>
    have hnone (k : Hash) : entries[k]? = none :=
      Std.ExtTreeMap.getElem?_eq_none fun hk => List.not_mem_nil ((h.mem_order k).mpr hk)
    have hall : remembered ttl now entries = entries := by
      apply Std.ExtTreeMap.ext_getElem?
      intro k
      rw [getElem?_remembered, hnone, Option.filter_none]
    rw [hall]
    exact ⟨.done fun k a ha => by simp [hnone] at ha, h⟩
  | cons hash rest ih =>
    obtain ⟨a, ha⟩ : ∃ a, entries[hash]? = some a :=
      ⟨_, Std.ExtTreeMap.getElem?_eq_some_getElem ((h.mem_order hash).mp List.mem_cons_self)⟩
    by_cases hdated : a.Dated ttl
    · have hstep := expired_of_dated hdated now
      by_cases hexpired : a.since.after ttl ≤ now
      · simp only [AnnouncementCache.evictFrom, ha, hstep, decide_eq_true hexpired]
        rw [← remembered_erase ha hexpired]
        exact ih h.dropOldest
      · simp only [AnnouncementCache.evictFrom, ha, hstep, decide_eq_false hexpired]
        rw [h.remembered_of_oldest ha (Int.not_le.mp hexpired)]
        exact ⟨.done fun _ _ _ => ⟨hash, a, ha, hdated⟩, h⟩
    · simp only [AnnouncementCache.evictFrom, ha, expired_of_not_dated hdated now]
      refine ⟨.stuck rfl ⟨hash, a, ha⟩ fun k b hb hb' => hdated ?_, { h with }⟩
      exact Int.le_trans (Int.add_le_add_right (h.oldest_le ha hb) _) hb'

/-- A stored announcement may be exchanged for another that was let through at the same time. -/
theorem Valid.exchange (h : c.Valid last) {a a' : Announcement} (ha : c.entries[hash]? = some a)
    (hsince : a'.since = a.since) : { c with entries := c.entries.insert hash a' }.Valid last := by
  have hmem : hash ∈ c.entries := Std.ExtTreeMap.mem_iff_isSome_getElem?.mpr (by simp [ha])
  have hold {k : Hash} {b : Announcement} (hb : (c.entries.insert hash a')[k]? = some b) :
      ∃ b', c.entries[k]? = some b' ∧ b'.since = b.since := by
    rw [Std.ExtTreeMap.getElem?_insert] at hb
    split at hb
    case isTrue hk =>
      obtain rfl := Std.LawfulEqOrd.compare_eq_iff_eq.mp hk
      exact ⟨a, ha, hsince.symm.trans (congrArg _ (Option.some.inj hb))⟩
    case isFalse => exact ⟨b, hb, rfl⟩
  refine ⟨h.nodup, ?_, ?_, ?_⟩
  · intro k
    rw [Std.ExtTreeMap.mem_insert, h.mem_order, Std.LawfulEqOrd.compare_eq_iff_eq]
    constructor
    · exact .inr
    · rintro (rfl | hk)
      · exact hmem
      · exact hk
  · refine h.sorted.imp fun hle b b' hb hb' => ?_
    obtain ⟨d, hd, hds⟩ := hold hb
    obtain ⟨d', hd', hds'⟩ := hold hb'
    rw [← hds, ← hds']
    exact hle d d' hd hd'
  · intro k b hb
    obtain ⟨d, hd, hds⟩ := hold hb
    exact hds ▸ h.since_le k d hd

/-- A block that is not stored goes to the end of the order. -/
theorem Valid.append (h : c.Valid last) (hnew : hash ∉ c.entries) {a : Announcement}
    (hsince : a.since = last) :
    { c with entries := c.entries.insert hash a, order := c.order ++ [hash] }.Valid last := by
  have hne {k : Hash} (hk : k ∈ c.order) : hash ≠ k :=
    fun he => hnew (he ▸ (h.mem_order k).mp hk)
  have hold {k : Hash} (hk : k ∈ c.order) : (c.entries.insert hash a)[k]? = c.entries[k]? := by
    rw [Std.ExtTreeMap.getElem?_insert, if_neg (by simpa using hne hk)]
  refine ⟨?_, ?_, ?_, ?_⟩
  · rw [List.nodup_append]
    refine ⟨h.nodup, List.nodup_singleton _, ?_⟩
    rintro k hk k' hk' rfl
    exact hne hk (List.mem_singleton.mp hk').symm
  · intro k
    rw [List.mem_append, List.mem_singleton, Std.ExtTreeMap.mem_insert, h.mem_order,
      Std.LawfulEqOrd.compare_eq_iff_eq, or_comm, eq_comm]
  · rw [List.pairwise_append]
    refine ⟨?_, List.pairwise_singleton _ _, ?_⟩
    · refine h.sorted.imp_of_mem fun hk hk' hle b b' hb hb' => hle b b' ?_ ?_
      · exact hold hk ▸ hb
      · exact hold hk' ▸ hb'
    · intro k hk k' hk' b b' hb hb'
      obtain rfl := List.mem_singleton.mp hk'
      rw [hold hk] at hb
      rw [Std.ExtTreeMap.getElem?_insert_self] at hb'
      rw [← Option.some.inj hb', hsince]
      exact h.since_le k b hb
  · intro k b hb
    rw [Std.ExtTreeMap.getElem?_insert] at hb
    split at hb
    · exact Int.le_of_eq (Option.some.inj hb ▸ hsince)
    · exact h.since_le k b hb

/-! ## Cache and map -/

/-- A cache and a map remember the same. -/
structure Represents (c : AnnouncementCache) (now : Instant) (m : AnnouncementMap) : Prop where
  valid : c.Valid now
  ttl_eq : c.ttl = m.ttl
  remembered_eq : remembered c.ttl now c.entries = remembered m.ttl now m.entries

theorem represents_empty (ttl : Duration) (now : Instant) :
    (empty ttl).Represents now (.empty ttl) := ⟨valid_empty ttl now, rfl, rfl⟩

theorem Represents.later (h : c.Represents last m) (hle : last ≤ now) : c.Represents now m where
  valid := h.valid.later hle
  ttl_eq := h.ttl_eq
  remembered_eq := by
    rw [← remembered_later hle, h.remembered_eq, ← h.ttl_eq, remembered_later hle]

/-- What is swept stands for the same map. -/
theorem Swept.represents {r : Except Panic Unit × AnnouncementCache}
    (h : Swept m.ttl now (remembered m.ttl now m.entries) r) (hvalid : r.2.Valid now) :
    r.2.Represents now m := by
  cases h with
  | done => exact ⟨hvalid, rfl, remembered_later (Int.le_refl _)⟩
  | stuck hlive => exact ⟨hvalid, rfl, hlive⟩

theorem Represents.sweep (h : c.Represents now m) (hp : c.poisoned = false) :
    Swept m.ttl now (remembered m.ttl now m.entries) (c.evict now) ∧
      (c.evict now).2.Represents now m := by
  obtain ⟨ttl, entries, order, poisoned⟩ := c
  obtain rfl : poisoned = false := hp
  obtain ⟨hswept, hvalid⟩ := h.valid.evictFrom now
  have hlive : remembered ttl now entries = remembered m.ttl now m.entries := h.remembered_eq
  have httl : ttl = m.ttl := h.ttl_eq
  rw [hlive, httl] at hswept
  rw [httl] at hvalid
  rw [AnnouncementCache.evict, if_neg Bool.false_ne_true]
  simp only [httl]
  exact ⟨hswept, hswept.represents hvalid⟩

/-- The cache can be used: looking for expired announcements does not panic. -/
def Usable (c : AnnouncementCache) (now : Instant) : Prop := (c.evict now).1 = .ok ()

theorem Usable.not_poisoned (h : c.Usable now) : c.poisoned = false := by
  rw [Usable, AnnouncementCache.evict] at h
  split at h
  · cases h
  · exact eq_false_of_ne_true ‹_›

/-- The cache stores what is remembered of the map once it has dropped what has expired. -/
theorem Represents.evict (h : c.Represents now m) (hu : c.Usable now) :
    (c.evict now).2.Represents now m ∧ (c.evict now).2.entries = remembered m.ttl now m.entries ∧
      (c.evict now).2.poisoned = false := by
  obtain ⟨hswept, hafter⟩ := h.sweep hu.not_poisoned
  refine ⟨hafter, ?_⟩
  rw [Usable] at hu
  generalize c.evict now = r at hswept hu
  cases hswept with
  | done => exact ⟨rfl, rfl⟩
  | stuck => cases hu

/-- A cache that panics when it is looked at remembers the same, and can never be used again. -/
theorem Represents.evict_error (h : c.Represents now m) {p : Panic}
    (he : (c.evict now).1 = .error p) :
    (c.evict now).2.Represents now m ∧ (c.evict now).2.poisoned = true := by
  cases hp : c.poisoned with
  | true =>
    rw [AnnouncementCache.evict, if_pos hp]
    exact ⟨h, hp⟩
  | false =>
    obtain ⟨hswept, hafter⟩ := h.sweep hp
    refine ⟨hafter, ?_⟩
    generalize c.evict now = r at hswept he
    cases hswept with
    | done => cases he
    | stuck => rfl

/-- A cache that nobody has panicked with can be used while something is remembered that expires at an
instant. -/
theorem Represents.usable (h : c.Represents now m) (hp : c.poisoned = false) {a : Announcement}
    (ha : m.find? now hash = some a) (hdated : a.Dated m.ttl) : c.Usable now := by
  obtain ⟨hswept, -⟩ := h.sweep hp
  rw [Usable]
  generalize c.evict now = r at hswept
  cases hswept with
  | done => rfl
  | stuck hlive hsome hundated =>
    rw [AnnouncementMap.find?, ← hlive, getElem?_remembered, Option.filter_eq_some_iff] at ha
    exact absurd hdated (hundated hash a ha.1)

/-- A cache that nobody has panicked with can be used while what is announced expires at an instant. -/
theorem Represents.usable_of_now (h : c.Represents now m) (hp : c.poisoned = false)
    (hnow : now.after m.ttl ≤ Instant.last) : c.Usable now := by
  obtain ⟨hswept, hafter⟩ := h.sweep hp
  rw [Usable]
  generalize c.evict now = r at hswept hafter
  cases hswept with
  | done => rfl
  | stuck hlive hsome hundated =>
    obtain ⟨hash, a, ha⟩ := hsome
    have hle : a.since.after m.ttl ≤ now.after m.ttl :=
      Int.add_le_add_right (hafter.valid.since_le hash a ha) _
    exact absurd (Int.le_trans hle hnow) (hundated hash a ha)

/-- Looking at a cache that nobody has panicked with panics where all that is remembered expires at no
instant. -/
theorem Represents.evict_fst (h : c.Represents now m) (hp : c.poisoned = false)
    (hnow : now ≤ Instant.last) :
    (c.evict now).1 = if m.Undated now then .error .instantOverflow else .ok () := by
  have hlive (k : Hash) (a : Announcement) : (k, a) ∈ (remembered m.ttl now m.entries).toList ↔
      (remembered m.ttl now m.entries)[k]? = some a :=
    Std.ExtTreeMap.mem_toList_iff_getElem?_eq_some
  obtain ⟨hswept, -⟩ := h.sweep hp
  generalize c.evict now = r at hswept
  cases hswept with
  | done hdated =>
    rw [if_neg]
    rintro ⟨hne, hundated⟩
    obtain ⟨⟨k, a⟩, ha⟩ := List.exists_mem_of_ne_nil _ hne
    obtain ⟨k', b, hb, hdated⟩ := hdated k a ((hlive k a).mp ha)
    exact hundated (k', b) ((hlive k' b).mpr hb) hdated
  | @stuck left _ hleft hsome hundated =>
    -- The clock has not come to its end, so none of those left has expired.
    have hall : left = remembered m.ttl now m.entries := by
      rw [← hleft]
      apply Std.ExtTreeMap.ext_getElem?
      intro k
      rw [getElem?_remembered]
      cases hk : left[k]? with
      | none => rfl
      | some a =>
        have ha : now < a.since.after m.ttl :=
          Int.lt_of_le_of_lt hnow (Int.not_le.mp (hundated k a hk))
        rw [Option.filter_some, if_pos (decide_eq_true ha)]
    rw [if_pos]
    obtain ⟨k, a, ha⟩ := hsome
    rw [hall] at ha
    refine ⟨List.ne_nil_of_mem ((hlive k a).mpr ha), fun x hx => hundated x.1 x.2 ?_⟩
    rw [hall]
    exact (hlive x.1 x.2).mp hx

theorem Represents.exchange (h : c.Represents now m) {a b : Announcement}
    (ha : c.entries[hash]? = some a) (hsince : b.since = a.since) :
    { c with entries := c.entries.insert hash b }.Represents now
      { m with entries := m.entries.insert hash b } where
  valid := h.valid.exchange ha hsince
  ttl_eq := h.ttl_eq
  remembered_eq := by
    have heq := h.remembered_eq
    simp only [h.ttl_eq] at heq ⊢
    exact remembered_insert_congr heq hash b

theorem Represents.append (h : c.Represents now m) (hnew : hash ∉ c.entries) {a : Announcement}
    (hsince : a.since = now) :
    { c with entries := c.entries.insert hash a, order := c.order ++ [hash] }.Represents now
      { m with entries := m.entries.insert hash a } where
  valid := h.valid.append hnew hsince
  ttl_eq := h.ttl_eq
  remembered_eq := by
    have heq := h.remembered_eq
    simp only [h.ttl_eq] at heq ⊢
    exact remembered_insert_congr heq hash a

/-- Using the cache comes to what using the map comes to; or it panics, the same is remembered, and the
cache can never be used again. -/
def Follows {α : Type} (c : AnnouncementCache) (now : Instant) (m : AnnouncementMap)
    (r : α × AnnouncementMap) (out : Except Panic α × AnnouncementCache) : Prop :=
  (c.Usable now ∧ out.1 = .ok r.1 ∧ out.2.poisoned = false ∧ out.2.Represents now r.2) ∨
  ∃ p, (c.evict now).1 = .error p ∧ out.1 = .error p ∧ out.2.poisoned = true ∧
    out.2.Represents now m

theorem Follows.of_usable {α : Type} {r : α × AnnouncementMap}
    {out : Except Panic α × AnnouncementCache} (h : c.Follows now m r out) (hu : c.Usable now) :
    out.1 = .ok r.1 ∧ out.2.poisoned = false ∧ out.2.Represents now r.2 := by
  obtain ⟨-, h⟩ | ⟨p, hp, -⟩ := h
  · exact h
  · rw [Usable, hp] at hu
    cases hu

theorem Represents.use {α : Type} (h : c.Represents now m) (r : α × AnnouncementMap)
    (f : AnnouncementCache → α × AnnouncementCache)
    (hf : ∀ c' : AnnouncementCache, c'.Represents now m →
      c'.entries = remembered m.ttl now m.entries →
        (f c').1 = r.1 ∧ (f c').2.poisoned = c'.poisoned ∧ (f c').2.Represents now r.2) :
    c.Follows now m r (c.use now f) := by
  rw [AnnouncementCache.use]
  split <;> rename_i c' he <;> obtain rfl := congrArg Prod.snd he
  · have hu : c.Usable now := congrArg Prod.fst he
    obtain ⟨hafter, hentries, hp⟩ := h.evict hu
    obtain ⟨hanswer, hp', hafter'⟩ := hf _ hafter hentries
    exact .inl ⟨hu, congrArg _ hanswer, hp'.trans hp, hafter'⟩
  · rename_i p
    have he : (c.evict now).1 = .error p := congrArg Prod.fst he
    obtain ⟨hafter, hp⟩ := h.evict_error he
    exact .inr ⟨p, he, rfl, hp, hafter⟩

theorem Represents.add (h : c.Represents now m) (hash : Hash) (height : UInt64) (sender : Peer) :
    c.Follows now m (m.add now hash height sender) (c.add now hash height sender) := by
  refine h.use _ _ fun d hd hentries => ?_
  rw [note, AnnouncementMap.add, AnnouncementMap.find?, ← hentries]
  cases ha : d.entries[hash]? with
  | none =>
    have hnew : hash ∉ d.entries := by
      rw [Std.ExtTreeMap.mem_iff_isSome_getElem?, ha]
      nofun
    exact ⟨rfl, rfl, hd.append hnew rfl⟩
  | some a =>
    by_cases hs : sender ∈ a.candidates
    · simp only [if_pos hs, insert_of_getElem? ha, true_and]
      exact hd
    · simp only [if_neg hs, true_and]
      exact hd.exchange ha rfl

theorem Represents.nextCandidate (h : c.Represents now m) (hash : Hash) :
    c.Follows now m (m.nextCandidate now hash) (c.nextCandidate now hash) := by
  refine h.use _ _ fun d hd hentries => ?_
  rw [takeCandidate, AnnouncementMap.nextCandidate, AnnouncementMap.find?, ← hentries]
  cases ha : d.entries[hash]? with
  | none => exact ⟨rfl, rfl, hd⟩
  | some a =>
    obtain ⟨height, candidates, since⟩ := a
    cases candidates with
    | nil =>
      -- Where there are no candidates, the map exchanges the announcement for itself.
      have hexchange := hd.exchange ha (b := ⟨height, [], since⟩) rfl
      rw [insert_of_getElem? ha] at hexchange
      exact ⟨rfl, rfl, hexchange⟩
    | cons peer rest => exact ⟨rfl, rfl, hd.exchange ha rfl⟩

theorem Represents.clearCandidates (h : c.Represents now m) (hash : Hash) :
    c.Follows now m ((), m.clearCandidates now hash) (c.clearCandidates now hash) := by
  refine h.use _ _ fun d hd hentries => ?_
  rw [dropCandidates, AnnouncementMap.clearCandidates, AnnouncementMap.find?, ← hentries]
  cases ha : d.entries[hash]? with
  | none => exact ⟨rfl, rfl, hd⟩
  | some a => exact ⟨rfl, rfl, hd.exchange ha rfl⟩

/-- A call gets the same answer from both, and leaves them remembering the same; or it panics. -/
theorem Represents.perform (h : c.Represents now m) (call : AnnouncementCall) :
    (c.Usable now ∧ (c.perform now call).1 = (m.perform now call).1 ∧
      (c.perform now call).2.poisoned = false ∧
        (c.perform now call).2.Represents now (m.perform now call).2) ∨
    ∃ p, (c.evict now).1 = .error p ∧ (c.perform now call).1 = .panicked p ∧
      (c.perform now call).2.poisoned = true ∧ (c.perform now call).2.Represents now m := by
  have hanswer {α : Type} {r : α × AnnouncementMap} {out : Except Panic α × AnnouncementCache}
      (f : α → AnnouncementAnswer) (hout : c.Follows now m r out) :
      (c.Usable now ∧ AnnouncementAnswer.of f out.1 = f r.1 ∧ out.2.poisoned = false ∧
        out.2.Represents now r.2) ∨
      ∃ p, (c.evict now).1 = .error p ∧ AnnouncementAnswer.of f out.1 = .panicked p ∧
        out.2.poisoned = true ∧ out.2.Represents now m := by
    obtain ⟨hu, hout, hafter⟩ | ⟨p, hp, hout, hafter⟩ := hout
    · exact .inl ⟨hu, by rw [hout]; rfl, hafter⟩
    · exact .inr ⟨p, hp, by rw [hout]; rfl, hafter⟩
  cases call with
  | add hash height sender => exact hanswer _ (h.add hash height sender)
  | nextCandidate hash => exact hanswer _ (h.nextCandidate hash)
  | clearCandidates hash => exact hanswer _ (h.clearCandidates hash)
  | height hash =>
    refine hanswer _ (h.use ((m.find? now hash).map Announcement.height, m) _ fun d hd hentries => ?_)
    exact ⟨by rw [AnnouncementMap.find?, ← hentries], rfl, hd⟩
  | size =>
    refine hanswer _ (h.use ((remembered m.ttl now m.entries).size, m) _ fun d hd hentries => ?_)
    exact ⟨by rw [← hentries], rfl, hd⟩

/-- Nobody gets anything else from a cache that somebody has panicked with. -/
theorem perform_of_poisoned (hp : c.poisoned = true) (now : Instant) (call : AnnouncementCall) :
    c.perform now call = (.panicked .poisonedLock, c) := by
  have hlook : c.evict now = (.error .poisonedLock, c) := if_pos hp
  cases call <;>
    simp [perform, add, nextCandidate, clearCandidates, height?, size, use, hlook,
      AnnouncementAnswer.of]

/-- A cache and a map behind a lock remember the same, and the same has become of their locks. -/
structure Matches (c : AnnouncementCache) (now : Instant) (l : LockedMap) : Prop where
  represents : c.Represents now l.map
  poisoned_eq : c.poisoned = l.poisoned

theorem Matches.perform {l : LockedMap} (h : c.Matches now l) (hnow : now ≤ Instant.last)
    (call : AnnouncementCall) :
    (c.perform now call).1 = (l.perform now call).1 ∧
      (c.perform now call).2.Matches now (l.perform now call).2 := by
  have hlook : (c.evict now).1 = if l.poisoned then .error .poisonedLock
      else if l.map.Undated now then .error .instantOverflow else .ok () := by
    rw [← h.poisoned_eq]
    split
    case isTrue hp => rw [AnnouncementCache.evict, if_pos hp]
    case isFalse hp => exact h.represents.evict_fst (eq_false_of_ne_true hp) hnow
  have hcases := h.represents.perform call
  rw [LockedMap.perform]
  by_cases hp : l.poisoned
  · rw [if_pos hp] at hlook ⊢
    obtain ⟨hu, -⟩ | ⟨p, he, hanswer, hp', hafter⟩ := hcases
    · cases hlook.symm.trans hu
    · cases hlook.symm.trans he
      exact ⟨hanswer, hafter, hp'.trans hp.symm⟩
  · rw [if_neg hp] at hlook ⊢
    by_cases hundated : l.map.Undated now
    · rw [if_pos hundated] at hlook ⊢
      obtain ⟨hu, -⟩ | ⟨p, he, hanswer, hp', hafter⟩ := hcases
      · cases hlook.symm.trans hu
      · cases hlook.symm.trans he
        exact ⟨hanswer, hafter, hp'⟩
    · rw [if_neg hundated] at hlook ⊢
      obtain ⟨-, hanswer, hp', hafter⟩ | ⟨p, he, -⟩ := hcases
      · exact ⟨hanswer, hafter, hp'.trans (eq_false_of_ne_true hp).symm⟩
      · cases hlook.symm.trans he

/-- Calls at times that do not go back get the same answers from both. -/
theorem Matches.performAll {l : LockedMap} (h : c.Matches last l)
    {calls : List (Instant × AnnouncementCall)}
    (hlast : ∀ call ∈ calls, last ≤ call.1 ∧ call.1 ≤ Instant.last)
    (htimes : calls.Pairwise fun earlier later => earlier.1 ≤ later.1) :
    (performAll AnnouncementCache.perform c calls).1 = (performAll LockedMap.perform l calls).1 ∧
      ∃ now, (performAll AnnouncementCache.perform c calls).2.Valid now := by
  induction calls generalizing c l last with
  | nil => exact ⟨rfl, last, h.represents.valid⟩
  | cons call rest ih =>
    obtain ⟨hfirst, hrest⟩ := List.pairwise_cons.mp htimes
    obtain ⟨hle, hnow⟩ := hlast call List.mem_cons_self
    have hlater : c.Matches call.1 l := ⟨h.represents.later hle, h.poisoned_eq⟩
    obtain ⟨hanswer, hafter⟩ := hlater.perform hnow call.2
    obtain ⟨hanswers, hvalid⟩ := ih hafter
      (fun x hx => ⟨hfirst x hx, (hlast x (List.mem_cons_of_mem _ hx)).2⟩) hrest
    exact ⟨congrArg₂ List.cons hanswer hanswers, hvalid⟩

end AnnouncementCache

/-! ## Announcements that expire -/

/-- All announcements of a map expire at an instant. -/
def AnnouncementMap.AllDated (m : AnnouncementMap) : Prop :=
  ∀ (hash : Hash) (a : Announcement), m.entries[hash]? = some a → a.Dated m.ttl

namespace AnnouncementMap

variable {m : AnnouncementMap} {now : Instant} {hash : Hash}

theorem entries_of_find? {a : Announcement} (h : m.find? now hash = some a) :
    m.entries[hash]? = some a := by
  rw [find?, getElem?_remembered, Option.filter_eq_some_iff] at h
  exact h.1

theorem AllDated.insert (h : m.AllDated) {a : Announcement} (ha : a.Dated m.ttl) :
    { m with entries := m.entries.insert hash a }.AllDated := by
  intro k b hb
  rw [Std.ExtTreeMap.getElem?_insert] at hb
  split at hb
  · exact Option.some.inj hb ▸ ha
  · exact h k b hb

theorem AllDated.perform (h : m.AllDated) (hnow : now.after m.ttl ≤ Instant.last)
    (call : AnnouncementCall) :
    (m.perform now call).2.AllDated := by
  cases call with
  | add hash height sender =>
    simp only [AnnouncementMap.perform, AnnouncementMap.add, Prod.map_snd, id_eq]
    split
    · exact h.insert hnow
    · rename_i a ha
      have ha : a.Dated m.ttl := h _ a (entries_of_find? ha)
      split
      · exact h
      · exact h.insert ha
  | nextCandidate hash =>
    simp only [AnnouncementMap.perform, AnnouncementMap.nextCandidate, Prod.map_snd, id_eq]
    split
    · exact h
    · rename_i a ha
      have ha : a.Dated m.ttl := h _ a (entries_of_find? ha)
      exact h.insert ha
  | clearCandidates hash =>
    simp only [AnnouncementMap.perform, AnnouncementMap.clearCandidates]
    split
    · exact h
    · rename_i a ha
      have ha : a.Dated m.ttl := h _ a (entries_of_find? ha)
      exact h.insert ha
  | height | size => exact h

theorem AllDated.not_undated (h : m.AllDated) : ¬ m.Undated now := by
  rintro ⟨hne, hundated⟩
  obtain ⟨⟨k, a⟩, ha⟩ := List.exists_mem_of_ne_nil _ hne
  have hlive : m.find? now k = some a := Std.ExtTreeMap.mem_toList_iff_getElem?_eq_some.mp ha
  exact hundated _ ha (h k a (entries_of_find? hlive))

end AnnouncementMap

/-- The lock makes no difference where all announcements expire at an instant. -/
theorem LockedMap.performAll_of_allDated {l : LockedMap} (hp : l.poisoned = false)
    (h : l.map.AllDated) {calls : List (Instant × AnnouncementCall)}
    (hcalls : ∀ call ∈ calls, call.1.after l.map.ttl ≤ Instant.last) :
    (performAll LockedMap.perform l calls).1 =
      (performAll AnnouncementMap.perform l.map calls).1 := by
  induction calls generalizing l with
  | nil => rfl
  | cons call rest ih =>
    have hdated := h.perform (hcalls call List.mem_cons_self) call.2
    have hstep : l.perform call.1 call.2 =
        ((l.map.perform call.1 call.2).1, ⟨(l.map.perform call.1 call.2).2, false⟩) := by
      rw [LockedMap.perform, if_neg (by simp [hp]), if_neg h.not_undated, Prod.map, hp, id_eq]
    have hrest := ih (l := ⟨(l.map.perform call.1 call.2).2, false⟩) rfl hdated fun x hx => by
      rw [AnnouncementMap.ttl_perform]
      exact hcalls x (List.mem_cons_of_mem _ hx)
    simp only [performAll, hstep, hrest]

namespace AnnouncementCache

/-- **The cache is a map with expiry, behind a lock.** Whatever is asked of it, at instants of the clock
that do not go back, it answers as the map does; but the first call that finds something remembered, and
nothing that expires at an instant, panics, and so do all calls after it. None does if all that could be
announced expires at an instant. The order of the cache lists the stored announcements once each, by the
time they were let through. -/
theorem answers_eq_map (ttl : Duration) (calls : List (Instant × AnnouncementCall))
    (htimes : calls.Pairwise fun earlier later => earlier.1 ≤ later.1)
    (hlast : ∀ call ∈ calls, call.1 ≤ Instant.last) :
    let answers := (performAll perform (empty ttl) calls).1
    let c := (performAll perform (empty ttl) calls).2
    answers = (performAll LockedMap.perform (.empty ttl) calls).1 ∧
      ((∀ call ∈ calls, call.1.after ttl ≤ Instant.last) →
        answers = (performAll AnnouncementMap.perform (.empty ttl) calls).1) ∧
      c.order.Nodup ∧ (∀ hash, hash ∈ c.order ↔ hash ∈ c.entries) ∧
      c.order.Pairwise fun h k => ∀ a b, c.entries[h]? = some a → c.entries[k]? = some b →
        a.since ≤ b.since := by
  intro answers c
  obtain ⟨start, hstart⟩ := exists_start htimes
  have hempty : (empty ttl).Matches start (.empty ttl) := ⟨represents_empty ttl start, rfl⟩
  obtain ⟨hanswers, _, hvalid⟩ :=
    hempty.performAll (fun call hcall => ⟨hstart call hcall, hlast call hcall⟩) htimes
  refine ⟨hanswers, fun hdated => hanswers.trans ?_, hvalid.nodup, hvalid.mem_order, hvalid.sorted⟩
  have hnone : (AnnouncementMap.empty ttl).AllDated :=
    fun hash a ha => by simp [AnnouncementMap.empty] at ha
  exact LockedMap.performAll_of_allDated rfl hnone hdated

/-- A block announced at 0 is filtered out at 19 and let through anew at 20; a block announced in
between stays, and so does its candidate. -/
theorem answers_eq_map_twenty :
    let old : Hash := ⟨Vector.replicate 32 1⟩
    let young : Hash := ⟨Vector.replicate 32 2⟩
    let calls : List (Instant × AnnouncementCall) :=
      [(0, .add old 5 "a"), (15, .add young 6 "a"), (19, .add old 5 "b"), (19, .add young 6 "b"),
        (20, .add old 5 "c"), (20, .nextCandidate old), (20, .nextCandidate young), (20, .size)]
    let answers := (performAll perform (empty ⟨20⟩) calls).1
    let c := (performAll perform (empty ⟨20⟩) calls).2
    answers = [.letThrough true, .letThrough true, .letThrough false, .letThrough false,
        .letThrough true, .candidate none, .candidate (some "b"), .size 2] ∧
      answers = (performAll AnnouncementMap.perform (.empty ⟨20⟩) calls).1 ∧
      c.order.Nodup ∧ (∀ hash, hash ∈ c.order ↔ hash ∈ c.entries) ∧
      c.order.Pairwise fun h k => ∀ a b, c.entries[h]? = some a → c.entries[k]? = some b →
        a.since ≤ b.since := by
  intro old young calls answers c
  obtain ⟨-, hanswers, horder⟩ := answers_eq_map ⟨20⟩ calls (by decide) (by decide)
  exact ⟨by decide +kernel, hanswers (by decide), horder⟩

/-- Announcements that are to be remembered for the longest time there is expire at no instant. The
first one is let through, and nothing is answered any more where a map goes on. -/
theorem answers_ne_map_forever :
    let block : Hash := ⟨Vector.replicate 32 1⟩
    let ttl : Duration := ⟨18446744073709551615000⟩
    let calls : List (Instant × AnnouncementCall) :=
      [(0, .add block 5 "a"), (1, .add block 5 "b"), (2, .nextCandidate block), (3, .size)]
    (calls.Pairwise fun earlier later => earlier.1 ≤ later.1) ∧
      (Duration.parse "18446744073709551615s").toOption = some ttl ∧
      (performAll perform (empty ttl) calls).1 = [.letThrough true, .panicked .instantOverflow,
        .panicked .poisonedLock, .panicked .poisonedLock] ∧
      (performAll AnnouncementMap.perform (.empty ttl) calls).1 =
        [.letThrough true, .letThrough false, .candidate (some "b"), .size 1] := by
  exact ⟨by decide, by decide +kernel, by decide +kernel, by decide +kernel⟩

end AnnouncementCache

end ChainNode

import ChainNode.Sync.Clock
import ChainNode.Sync.Error
import Std.Data.ExtTreeMap

/-!
# Announced blocks

The announcements of the last while. The first announcement of a block is let through; further ones
are filtered out, but the peers they come from are kept as candidates for fetching the block. An
announcement expires some time after it was let through. Expired ones are dropped from the front of
the order of insertion whenever the cache is used, so every operation takes the time.

The cache is behind a lock. Where the time at which an announcement expires is no instant, looking at
it panics under the lock, and nobody can use the cache any more.
-/

namespace ChainNode

/-- What is known of an announced block. -/
structure Announcement where
  height : UInt64
  /-- The peers that announced the block after the first one, each once, the next to ask first. -/
  candidates : List Peer
  since : Instant
  deriving DecidableEq, Repr

/-- The announcements that are remembered. -/
structure AnnouncementCache where
  ttl : Duration
  entries : Std.ExtTreeMap Hash Announcement
  /-- The announced blocks, the oldest announcement first. -/
  order : List Hash
  /-- Somebody has panicked while using the cache. -/
  poisoned : Bool

namespace AnnouncementCache

/-- Nothing announced yet. -/
def empty (ttl : Duration) : AnnouncementCache := ⟨ttl, ∅, [], false⟩

/-! ## With the lock held -/

/-- An announcement that is not remembered any more. -/
def expired (ttl : Duration) (now : Instant) : Option Announcement → Except Panic Bool
  | none => .ok true
  | some a => do return (← a.since.plus ttl) ≤ now

/-- Drops expired announcements from the front of an order. -/
def evictFrom (ttl : Duration) (now : Instant) (entries : Std.ExtTreeMap Hash Announcement) :
    List Hash → Except Panic Unit × AnnouncementCache
  | [] => (.ok (), ⟨ttl, entries, [], false⟩)
  | h :: rest => match expired ttl now entries[h]? with
    | .ok true => evictFrom ttl now (entries.erase h) rest
    | .ok false => (.ok (), ⟨ttl, entries, h :: rest, false⟩)
    | .error p => (.error p, ⟨ttl, entries, h :: rest, true⟩)

/-- Takes note of an announcement; tells whether it is the first of its block. -/
def note (c : AnnouncementCache) (now : Instant) (hash : Hash) (height : UInt64) (sender : Peer) :
    Bool × AnnouncementCache :=
  match c.entries[hash]? with
  | some a =>
    let candidates := if sender ∈ a.candidates then a.candidates else a.candidates ++ [sender]
    (false, { c with entries := c.entries.insert hash { a with candidates } })
  | none =>
    (true, { c with
      entries := c.entries.insert hash ⟨height, [], now⟩
      order := c.order ++ [hash] })

/-- Takes the next peer to fetch a block from. -/
def takeCandidate (c : AnnouncementCache) (hash : Hash) : Option Peer × AnnouncementCache :=
  match c.entries[hash]? with
  | some a => match a.candidates with
    | peer :: rest =>
      (some peer, { c with entries := c.entries.insert hash { a with candidates := rest } })
    | [] => (none, c)
  | none => (none, c)

/-- Forgets the candidates of a block. -/
def dropCandidates (c : AnnouncementCache) (hash : Hash) : AnnouncementCache :=
  match c.entries[hash]? with
  | some a => { c with entries := c.entries.insert hash { a with candidates := [] } }
  | none => c

/-! ## Using the cache -/

/-- Drops expired announcements. -/
def evict (c : AnnouncementCache) (now : Instant) : Except Panic Unit × AnnouncementCache :=
  if c.poisoned then (.error .poisonedLock, c) else evictFrom c.ttl now c.entries c.order

/-- Takes the lock, drops expired announcements, and does something with the others. -/
def use {α : Type} (c : AnnouncementCache) (now : Instant)
    (f : AnnouncementCache → α × AnnouncementCache) : Except Panic α × AnnouncementCache :=
  match c.evict now with
  | (.ok (), c) => ((.ok (f c).1), (f c).2)
  | (.error p, c) => (.error p, c)

/-- Takes note of an announcement; tells whether it is the first of its block. -/
def add (c : AnnouncementCache) (now : Instant) (hash : Hash) (height : UInt64) (sender : Peer) :
    Except Panic Bool × AnnouncementCache :=
  c.use now fun c => c.note now hash height sender

/-- Takes the next peer to fetch a block from. -/
def nextCandidate (c : AnnouncementCache) (now : Instant) (hash : Hash) :
    Except Panic (Option Peer) × AnnouncementCache :=
  c.use now fun c => c.takeCandidate hash

/-- Forgets the candidates of a block, but not its announcement. -/
def clearCandidates (c : AnnouncementCache) (now : Instant) (hash : Hash) :
    Except Panic Unit × AnnouncementCache :=
  c.use now fun c => ((), c.dropCandidates hash)

/-- The height a block was announced with. -/
def height? (c : AnnouncementCache) (now : Instant) (hash : Hash) :
    Except Panic (Option UInt64) × AnnouncementCache :=
  c.use now fun c => (c.entries[hash]?.map Announcement.height, c)

/-- The number of announcements that are remembered. -/
def size (c : AnnouncementCache) (now : Instant) : Except Panic Nat × AnnouncementCache :=
  c.use now fun c => (c.entries.size, c)

end AnnouncementCache

end ChainNode

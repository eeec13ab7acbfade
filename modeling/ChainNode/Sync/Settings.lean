import ChainNode.Duration
import ChainNode.Sync.Panic

/-!
# Settings of synchronisation

The limits that decide which way a block comes in, how much is asked of a peer at a time, how old
queued work may grow, and how long announcements and jobs live.
-/

namespace ChainNode

/-- The limits synchronisation keeps to. -/
structure SyncSettings where
  /-- A block at most this much above the longest chain is fetched or attached by itself; a higher
  one becomes the target of a download job. -/
  gap : UInt64 := 12
  /-- The number of blocks asked for at a time. -/
  batch : Nat := 10
  /-- The number of blocks a job downloads in one go. -/
  downloadCap : Nat := 50
  /-- The age at which the oldest work in the fetch queue makes it count as busy. -/
  fetchAge : Duration := ⟨1000⟩
  /-- The same for the attach queue. -/
  attachAge : Duration := ⟨2000⟩
  /-- The same for the update queue. -/
  updateAge : Duration := ⟨4000⟩
  /-- How often a peer is asked again for a block. -/
  retries : Nat := 3
  /-- How long an announcement is remembered. -/
  announcementTtl : Duration := ⟨30000⟩
  /-- The time a job has for its first download. -/
  jobTimeout : Duration := ⟨10000⟩
  /-- The time each downloaded block has until it is attached. -/
  perBlock : Duration := ⟨300⟩
  /-- The number of jobs that are kept. -/
  maxJobs : Nat := 100
  /-- The time between two looks at the jobs. -/
  workerInterval : Duration := ⟨500⟩
  /-- What becomes of a sum of heights that does not fit; the build decides. -/
  overflow : Overflow := .panics
  deriving DecidableEq, Repr

instance : Inhabited SyncSettings := ⟨{}⟩

end ChainNode

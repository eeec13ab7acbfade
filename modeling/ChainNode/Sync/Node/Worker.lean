import ChainNode.Sync.Node.Basic

/-!
# The download worker

A call of the worker brings the oldest job one download further. It first waits for what was
downloaded before to be attached. A job that has started goes on from its last block; a fresh one
starts from the longest chain, or if nothing comes, from the best chain, or from the last
irreversible block. A job that is finished, or for which nothing comes, is taken off the board, and
the next one has its turn in the same call. A failure takes the job off too, unless it may pass and
the job still has time. Only one call is in progress at a time. A panic breaks a call off where it
stands.
-/

namespace ChainNode.Node

variable {χ : Type}

/-- How a call of the worker goes on. -/
inductive CallTurn (χ : Type)
  /-- It is still in progress. -/
  | next (n : Node χ)
  /-- It has ended. -/
  | ended (e : Ending) (n : Node χ)

/-- The node after a step of a call. -/
def CallTurn.node : CallTurn χ → Node χ
  | next n => n
  | ended _ n => n

/-- How a call has ended, if it has. -/
def CallTurn.ending? : CallTurn χ → Option Ending
  | next _ => none
  | ended e _ => some e

/-- The result of a call, if it has returned. -/
def CallTurn.result? (t : CallTurn χ) : Option (Except SyncError Unit) :=
  t.ending?.bind Ending.result?

/-- A call starts, unless there is one in progress. -/
def beginCall (n : Node χ) : Option (Node χ) :=
  if n.call.isNone then some { n with call := some .round } else none

/-- The call in progress returns. -/
def endCall (n : Node χ) (result : Except SyncError Unit) : CallTurn χ :=
  .ended (.returned result) { n with call := none }

/-- The call in progress panics. -/
def breakOff (n : Node χ) (p : Panic) : CallTurn χ := .ended (.panicked p) { n with call := none }

/-- The call in progress starts over with the next job. -/
def nextRound (n : Node χ) : CallTurn χ := .next { n with call := some .round }

/-- Takes a job off the board. -/
def removeJob (n : Node χ) (id : Hash) : Node χ :=
  { n with board := (n.board.remove id).2 }

/-- How far the last downloaded block may be above the longest chain for a job to go on. -/
def lead : UInt64 := 8

/-- A job may download: attaching is not held up, and its last batch is attached, or has had its
time. -/
def mayDownload (n : Node χ) (j : Job) : Bool :=
  n.attachAvailable
    && !(j.started && n.board.targets[j.current.hash]? == some false && n.now < j.deadline)

/-- Where the download of a fresh job may start, in the order in which to try. -/
def freshOrigins (heads : Heads) : List Tip :=
  [heads.longest]
    ++ (if heads.best.hash = heads.longest.hash then [] else [heads.best])
    ++ (if heads.irreversible.hash = heads.longest.hash ∨ heads.irreversible.hash = heads.best.hash
      then [] else [heads.irreversible])

/-- Where a job's download may start, in the order in which to try. -/
def origins (n : Node χ) (heads : Heads) (j : Job) : Except Panic (List Tip) :=
  if j.started then do
    let furthest ← n.settings.overflow.sum heads.longest.height lead
    return if j.current.height ≤ furthest then [j.current] else []
  else .ok (freshOrigins heads)

/-- The time by which downloaded blocks are to be attached: each of them gives some. -/
def batchDeadline (n : Node χ) (d : Download) : Except Panic Instant := do
  n.now.plus (← n.settings.perBlock.times (d.count % UInt32.size))

/-- A job that a download has brought further. -/
def advancedJob (j : Job) (d : Download) (deadline : Instant) : Job :=
  { j with
    current := d.last
    deadline := deadline
    finished := j.target.height ≤ d.last.height }

/-- Takes back the target of what was downloaded for a job before. -/
def dropTarget (n : Node χ) (j : Job) : Node χ :=
  if j.started then n.setTargets (n.board.targets.erase j.current.hash) else n

/-- Exchanges a stored job with the same identity. -/
def updateJob (n : Node χ) (j : Job) : Node χ := { n with board := (n.board.update j).2 }

/-- A download has brought a job further. -/
def recordProgress (n : Node χ) (j : Job) (d : Download) : Except Panic Unit × Node χ :=
  let n := n.dropTarget j
  match n.batchDeadline d with
  | .ok deadline => (.ok (), n.updateJob (advancedJob j d deadline))
  | .error p => (.error p, n)

/-- Downloads for a job from the first of some places from which anything comes. -/
def downloadFrom (n : Node χ) (j : Job) : List Tip → CallTurn χ
  | [] => (n.removeJob j.id).nextRound
  | origin :: rest =>
    let d := Download.start origin j.batch n.settings.downloadCap j.peer
    if d.request?.isSome then .next { n with call := some (.asking ⟨j, d, rest⟩) }
    else n.downloadFrom j rest

/-- A download has failed. -/
def downloadFailed (n : Node χ) (j : Job) (e : SyncError) : CallTurn χ :=
  if e.isRetryable ∧ n.now < j.deadline then n.endCall (.ok ())
  else (n.removeJob j.id).endCall (.error e)

/-- A download is over. -/
def downloadOver (n : Node χ) (d : JobDownload) : CallTurn χ :=
  if d.download.count = 0 then n.downloadFrom d.job d.origins
  else match n.recordProgress d.job d.download with
    | (.ok (), n) => n.endCall (.ok ())
    | (.error p, n) => n.breakOff p

/-- The target that stands for a download is exchanged for the last block of a new batch. -/
def registerTarget (n : Node χ) (previous : Option Hash) (target : Hash) : Node χ :=
  let targets := n.board.targets.insert target false
  n.setTargets (match previous with
    | some p => targets.erase p
    | none => targets)

/-- The target that stands for a download is taken back. -/
def withdrawTarget (n : Node χ) : Option Hash → Node χ
  | some p => n.setTargets (n.board.targets.erase p)
  | none => n

/-- Downloaded blocks are enqueued to be attached, the last one with its target to mark. -/
def enqueueBatch (n : Node χ) (blocks : List Block) (peer : Option Peer) (target : Hash) : Node χ :=
  blocks.foldl (fun n b =>
    n.enqueueAttach ⟨b, peer, if b.hash = target then some (.markTarget target) else none⟩) n

/-- Takes in the answer to a download's request: new blocks are enqueued to be attached. If the answer
is a failure, the download's target is taken back. -/
def receiveBatch (n : Node χ) (d : Download) (answer : BatchAnswer) :
    Except SyncError Download × Node χ :=
  match d.receive answer with
  | .error e => (.error e, n.withdrawTarget d.registered)
  | .ok (d', blocks) => match blocks.getLast? with
    | none => (.ok d', n)
    | some last =>
      (.ok d', (n.registerTarget d.registered last.hash).enqueueBatch blocks d.peer last.hash)

/-- The request that the call in progress waits for. -/
def callRequest? (n : Node χ) : Option Request :=
  match n.call with
  | some (.asking d) => d.download.request?
  | _ => none

/-- A peer answers the call in progress. -/
def answerCall (n : Node χ) (answer : BatchAnswer) : CallTurn χ :=
  match n.call with
  | some (.asking d) => match n.receiveBatch d.download answer with
    | (.error e, n) => n.downloadFailed d.job e
    | (.ok download, n) =>
      let d := { d with download }
      if download.request?.isSome then .next { n with call := some (.asking d) }
      else n.downloadOver d
  | _ => .next n

/-- The oldest job that is not covered is looked for, and its download begins, if it may. -/
def lookForJob (n : Node χ) (heads : Heads) : CallTurn χ :=
  match n.board.firstWaiting heads with
  | (none, board) => { n with board }.endCall (.ok ())
  | (some j, board) =>
    let n := { n with board }
    if !n.mayDownload j then n.endCall (.ok ())
    else if j.finished then (n.removeJob j.id).nextRound
    else match n.origins heads j with
      | .ok places => n.downloadFrom j places
      | .error p => n.breakOff p

variable [ChainService χ]

/-- The beginning of a round: the heads are read. -/
def beginRound (n : Node χ) : CallTurn χ :=
  match n.heads with
  | (.error e, n) => n.endCall (.error (.chain e))
  | (.ok heads, n) => .next { n with call := some (.looking heads) }

/-- One step of the call in progress. There is none while it waits for a peer. -/
def callStep (n : Node χ) : Option (CallTurn χ) :=
  match n.call with
  | some .round => some n.beginRound
  | some (.looking heads) => some (n.lookForJob heads)
  | _ => none

end ChainNode.Node

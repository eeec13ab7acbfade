import ChainNode.Sim.Schedule
import ChainNode.Sim.Scripted
import ChainNode.Sync.Drain
import ChainNode.Sync.Node.Entry
import ChainNode.Sync.Node.Worker

/-!
# A node under a script

A whole synchronising node on a virtual clock: its chain and its peers are scripted, and a script of
commands announces and pushes blocks, calls the worker or lets it run in a loop, waits, and looks at
the state. After each command it takes down where the node stands, and what was asked, attached,
executed and reported since the command before. A panic in a command ends the script; one in a queue
ends no more than the work it is in.
-/

namespace ChainNode.Sim

/-- A command of a script. -/
inductive SyncCommand
  | announce (block : Tip) (sender : Peer)
  | push (block : Block) (sender : Peer)
  /-- Brings in an announced block, against the given heads or the current ones. -/
  | syncAnnounced (wanted : Wanted) (batch : Nat) (heads : Option Heads)
  | syncBlock (block : Block) (batch : Nat) (peer : Option Peer) (heads : Option Heads)
  | enqueueJob (target : Tip) (batch : Nat) (peer : Option Peer)
  | updateJob (job : Job)
  | removeJob (id : Hash)
  /-- One call of the worker. -/
  | process
  /-- Two calls at the same time. -/
  | processTwice
  /-- Lets the worker run for some time. -/
  | runWorker (millis : Nat)
  | download (after : Tip) (batch cap : Nat) (peer : Option Peer)
  | fetch (wanted : Wanted)
  | attach (a : Attachment)
  | drain
  | sleep (millis : Nat)
  | busy (q : Queue) (millis : Int)
  | unbusy (q : Queue)
  | target (hash : Hash)
  | setTarget (hash : Hash) (attached : Bool)
  | nextCandidate (hash : Hash)
  | announced (hash : Hash)
  | setIrreversible (hash : Hash)
  /-- Attaches a block to the chain itself. -/
  | treeAttach (block : Block)
  /-- Executes a block on the chain itself. -/
  | treeUpdate (hash : Hash)
  | contains (hash : Hash)
  /-- Extends the script of the peers. -/
  | network (entries : List NetworkEntry)
  /-- Extends the script of the chain. -/
  | failure (call : ChainCall) (e : Option ChainError)

/-- What a command answers. -/
inductive SyncReply
  | nothing
  | result (r : Except SyncError Unit)
  | results (r s : Except SyncError Unit)
  | flag (b : Bool)
  | flagged (r : Except SyncError Bool)
  | job (id : Option Hash)
  | downloaded (r : Except SyncError Download)
  | mark (m : Option Bool)
  | candidate (p : Option Peer)
  | announced (count : Nat) (height : Option UInt64)
  | contains (known : Bool) (best : UInt64)

/-- What is taken down after a command. -/
structure SyncAnswer where
  reply : SyncReply
  now : Instant
  heads : Heads
  jobs : Nat
  firstJob : Option Job
  pending : PerQueue Nat
  requests : List (Instant × Request)
  attached : List (Instant × Tip × Bool)
  updated : List (Instant × Hash × Bool)
  notes : List (Instant × String)

/-- Calls of the worker that a script makes. -/
inductive Calls
  | one
  /-- The first of two; the other has not been tried. -/
  | firstOfTwo
  /-- The first of two; the other found the worker busy. -/
  | firstAlone
  /-- The other of two, after the first. -/
  | second (first : Except SyncError Unit)

/-- What a script is busy with. -/
inductive Activity
  /-- It can begin a command. -/
  | nothing
  | sleeping (t : Instant)
  | draining (d : Drain)
  | calling (calls : Calls)
  | downloading (d : Download)
  | fetching (w : Wanted)
  /-- The worker runs until a time. -/
  | working (t : Instant)
  /-- The worker is told to stop. -/
  | stopping

/-- Where the worker's loop stands. -/
inductive LoopPhase
  | fresh
  | ticking
  | calling
  | ended
  deriving DecidableEq, Repr

/-- The worker's loop. -/
structure WorkerLoop where
  phase : LoopPhase
  /-- When the next tick is due. -/
  due : Instant
  cancelled : Bool
  /-- What has ended the loop early. -/
  panic : Option Panic

/-- Tells a loop to stop. -/
def WorkerLoop.cancel (l : WorkerLoop) : WorkerLoop := { l with cancelled := true }

/-- When the tick after one is due: one interval later; if the tick is more than a little late, at
the first multiple of the interval that is still to come. -/
def nextDue (due now : Instant) (interval : Nat) : Instant :=
  if due + 5 < now then now + interval - (now - due) % interval else due + interval

/-- A node under a script. -/
structure SyncWorld where
  node : Node ScriptedChain
  server : BlockServer
  /-- The script of the peers. -/
  network : List NetworkEntry
  /-- The requests since the last command, the latest first. -/
  requests : List (Instant × Request)
  /-- The answer under way to the fetch queue. -/
  fetchReply : Option NetworkEntry
  /-- The answer under way to the worker's call. -/
  callReply : Option NetworkEntry
  /-- The answer under way to the script itself. -/
  scriptReply : Option NetworkEntry
  /-- When the answer the script waits for is there. -/
  replyTime : Option Instant
  loop : Option WorkerLoop
  script : List SyncCommand
  activity : Activity
  /-- What has ended the script early. -/
  panic : Option Panic
  /-- What was taken down, the latest first. -/
  answers : List SyncAnswer

namespace SyncWorld

/-- The time. -/
def now (w : SyncWorld) : Instant := w.node.now

/-- Exchanges the chain itself. -/
def setTree (w : SyncWorld) (tree : BlockTree) : SyncWorld :=
  { w with node := { w.node with chain := { w.node.chain with tree } } }

/-- Takes down what there is at the end of a command. -/
def answer (w : SyncWorld) (reply : SyncReply) : SyncWorld :=
  let n := w.node
  { w with
    node := { n with notes := [], chain := { n.chain with attached := [], updated := [] } }
    requests := []
    activity := .nothing
    answers := {
      reply := reply
      now := n.now
      heads := n.chain.tree.heads
      jobs := n.board.store.size
      firstJob := n.board.store.first?
      pending := ⟨n.pipeline.pending .fetch, n.pipeline.pending .attach, n.pipeline.pending .update⟩
      requests := w.requests.reverse
      attached := n.chain.attached.reverse
      updated := n.chain.updated.reverse
      notes := n.notes.reverse } :: w.answers }

/-- A panic ends the script. -/
def giveUp (w : SyncWorld) (p : Panic) : SyncWorld := { w with panic := some p }

/-- Takes down what a command returned, if it has not panicked. -/
def answerUnless {α : Type} (w : SyncWorld) (reply : α → SyncReply) : Except Panic α → SyncWorld
  | .ok a => w.answer (reply a)
  | .error p => w.giveUp p

/-- Takes down how a command ended. -/
def answerEnding (w : SyncWorld) : Ending → SyncWorld
  | .returned r => w.answer (.result r)
  | .panicked p => w.giveUp p

/-- Makes a request; what the script of the peers says of it. -/
def ask (w : SyncWorld) (r : Request) : NetworkEntry × SyncWorld :=
  let w := { w with requests := (w.now, r) :: w.requests }
  match w.network with
  | [] => (.plain, w)
  | entry :: network => (entry, { w with network })

/-! ## The queues -/

/-- One step of a queue. -/
def queueStep (w : SyncWorld) (q : Queue) : Turn × SyncWorld :=
  match w.node.queueStep q with
  | some node => (.again, { w with node })
  | none => match w.node.queueRequest? q with
    | none => (.parked, w)
    | some r =>
      let answered (w : SyncWorld) (entry : NetworkEntry) : SyncWorld :=
        { w with
          node := w.node.answerQueue q (entry.block w.server r)
          fetchReply := none }
      match w.fetchReply with
      | some entry => (.again, answered w entry)
      | none =>
        let (entry, w) := w.ask r
        if entry.delay = 0 then (.again, answered w entry)
        else (.until (w.now + entry.delay), { w with fetchReply := some entry })

/-! ## The worker -/

/-- How a call of the worker goes on. -/
inductive CallProgress
  | again (w : SyncWorld)
  | until (t : Instant) (w : SyncWorld)
  | ended (e : Ending) (w : SyncWorld)

/-- Puts the node after a step of a call in place. -/
def afterCall (w : SyncWorld) : Node.CallTurn ScriptedChain → CallProgress
  | .next node => .again { w with node }
  | .ended e node => .ended e { w with node }

/-- One step of the call in progress. -/
def callStep (w : SyncWorld) : CallProgress :=
  match w.node.callStep with
  | some turn => w.afterCall turn
  | none => match w.node.callRequest? with
    | none => .ended .done w
    | some r =>
      let answered (w : SyncWorld) (entry : NetworkEntry) : CallProgress :=
        { w with callReply := none }.afterCall (w.node.answerCall (entry.batch w.server r))
      match w.callReply with
      | some entry => answered w entry
      | none =>
        let (entry, w) := w.ask r
        if entry.delay = 0 then answered w entry
        else .until (w.now + entry.delay) { w with callReply := some entry }

/-- Begins a call of the worker, if none is in progress. -/
def beginCall (w : SyncWorld) : SyncWorld :=
  match w.node.beginCall with
  | some node => { w with node }
  | none => w

/-- One step of the worker's loop. -/
def loopStep (w : SyncWorld) : Turn × SyncWorld :=
  match w.loop with
  | none => (.parked, w)
  | some l =>
    let goOn (w : SyncWorld) (l : WorkerLoop) : SyncWorld := { w with loop := some l }
    match l.phase with
    | .fresh => (.again, goOn w { l with phase := .ticking, due := w.now })
    | .ticking =>
      if l.cancelled then (.parked, goOn w { l with phase := .ended })
      else if l.due ≤ w.now then
        let due := nextDue l.due w.now w.node.settings.workerInterval.millis
        (.again, goOn w.beginCall { l with phase := .calling, due })
      else (.until l.due, w)
    | .calling => match w.callStep with
      | .again w => (.again, w)
      | .until t w => (.until t, w)
      | .ended (.returned _) w => (.again, goOn w { l with phase := .ticking })
      | .ended (.panicked p) w => (.parked, goOn w { l with phase := .ended, panic := some p })
    | .ended => (.parked, w)

/-- The worker's loop has to look at something new. -/
def loopWoken (w : SyncWorld) : Bool :=
  match w.loop with
  | none => false
  | some l => l.phase == .fresh || (l.phase == .ticking && l.cancelled)

/-! ## The script -/

/-- Goes on with something that takes several steps. -/
def engage (w : SyncWorld) (activity : Activity) : SyncWorld := { w with activity }

/-- The current heads, unless others are given. -/
def headsOr (w : SyncWorld) (heads : Option Heads) : Heads := heads.getD w.node.chain.tree.heads

/-- A call to the tree as a result. -/
def treeResult (w : SyncWorld) : Except ChainError Unit × BlockTree → SyncWorld
  | (r, tree) => (w.setTree tree).answer (.result (r.mapError .chain))

/-- Begins a command. -/
def begin (w : SyncWorld) : SyncCommand → SyncWorld
  | .announce block sender =>
    let (e, node) := w.node.announce block sender
    { w with node }.answerEnding e
  | .push block sender =>
    let (e, node) := w.node.push block sender
    { w with node }.answerEnding e
  | .syncAnnounced wanted batch heads =>
    let (r, node) := w.node.syncAnnounced (w.headsOr heads) wanted batch
    { w with node }.answerUnless (fun () => .nothing) r
  | .syncBlock block batch peer heads =>
    let (r, node) := w.node.syncBlock (w.headsOr heads) block batch peer
    { w with node }.answerUnless (fun () => .nothing) r
  | .enqueueJob target batch peer =>
    let (id, node) := w.node.enqueueJob target batch peer
    { w with node }.answerUnless .job id
  | .updateJob job =>
    let (found, board) := w.node.board.update job
    { w with node := { w.node with board } }.answer (.flag found)
  | .removeJob id =>
    let (job, board) := w.node.board.remove id
    { w with node := { w.node with board } }.answer (.flag job.isSome)
  | .process => w.beginCall.engage (.calling .one)
  | .processTwice => w.beginCall.engage (.calling .firstOfTwo)
  | .runWorker millis =>
    { w with loop := some ⟨.fresh, w.now, false, none⟩ }.engage (.working (w.now + millis))
  | .download after batch cap peer => w.engage (.downloading (.start after batch cap peer))
  | .fetch wanted => match w.node.lookUp wanted.block.hash with
    | (.error e, node) => { w with node }.answer (.flagged (.error (.chain e)))
    | (.ok (some _), node) => { w with node }.answer (.flagged (.ok true))
    | (.ok none, node) => { w with node }.engage (.fetching wanted)
  | .attach a => { w with node := w.node.enqueueAttach a }.answer .nothing
  | .drain => w.engage (.draining .start)
  | .sleep millis => w.engage (.sleeping (w.now + millis))
  | .busy q millis =>
    { w with node := { w.node with
      pipeline := w.node.pipeline.setTime q (some (w.now - millis)) } }.answer .nothing
  | .unbusy q =>
    { w with node := { w.node with pipeline := w.node.pipeline.setTime q none } }.answer .nothing
  | .target hash => w.answer (.mark w.node.board.targets[hash]?)
  | .setTarget hash attached =>
    { w with node := w.node.setTargets (w.node.board.targets.insert hash attached) }.answer .nothing
  | .nextCandidate hash =>
    let (p, announcements) := w.node.announcements.nextCandidate w.now hash
    { w with node := { w.node with announcements } }.answerUnless .candidate p
  | .announced hash =>
    let (count, announcements) := w.node.announcements.size w.now
    let (height, announcements) := announcements.height? w.now hash
    { w with node := { w.node with announcements } }.answerUnless id
      (do return .announced (← count) (← height))
  | .setIrreversible hash => w.treeResult (w.node.chain.tree.setIrreversible hash)
  | .treeAttach block => w.treeResult (w.node.chain.tree.attach block)
  | .treeUpdate hash => w.treeResult (w.node.chain.tree.update hash)
  | .contains hash =>
    let tree := w.node.chain.tree
    w.answer (.contains (tree.contains hash) tree.heads.best.height)
  | .network entries => { w with network := w.network ++ entries }.answer .nothing
  | .failure call e =>
    let chain := w.node.chain
    { w with node := { w.node with
      chain := { chain with failures := chain.failures ++ [(call, e)] } } }.answer .nothing

/-- A call of the worker that the script made has ended. -/
def callEnded (w : SyncWorld) (calls : Calls) : Ending → SyncWorld
  | .returned r => match calls with
    | .one => w.answer (.result r)
    | .firstOfTwo => w.beginCall.engage (.calling (.second r))
    | .firstAlone => w.answer (.results r (.ok ()))
    | .second first => w.answer (.results first r)
  | .panicked p => w.giveUp p

/-- The answer that the script waits for, asked for now if it has not been; `none` while it is under
way, until the time given. -/
def reply (w : SyncWorld) (r : Request) : Option NetworkEntry × Instant × SyncWorld :=
  match w.scriptReply with
  | some entry => (some entry, w.now, { w with scriptReply := none })
  | none =>
    let (entry, w) := w.ask r
    if entry.delay = 0 then (some entry, w.now, w)
    else (none, w.now + entry.delay, { w with scriptReply := some entry })

/-- One step of a script that has not ended early. -/
def activityStep (w : SyncWorld) : ScriptTurn × SyncWorld :=
  match w.activity with
  | .nothing => match w.script with
    | [] => (.finished, w)
    | c :: script => (.again, { w with script }.begin c)
  | .sleeping t => if t ≤ w.now then (.again, w.answer .nothing) else (.until t, w)
  | .draining d => match d.step w.node.pipeline with
    | .done => (.again, w.answer .nothing)
    | .blocked => (.blocked, w)
    | .next d pipeline =>
      (.again, { w with node := { w.node with pipeline } }.engage (.draining d))
  | .calling calls => match w.callStep with
    | .again w => (.again, w)
    | .until t w =>
      let calls := match calls with
        | .firstOfTwo => .firstAlone
        | calls => calls
      (.until t, { w with replyTime := some t }.engage (.calling calls))
    | .ended e w => (.again, w.callEnded calls e)
  | .downloading d => match d.request? with
    | none => (.again, w.answer (.downloaded (.ok d)))
    | some r => match w.reply r with
      | (none, t, w) => (.until t, { w with replyTime := some t })
      | (some entry, _, w) => match w.node.receiveBatch d (entry.batch w.server r) with
        | (.error e, node) => (.again, { w with node }.answer (.downloaded (.error e)))
        | (.ok d, node) => (.again, { w with node }.engage (.downloading d))
  | .fetching wanted =>
    let r := Request.single wanted.block.hash wanted.peer
    match w.reply r with
    | (none, t, w) => (.until t, { w with replyTime := some t })
    | (some entry, _, w) =>
      let (here, node) := w.node.acceptBlock wanted (entry.block w.server r)
      (.again, { w with node }.answer (.flagged (.ok here)))
  | .working t =>
    if t ≤ w.now then (.again, { w with loop := w.loop.map .cancel }.engage .stopping)
    else (.until t, w)
  | .stopping => match w.loop with
    | some l =>
      if l.phase = .ended then (.again, match l.panic with
        | none => { w with loop := none }.answer (.flag true)
        | some p => w.giveUp p)
      else (.blocked, w)
    | none => (.again, w.answer (.flag true))

/-- One step of the script. -/
def scriptStep (w : SyncWorld) : ScriptTurn × SyncWorld :=
  match w.panic with
  | none => { w with replyTime := none }.activityStep
  | some _ => (.finished, w)

/-- What the script waits for has happened. -/
def unblocked (w : SyncWorld) : Bool :=
  match w.activity with
  | .sleeping t => t ≤ w.now
  | .working t => t ≤ w.now
  | .draining d => match d.ticket? with
    | some k => w.node.pipeline.isAnswered k
    | none => true
  | .stopping => w.loop.all fun l => l.phase == .ended
  | _ => match w.replyTime with
    | some t => t ≤ w.now
    | none => true

instance : World SyncWorld where
  setNow t w := { w with node := { w.node with now := t, chain := { w.node.chain with now := t } } }
  script := scriptStep
  unblocked := unblocked
  run
    | .consumer q, w => w.queueStep q
    | .worker, w => w.loopStep
  woken
    | w, .consumer q => w.node.pipeline.hasNews q
    | w, .worker => w.loopWoken

/-- Runs a script on a node that has not done anything yet. -/
def runScript (settings : SyncSettings) (tree : BlockTree) (server : BlockServer)
    (network : List NetworkEntry) (script : List SyncCommand) : Except Panic (List SyncAnswer) :=
  let w := Schedule.finish {
    node := .new settings 0 (.ofTree tree)
    server := server
    network := network
    requests := []
    fetchReply := none
    callReply := none
    scriptReply := none
    replyTime := none
    loop := none
    script := script
    activity := .nothing
    panic := none
    answers := [] : SyncWorld }
  match w.panic with
  | none => .ok w.answers.reverse
  | some p => .error p

end SyncWorld

end ChainNode.Sim

import ChainNode.Sync.Node.Basic
import ChainNode.Sync.Validation

/-!
# The work in the queues

How the three kinds of work go on. A block is fetched unless it is known or attaching is held up; a
peer that fails is asked again a number of times, then the next peer that announced the block is
asked. A block is attached if it is not known, is above the last irreversible height and has the
transactions its header names; then it is handed over to be executed. Whoever asked for a block is
told once it is executed, or when it turns out to be known.
-/

namespace ChainNode

namespace Work

/-- The request that a piece of work waits for. -/
def request? : Work → Option Request
  | fetching w _ => some (.single w.block.hash w.peer)
  | _ => none

/-- Nothing is left of a piece of work that failed. -/
def failed (e : ChainError) : Work := ended (.returned (.error (.chain e)))

/-- Nothing is left of a piece of work that went well. -/
def done : Work := ended .done

end Work

namespace Node

variable {χ : Type}

/-- Takes in the answer to a request for a block: the right block is enqueued to be attached. -/
def acceptBlock (n : Node χ) (w : Wanted) : BlockAnswer → Bool × Node χ
  | .ok (some b) =>
    if b.hash = w.block.hash then (true, n.enqueueAttach ⟨b, w.peer, none⟩) else (false, n)
  | _ => (false, n)

/-- A block that was wanted is here. -/
def fetched (n : Node χ) (w : Wanted) : Ending × Node χ :=
  let (answer, announcements) := n.announcements.clearCandidates n.now w.block.hash
  (.of answer, { n with announcements })

/-- A block that was wanted did not come: the same peer is asked again, or the next one. -/
def notFetched (n : Node χ) (w : Wanted) : Nat → Ending × Node χ
  | retries + 1 => (.done, n.enqueueFetch w retries)
  | 0 =>
    let (peer, announcements) := n.announcements.nextCandidate n.now w.block.hash
    let n := { n with announcements }
    match peer with
    | .ok (some p) => (.done, n.enqueueFetch { w with peer := some p } n.settings.retries)
    | .ok none => (.done, n)
    | .error p => (.panicked p, n)

/-- The end of a fetch, with the peer's answer. -/
def finishFetch (n : Node χ) (w : Wanted) (retries : Nat) (answer : BlockAnswer) :
    Ending × Node χ :=
  match n.acceptBlock w answer with
  | (true, n) => n.fetched w
  | (false, n) => n.notFetched w retries

variable [ChainService χ]

/-- A fetch begins. -/
def beginFetch (n : Node χ) (w : Wanted) (retries : Nat) : Work × Node χ :=
  if n.attachAvailable then
    match n.lookUp w.block.hash with
    | (.error e, n) => (.failed e, n)
    | (.ok (some _), n) =>
      let (e, n) := n.fetched w
      (.ended e, n)
    | (.ok none, n) => (.fetching w retries, n)
  else (.done, n)

/-- One step of a piece of work: what is left of it, and the node after the step. There is none while
it waits for a peer, or if nothing is left. -/
def workStep (n : Node χ) : Work → Option (Work × Node χ)
  | .fetch w retries => some (n.beginFetch w retries)
  | .fetching _ _ => none
  | .attach a => some <| match n.lookUp a.block.hash with
    | (.error e, n) => (.failed e, n)
    | (.ok (some _), n) => (.done, n.complete a.completion)
    | (.ok none, n) => (.judge a, n)
  | .judge a => some <| match n.heads with
    | (.error e, n) => (.failed e, n)
    | (.ok heads, n) =>
      if Validation.acceptable a.block heads then (.store a heads.irreversible.height, n)
      else (.done, n)
  | .store a _ => some <| match n.attachBlock a.block with
    | (.error e, n) => (.failed e, n)
    | (.ok (), n) => (.handOver a, n)
  | .handOver a => some (.done, n.enqueue .update (.update a.block.hash a.completion))
  | .update hash completion => some <| match n.updateChain hash with
    | (.error e, n) => (.failed e, n)
    | (.ok (), n) => (.report completion, n)
  | .report completion => some (.done, n.complete completion)
  | .ended _ => none

/-- One step of a queue: its running work comes further, is put away when nothing is left of it, or
the next message is received. There is none while the queue is empty or its work waits for a peer. -/
def queueStep (n : Node χ) (q : Queue) : Option (Node χ) :=
  match (n.pipeline.lane q).running with
  | none => (n.pipeline.receive q).map fun pipeline => { n with pipeline }
  | some (.ended _) => some { n with pipeline := n.pipeline.finish q }
  | some w => (n.workStep w).map fun (w, n) => { n with pipeline := n.pipeline.advance q w }

omit [ChainService χ] in
/-- The request that the running work of a queue waits for. -/
def queueRequest? (n : Node χ) (q : Queue) : Option Request :=
  (n.pipeline.lane q).running.bind Work.request?

omit [ChainService χ] in
/-- A peer answers the running work of a queue. -/
def answerQueue (n : Node χ) (q : Queue) (answer : BlockAnswer) : Node χ :=
  match (n.pipeline.lane q).running with
  | some (.fetching w retries) =>
    let (e, n) := n.finishFetch w retries answer
    { n with pipeline := n.pipeline.advance q (.ended e) }
  | _ => n

end Node

end ChainNode

import ChainNode.Sync.Node.Entry
import ChainNode.Sync.Node.Worker

/-!
# Runs of a node

What can happen to a node, one event at a time and in any order: time passes, blocks are announced
and pushed, the worker is called, a call or a queue comes one step further, a peer answers, and
others change the chain. Which changes others can make is left open: `κ` names them and `act` makes
them. An event that cannot happen in a state has no next state.

Where a block enters, the heads it is judged by may have been read a while ago, so it can also enter
under any heads.
-/

namespace ChainNode.Node

variable {χ κ : Type}

/-- Something that happens to a node. -/
inductive Event (κ : Type)
  /-- Time passes. -/
  | wait (millis : Nat)
  | announce (block : Tip) (sender : Peer)
  | push (block : Block) (sender : Peer)
  | announceUnder (heads : Heads) (block : Tip) (sender : Peer)
  | pushUnder (heads : Heads) (block : Block) (sender : Peer)
  | syncAnnounced (heads : Heads) (wanted : Wanted) (batch : Nat)
  | syncBlock (heads : Heads) (block : Block) (batch : Nat) (peer : Option Peer)
  | enqueueJob (target : Tip) (batch : Nat) (peer : Option Peer)
  /-- The worker is called. -/
  | call
  /-- The call in progress comes one step further. -/
  | callStep
  /-- A peer answers the call in progress. -/
  | answerCall (answer : BatchAnswer)
  /-- A queue comes one step further. -/
  | queue (q : Queue)
  /-- A peer answers the running work of a queue. -/
  | answerQueue (q : Queue) (answer : BlockAnswer)
  /-- Somebody begins to wait for a queue. -/
  | post (q : Queue)
  /-- Others change the chain. -/
  | chain (change : κ)

/-- The blocks that an event brings as the answer to a download. -/
def Event.downloaded : Event κ → List Block
  | answerCall (.ok blocks) => blocks
  | _ => []

variable [ChainService χ] (act : κ → χ → χ)

/-- The node after an event, if the event can happen. -/
def step (n : Node χ) : Event κ → Option (Node χ)
  | .wait millis => some { n with now := n.now + millis }
  | .announce block sender => some (n.announce block sender).2
  | .push block sender => some (n.push block sender).2
  | .announceUnder heads block sender => some (n.announceUnder heads block sender).2
  | .pushUnder heads block sender => some (n.pushUnder heads block sender).2
  | .syncAnnounced heads wanted batch => some (n.syncAnnounced heads wanted batch).2
  | .syncBlock heads block batch peer => some (n.syncBlock heads block batch peer).2
  | .enqueueJob target batch peer => some (n.enqueueJob target batch peer).2
  | .call => n.beginCall
  | .callStep => n.callStep.map CallTurn.node
  | .answerCall answer => n.callRequest?.map fun _ => (n.answerCall answer).node
  | .queue q => n.queueStep q
  | .answerQueue q answer => (n.queueRequest? q).map fun _ => n.answerQueue q answer
  | .post q => some { n with pipeline := (n.pipeline.post q).2 }
  | .chain change => some { n with chain := act change n.chain }

/-- The node after some events, if they can happen one after the other. -/
def run (n : Node χ) (events : List (Event κ)) : Option (Node χ) := events.foldlM (step act) n

end ChainNode.Node

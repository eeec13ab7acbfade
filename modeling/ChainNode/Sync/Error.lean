import ChainNode.Hash.Basic
import ChainNode.Sync.Panic

/-!
# Errors of synchronisation

What the chain, the network and a download can answer instead of a result, and the ways in which work
ends: it returns, with a failure or without one, or it panics.
-/

namespace ChainNode

/-- The public key that a peer is known by. -/
abbrev Peer := String

/-- Why the chain refuses. -/
inductive ChainError
  | unknownParent (hash : Hash)
  | unknownBlock (hash : Hash)
  | executionFailed (hash : Hash) (reason : String)
  /-- Something else, as a chain of causes from the outermost inwards. -/
  | internal (causes : List String)
  deriving DecidableEq, Repr

/-- The wording of a refusal of the chain. -/
def ChainError.message : ChainError → String
  | unknownParent h => "Parent block " ++ h.short ++ " is unknown"
  | unknownBlock h => "Block " ++ h.short ++ " is unknown"
  | executionFailed h reason => "Executing block " ++ h.short ++ ": " ++ reason
  | internal causes => ": ".intercalate causes

/-- Why a request to a peer failed. -/
inductive NetworkError
  /-- The request was not delivered, or there was no answer in time. -/
  | unreachable (peer : Peer)
  /-- The answer cannot be used. -/
  | abnormal (peer : Peer) (reason : String)
  deriving DecidableEq, Repr

/-- The wording of a failed request. -/
def NetworkError.message : NetworkError → String
  | unreachable peer => "Peer " ++ peer ++ " is unreachable"
  | abnormal peer reason => "Abnormal response from peer " ++ peer ++ ": " ++ reason

/-- Why synchronisation failed. -/
inductive SyncError
  | chain (e : ChainError)
  | network (e : NetworkError)
  /-- A downloaded block follows another block than the one it should follow. -/
  | brokenSequence (expected actual : Hash)
  deriving DecidableEq, Repr

namespace SyncError

/-- The wording of a failure. -/
def message : SyncError → String
  | chain e => "Chain error: " ++ e.message
  | network e => "Network error: " ++ e.message
  | brokenSequence expected actual =>
    "Downloaded blocks follow " ++ actual.short ++ " instead of the requested " ++ expected.short

/-- The work in progress is still good, and the failure may pass. -/
def isRetryable : SyncError → Bool
  | network (.unreachable _) => true
  | _ => false

end SyncError

/-- How a call or a piece of work ends. -/
inductive Ending
  | returned (result : Except SyncError Unit)
  | panicked (p : Panic)
  deriving Repr

namespace Ending

/-- All went well. -/
def done : Ending := returned (.ok ())

/-- The end of what can only panic. -/
def of : Except Panic Unit → Ending
  | .ok () => done
  | .error p => panicked p

/-- What was returned, if anything was. -/
def result? : Ending → Option (Except SyncError Unit)
  | returned r => some r
  | panicked _ => none

end Ending

end ChainNode

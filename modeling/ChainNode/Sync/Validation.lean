import ChainNode.Sync.Announcements
import ChainNode.Sync.BlockTree

/-!
# Validation

Cheap checks before work is scheduled, and the checks before a block is attached. Nothing at or below
the last irreversible height is worth any work. A block that is pushed counts as an announcement of
itself.
-/

namespace ChainNode

/-- What becomes of a block that is to be attached. -/
inductive AttachDecision
  | attach
  /-- It is part of the chain already. -/
  | alreadyKnown
  | reject
  deriving DecidableEq, Repr

namespace Validation

/-- An announcement is worth some work: it is above the last irreversible height, and the first one
of its block. -/
def announcement (cache : AnnouncementCache) (now : Instant) (heads : Heads) (block : Tip)
    (sender : Peer) : Except Panic Bool × AnnouncementCache :=
  if block.height ≤ heads.irreversible.height then (.ok false, cache)
  else cache.add now block.hash block.height sender

/-- A block that is not known may be attached. -/
def acceptable (b : Block) (heads : Heads) : Bool :=
  heads.irreversible.height < b.height && b.matchesHeader

/-- What becomes of a block that is to be attached to a chain. -/
def decide {χ : Type} [ChainService χ] (chain : χ) (b : Block) :
    Except ChainError AttachDecision × χ :=
  match ChainService.block? chain b.hash with
  | (.error e, chain) => (.error e, chain)
  | (.ok (some _), chain) => (.ok .alreadyKnown, chain)
  | (.ok none, chain) => match ChainService.heads chain with
    | (.error e, chain) => (.error e, chain)
    | (.ok heads, chain) => (.ok (if acceptable b heads then .attach else .reject), chain)

end Validation

end ChainNode

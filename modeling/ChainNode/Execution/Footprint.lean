import ChainNode.State.Path

/-!
# Footprints

What a transaction declares about itself before it runs: which paths it may read and write, and
whether it may run beside others at all.
-/

namespace ChainNode

/-- Whether a transaction may run beside others. -/
inductive Parallelism
  /-- It keeps to the paths it declares. -/
  | parallelizable
  /-- It must run alone. -/
  | nonParallelizable
  /-- Its contract does not exist, so it cannot run. -/
  | withoutContract
  deriving DecidableEq, Repr, Inhabited

/-- What a transaction declares about itself. -/
structure Footprint where
  parallelism : Parallelism
  reads : PathSet
  writes : PathSet
  deriving DecidableEq, Inhabited

namespace Footprint

/-- The declared paths, each once: those written, then those read only. -/
def paths (f : Footprint) : List Path :=
  f.writes.toList ++ (f.reads.filter fun p => !f.writes.contains p).toList

end Footprint

instance : Binary Parallelism where
  encode
    | .parallelizable => encode (0 : UInt32)
    | .nonParallelizable => encode (1 : UInt32)
    | .withoutContract => encode (2 : UInt32)
  decode := do
    let index ← (Binary.decode : Decoder UInt32)
    match index.toNat with
    | 0 => return .parallelizable
    | 1 => return .nonParallelizable
    | 2 => return .withoutContract
    | n => throw (.unknownVariant n)

instance : Binary Footprint where
  encode f := encode f.parallelism ++ encode f.reads ++ encode f.writes
  decode := do
    return {
      parallelism := ← Binary.decode
      reads := ← Binary.decode
      writes := ← Binary.decode }

end ChainNode

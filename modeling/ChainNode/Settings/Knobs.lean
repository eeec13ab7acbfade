import ChainNode.Execution.Grouping
import ChainNode.Settings.Usage
import ChainNode.Sync.Settings

/-!
# The settings of a node

The knobs of grouping and of synchronisation, with their defaults.
-/

namespace ChainNode.Settings

/-- A knob that holds a duration. -/
def durationKnob {σ : Type} (flag : String) (set : Duration → σ → σ) : Knob σ where
  flag := flag
  read s := (Duration.parse s).toOption.map set

/-- A knob that holds a number below a bound. -/
def numberKnob {σ : Type} (flag : String) (bound : Nat) (set : Nat → σ → σ) : Knob σ where
  flag := flag
  read s := (Decimal.read? bound s).map set

/-- A knob that holds a number below a bound, written with either sign. -/
def signedKnob {σ : Type} (flag : String) (bound : Nat) (set : Nat → σ → σ) : Knob σ where
  flag := flag
  read s := (Decimal.readSigned? bound s).map set

/-- The knobs of grouping. -/
def groupingKnobs : List (Knob Grouping.Limits) :=
  [durationKnob "grouping-timeout" fun d s => { s with timeout := d },
    numberKnob "grouping-max-transactions" UInt64.size fun n s => { s with maxItems := n }]

/-- Grouping without any settings given. -/
def groupingDefaults : Grouping.Limits := ⟨⟨200⟩, UInt64.size - 1⟩

/-- The knobs of synchronisation. -/
def syncKnobs : List (Knob SyncSettings) :=
  [numberKnob "block-sync-mode-height-offset" UInt64.size fun n s => { s with gap := .ofNat n },
    numberKnob "max-batch-request-block-count" UInt64.size fun n s => { s with batch := n },
    numberKnob "max-block-download-count" UInt64.size fun n s => { s with downloadCap := n },
    durationKnob "fetch-block-age-limit" fun d s => { s with fetchAge := d },
    durationKnob "attach-block-age-limit" fun d s => { s with attachAge := d },
    durationKnob "attach-and-execute-block-age-limit" fun d s => { s with updateAge := d },
    signedKnob "fetch-block-retry-times" UInt32.size fun n s => { s with retries := n },
    durationKnob "announcement-cache-ttl" fun d s => { s with announcementTtl := d },
    durationKnob "download-job-timeout" fun d s => { s with jobTimeout := d },
    durationKnob "per-block-deadline" fun d s => { s with perBlock := d },
    numberKnob "max-download-job-count" UInt64.size fun n s => { s with maxJobs := n },
    durationKnob "download-worker-interval" fun d s => { s with workerInterval := d }]

/-- Synchronisation without any settings given. -/
def syncDefaults : SyncSettings := {}

/-- The settings of grouping. -/
def readGrouping : List String → List (String × String) → Except UsageError Grouping.Limits :=
  read groupingKnobs groupingDefaults

/-- The settings of synchronisation. -/
def readSync : List String → List (String × String) → Except UsageError SyncSettings :=
  read syncKnobs syncDefaults

/-- The settings of both on one command line. -/
def readBoth : List String → List (String × String) →
    Except UsageError (Grouping.Limits × SyncSettings) :=
  read (groupingKnobs.map .onFirst ++ syncKnobs.map .onSecond) (groupingDefaults, syncDefaults)

end ChainNode.Settings

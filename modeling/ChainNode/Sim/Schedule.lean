import ChainNode.Sync.Clock
import ChainNode.Sync.Queue

/-!
# Processes on a virtual clock

One way to schedule a node, fixed in every detail: a script drives it, each queue has a consumer, and
there may be a worker. Computing takes no time. The script runs until it has to wait; then the ready
processes run, first in first out, each until it has to wait itself; when none is ready the script
goes on if what it waits for has happened, and otherwise the clock jumps to the next time that
somebody waits for.

A `World` is what runs: it says how each process takes one small step, and which processes that wait
for no time can run again.
-/

namespace ChainNode.Sim

/-- What runs beside the script. -/
inductive Process
  | consumer (q : Queue)
  | worker
  deriving DecidableEq, Repr

/-- The processes, in the order in which they are looked at. -/
def Process.all : List Process := Queue.all.map .consumer ++ [.worker]

/-- How a process goes on after a step. -/
inductive Turn
  /-- It can take another step. -/
  | again
  /-- It waits for a time. -/
  | until (t : Instant)
  /-- It waits for something else. -/
  | parked
  deriving DecidableEq, Repr

/-- How the script goes on after a step. -/
inductive ScriptTurn
  | again
  /-- It waits until a time. -/
  | until (t : Instant)
  /-- It waits for something else. -/
  | blocked
  /-- It is at its end. -/
  | finished
  deriving DecidableEq, Repr

/-- Something that runs. -/
class World (ω : Type) where
  setNow : Instant → ω → ω
  /-- One step of the script. -/
  script : ω → ScriptTurn × ω
  /-- What the script waits for has happened. -/
  unblocked : ω → Bool
  /-- One step of a process. -/
  run : Process → ω → Turn × ω
  /-- A process that waits for no time can run again, or for the first time. -/
  woken : ω → Process → Bool

/-- The state of a schedule. -/
structure Schedule (ω : Type) where
  world : ω
  /-- The script runs. -/
  scripted : Bool
  /-- The processes that can run, the next one first. -/
  ready : List Process
  /-- The times that processes wait for. -/
  timers : List (Instant × Process)
  /-- The time that the script waits for. -/
  alarm : Option Instant

namespace Schedule

variable {ω : Type} [World ω]

/-- The script first, then the consumers in the order of their queues. -/
def start (world : ω) : Schedule ω where
  world := world
  scripted := true
  ready := Queue.all.map .consumer
  timers := []
  alarm := none

/-- Makes the processes ready that can run again. -/
def wake (s : Schedule ω) : Schedule ω :=
  let fresh := Process.all.filter fun p => World.woken s.world p && !s.ready.contains p
  { s with
    ready := s.ready ++ fresh
    timers := s.timers.filter fun t => !fresh.contains t.2 }

/-- The earlier of two times, as far as there are any. -/
def earlier (a b : Option Instant) : Option Instant :=
  match a, b with
  | some x, some y => some (min x y)
  | some x, none => some x
  | none, b => b

/-- The next time that somebody waits for. -/
def nextTime (s : Schedule ω) : Option Instant :=
  s.timers.foldl (fun t timer => earlier t (some timer.1)) s.alarm

/-- Moves the clock to a time that somebody waits for. -/
def jump (s : Schedule ω) (t : Instant) : Schedule ω where
  world := World.setNow t s.world
  scripted := s.scripted
  ready := (s.timers.filter fun timer => timer.1 = t).map Prod.snd
  timers := s.timers.filter fun timer => timer.1 ≠ t
  alarm := s.alarm.filter fun a => a ≠ t

/-- One step of a schedule; none at its end. -/
def step (s : Schedule ω) : Option (Schedule ω) :=
  if s.scripted then
    match World.script s.world with
    | (.again, world) => some { s with world }.wake
    | (.until t, world) => some { s with world, scripted := false, alarm := some t }.wake
    | (.blocked, world) => some { s with world, scripted := false }.wake
    | (.finished, _) => none
  else match s.ready with
    | p :: rest => match World.run p s.world with
      | (.again, world) => some { s with world }.wake
      | (.until t, world) =>
        some { s with world, ready := rest, timers := s.timers ++ [(t, p)] }.wake
      | (.parked, world) => some { s with world, ready := rest }.wake
    | [] =>
      if World.unblocked s.world then some { s with scripted := true, alarm := none }
      else s.nextTime.map s.jump

/-- At most so many steps. -/
def run : Nat → Schedule ω → Schedule ω
  | 0, s => s
  | fuel + 1, s => match s.step with
    | none => s
    | some s => s.run fuel

/-- More steps than any script takes in practice. -/
def stepLimit : Nat := 1000000000000

/-- The world at the end of its script. -/
def finish (world : ω) : ω := ((start world).run stepLimit).world

end Schedule

end ChainNode.Sim

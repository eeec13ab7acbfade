import ChainNode.Sim.Schedule
import ChainNode.Sync.Drain

/-!
# Chores in the three queues

The serial queues with work that does nothing but sleep, look around, enqueue more of its kind, and
end well or badly. A script enqueues chores, waits, and overwrites the times that queues show; after
each command it takes down what the chores noted since the command before.
-/

namespace ChainNode.Sim

/-- One instruction of a chore; chores are named, and take notes, in a type `ν`. -/
inductive ChoreStep (ν : Type)
  | sleep (millis : Nat)
  | note (what : ν)
  /-- Notes whether a queue is available. -/
  | available (q : Queue)
  /-- Notes the times that the queues show. -/
  | times
  /-- Notes how much is pending. -/
  | pending
  | enqueue (q : Queue) (id : ν) (steps : List (ChoreStep ν))
  /-- Ends badly. -/
  | fail
  deriving Inhabited

/-- A chore, as far as it has come. -/
structure Chore (ν : Type) where
  id : ν
  started : Bool
  rest : List (ChoreStep ν)

/-- What a chore notes. -/
inductive Noted (ν : Type)
  | started
  | ended
  | note (what : ν)
  | available (yes : Bool)
  | times (ts : PerQueue (Option Instant))
  | pending (ns : PerQueue Nat)

/-- A note, with its time and its chore. -/
structure NoteEntry (ν : Type) where
  time : Instant
  id : ν
  what : Noted ν

/-- A command of a script. -/
inductive ChoreCommand (ν : Type)
  | enqueue (q : Queue) (id : ν) (steps : List (ChoreStep ν))
  | sleep (millis : Nat)
  /-- Waits for everything enqueued on a queue so far. -/
  | flush (q : Queue)
  /-- Waits until all queues are empty. -/
  | drain
  /-- Shows a time so long ago for a queue. -/
  | busy (q : Queue) (millis : Int)
  /-- Shows no time for a queue. -/
  | unbusy (q : Queue)
  /-- Asks for the age limit of a queue. -/
  | limit (q : Queue)

/-- What a script takes down after a command. -/
structure ChoreAnswer (ν : Type) where
  /-- The limit that was asked for. -/
  limit : Option (Duration × Queue)
  now : Instant
  notes : List (NoteEntry ν)
  pending : PerQueue Nat
  available : PerQueue Bool
  times : PerQueue (Option Instant)

/-- What a script waits for. -/
inductive Waiting
  | nothing
  | time (t : Instant)
  | ticket (k : Nat)
  | drain (d : Drain)

/-- What is waited for has happened; a drain can go on if it waits for no ticket. -/
def Waiting.isOver {τ : Type} (w : Waiting) (now : Instant) (p : Pipeline τ) : Bool :=
  match w with
  | .nothing => true
  | .time t => t ≤ now
  | .ticket k => p.isAnswered k
  | .drain d => match d.ticket? with
    | some k => p.isAnswered k
    | none => true

/-- The queues with chores, and the script. -/
structure ChoreWorld (ν : Type) where
  limits : PerQueue Duration
  now : Instant
  pipeline : Pipeline (Chore ν)
  /-- The notes since the last command, the latest first. -/
  notes : List (NoteEntry ν)
  script : List (ChoreCommand ν)
  waiting : Waiting
  /-- What was taken down, the latest first. -/
  answers : List (ChoreAnswer ν)

namespace ChoreWorld

variable {ν : Type}

/-- A queue does not count as busy. -/
def available (w : ChoreWorld ν) (q : Queue) : Bool := w.pipeline.available w.limits w.now q

/-- One value for each queue. -/
def perQueue {α : Type} (f : Queue → α) : PerQueue α := ⟨f .fetch, f .attach, f .update⟩

/-- Adds a note. -/
def note (w : ChoreWorld ν) (id : ν) (what : Noted ν) : ChoreWorld ν :=
  { w with notes := ⟨w.now, id, what⟩ :: w.notes }

/-- Takes down what there is at the end of a command. -/
def answer (w : ChoreWorld ν) (limit : Option (Duration × Queue)) : ChoreWorld ν :=
  { w with
    notes := []
    waiting := .nothing
    answers := {
      limit := limit
      now := w.now
      notes := w.notes.reverse
      pending := perQueue w.pipeline.pending
      available := perQueue w.available
      times := w.pipeline.times } :: w.answers }

/-- Waits before the current command ends. -/
def wait (w : ChoreWorld ν) (waiting : Waiting) : ChoreWorld ν := { w with waiting }

/-- Begins a command. -/
def begin (w : ChoreWorld ν) : ChoreCommand ν → ChoreWorld ν
  | .enqueue q id steps =>
    { w with pipeline := w.pipeline.enqueue w.now q ⟨id, false, steps⟩ }.answer none
  | .sleep millis => w.wait (.time (w.now + millis))
  | .flush q =>
    let (k, pipeline) := w.pipeline.post q
    { w with pipeline, waiting := .ticket k }
  | .drain => w.wait (.drain .start)
  | .busy q millis =>
    { w with pipeline := w.pipeline.setTime q (some (w.now - millis)) }.answer none
  | .unbusy q => { w with pipeline := w.pipeline.setTime q none }.answer none
  | .limit q => w.answer (some (w.limits.get q, q))

/-- One step of the script. -/
def scriptStep (w : ChoreWorld ν) : ScriptTurn × ChoreWorld ν :=
  match w.waiting with
  | .nothing => match w.script with
    | [] => (.finished, w)
    | c :: script => (.again, { w with script }.begin c)
  | .time t => if t ≤ w.now then (.again, w.answer none) else (.until t, w)
  | .ticket k => if w.pipeline.isAnswered k then (.again, w.answer none) else (.blocked, w)
  | .drain d => match d.step w.pipeline with
    | .done => (.again, w.answer none)
    | .blocked => (.blocked, w)
    | .next d pipeline => (.again, { w with pipeline, waiting := .drain d })

/-- The running chore of a queue takes an instruction. -/
def choreStep (w : ChoreWorld ν) (q : Queue) (c : Chore ν) : Turn × ChoreWorld ν :=
  let go (w : ChoreWorld ν) (rest : List (ChoreStep ν)) : ChoreWorld ν :=
    { w with pipeline := w.pipeline.advance q ⟨c.id, true, rest⟩ }
  let stop (w : ChoreWorld ν) : ChoreWorld ν := { w with pipeline := w.pipeline.finish q }
  if !c.started then (.again, go (w.note c.id .started) c.rest)
  else match c.rest with
    | [] => (.again, stop (w.note c.id .ended))
    | .sleep 0 :: rest => (.again, go w rest)
    | .sleep millis :: rest => (.until (w.now + millis), go w rest)
    | .note what :: rest => (.again, go (w.note c.id (.note what)) rest)
    | .available r :: rest => (.again, go (w.note c.id (.available (w.available r))) rest)
    | .times :: rest => (.again, go (w.note c.id (.times w.pipeline.times)) rest)
    | .pending :: rest =>
      (.again, go (w.note c.id (.pending (perQueue w.pipeline.pending))) rest)
    | .enqueue r id steps :: rest =>
      (.again, go { w with pipeline := w.pipeline.enqueue w.now r ⟨id, false, steps⟩ } rest)
    | .fail :: _ => (.again, stop w)

/-- One step of a queue. -/
def queueStep (w : ChoreWorld ν) (q : Queue) : Turn × ChoreWorld ν :=
  match (w.pipeline.lane q).running with
  | some c => w.choreStep q c
  | none => match w.pipeline.receive q with
    | some pipeline => (.again, { w with pipeline })
    | none => (.parked, w)

instance : World (ChoreWorld ν) where
  setNow t w := { w with now := t }
  script := scriptStep
  unblocked w := w.waiting.isOver w.now w.pipeline
  run
    | .consumer q, w => w.queueStep q
    | .worker, w => (.parked, w)
  woken
    | w, .consumer q => w.pipeline.hasNews q
    | _, .worker => false

/-- Runs a script from empty queues. -/
def runScript (settings : SyncSettings) (script : List (ChoreCommand ν)) : List (ChoreAnswer ν) :=
  (Schedule.finish {
    limits := settings.ageLimits
    now := 0
    pipeline := .empty
    notes := []
    script := script
    waiting := .nothing
    answers := [] : ChoreWorld ν }).answers.reverse

end ChoreWorld

end ChainNode.Sim

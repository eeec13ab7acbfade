import ChainNode.Execution.Outcome
import ChainNode.Scope

/-!
# Transaction programs

A small language for what a transaction does, to exercise execution with. A program is a list of
instructions; it ends mined unless an instruction stops it otherwise. It sees its own pending
writes. Its outcome reports the reads and writes gathered until it stopped. A program can also
cancel the scope it runs in, and it can crash, which ends everything.
-/

namespace ChainNode

/-- One instruction of a transaction program. -/
inductive Instruction
  | put (p : Path) (v : Value)
  | delete (p : Path)
  | get (p : Path)
  /-- Adds to the number at a path. -/
  | increment (p : Path) (n : UInt64)
  /-- Copies a slot; the read is reported only if `reported`. -/
  | copy (source target : Path) (reported : Bool)
  | writeHeight (p : Path)
  | writeTime (p : Path)
  | writePrevious (p : Path)
  /-- Fails if there is something at the path. -/
  | failIf (p : Path) (reason : String)
  | fail (reason : String)
  /-- Fails and reports neither reads nor writes. -/
  | abort (reason : String)
  /-- Ends with a given status. -/
  | stop (status : Status)
  /-- Cancels the scope the program runs in. -/
  | cancel (reach : Cancellation.Reach)
  | crash (message : String)

/-- A transaction program. -/
abbrev Program := List Instruction

/-- Ends everything. -/
structure Crash where
  message : String
  deriving DecidableEq, Repr

namespace Program

/-- What a program has done so far. -/
structure Progress where
  reads : PathSet
  writes : Changes
  /-- The cancellations it asked for, the latest first. -/
  cancels : List Cancellation.Reach

namespace Progress

/-- Nothing done. -/
def start : Progress := ⟨∅, ∅, []⟩

/-- Notes a read. -/
def read (s : Progress) (p : Path) : Progress := { s with reads := s.reads.insert p }

/-- Writes a slot. -/
def write (s : Progress) (p : Path) (content : Option Value) : Progress :=
  { s with writes := s.writes.insert p content }

/-- The outcome if the program stops here. -/
def outcome (s : Progress) (status : Status) : Outcome := ⟨status, s.reads, s.writes⟩

end Progress

/-- The number stored in the first eight bytes of a slot; missing bytes are zero. -/
def number (content : Option Value) : Nat :=
  ofLittleEndian ((content.getD []).take 8)

/-- Runs the rest of a program. -/
def runFrom (context : BlockContext) (view : View) (s : Progress) :
    Program → Except Crash (Outcome × Progress)
  | [] => .ok (s.outcome .mined, s)
  | instruction :: rest =>
    let see (p : Path) : Option Value := s.writes.onto view p
    match instruction with
    | .put p v => runFrom context view (s.write p (some v)) rest
    | .delete p => runFrom context view (s.write p none) rest
    | .get p => runFrom context view (s.read p) rest
    | .increment p n =>
      let sum := UInt64.ofNat (number (see p)) + n
      runFrom context view ((s.read p).write p (some (littleEndian 8 sum.toNat))) rest
    | .copy source target reported =>
      let s' := if reported then s.read source else s
      runFrom context view (s'.write target (see source)) rest
    | .writeHeight p =>
      runFrom context view (s.write p (some (littleEndian 8 context.height.toNat))) rest
    | .writeTime p =>
      runFrom context view (s.write p (some (littleEndian 8 context.time.toNat))) rest
    | .writePrevious p =>
      runFrom context view (s.write p (some context.previous.toBytes)) rest
    | .failIf p reason =>
      if (see p).isSome then .ok ((s.read p).outcome (.failed reason), s.read p)
      else runFrom context view (s.read p) rest
    | .fail reason => .ok (s.outcome (.failed reason), s)
    | .abort reason => .ok (⟨.failed reason, ∅, ∅⟩, s)
    | .stop status => .ok (s.outcome status, s)
    | .cancel reach => runFrom context view { s with cancels := reach :: s.cancels } rest
    | .crash message => .error ⟨message⟩

/-- Runs a program: its outcome, and the cancellations it asked for, in order. -/
def run (context : BlockContext) (view : View) (program : Program) :
    Except Crash (Outcome × List Cancellation.Reach) :=
  (runFrom context view .start program).map fun (outcome, s) => (outcome, s.cancels.reverse)

end Program

end ChainNode

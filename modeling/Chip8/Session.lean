import Chip8.Assembly.Source
import Chip8.Frontend

/-!
# Sessions

A session runs a loaded program under control: one instruction at a time, over
a whole subroutine, or on until something stops it. It counts the instructions
and knows the source line of the current one.

Three things end a run that goes well. The frontend may raise a stop flag that
it shares with the session. A limit on the number of steps may be reached.
And the program may stall, which shows in an instruction that leaves the
instruction pointer in place: a jump to itself and a wait for a key have
nothing left to do without help from outside.

Runs are bounded, so that each of them ends. Going over a subroutine has no
limit of its own, and says when its bound was too small; `returnTo` goes on
from there.

## Main definitions

* `Session`: A machine, its program, and the number of steps done.
* `Session.start`, `Session.ofProgram`: Beginning a session.
* `Outcome`: Why control came back.
* `Watched`: A frontend's state with the stop flag.
* `Session.stepIn`, `Session.stepOver`, `Session.continueFor`: Run control.
-/

namespace Chip8

/-- Why a session hands control back. -/
inductive Outcome where
  /-- What was asked for is done. -/
  | stepped
  /-- The stop flag was raised. -/
  | stopped
  /-- The limit on steps was reached. -/
  | stepLimit
  /-- The instruction at this address stayed in place. -/
  | stalled (ip : UInt16)
  deriving DecidableEq, Repr

/-- Why a session cannot begin. -/
inductive StartError where
  | assembly (e : AssemblyError)
  | load (e : ExecutionError)
  deriving DecidableEq, Repr

/-- The wording of the error behind a failed start. -/
def StartError.innerMessage : StartError → String
  | .assembly e => e.message
  | .load e => e.message

/-- The wording of a failed start. -/
def StartError.message : StartError → String
  | .assembly e => e.message
  | .load e => "cannot load program: " ++ e.message

/-- A loaded program under run control. -/
structure Session where
  machine : Machine
  program : Program
  /-- The number of instructions executed so far. -/
  steps : Nat

/-- A frontend's state, together with the stop flag that it shares with the
    session. -/
structure Watched (σ : Type) where
  state : σ
  stop : Bool

/-- The same state with the flag down, as at the beginning of a run. -/
def Watched.lower {σ : Type} (w : Watched σ) : Watched σ :=
  { w with stop := false }

namespace Session

/-- A session for a program, unless it is too long for the machine. -/
def ofProgram (program : Program) (m : Machine) : Except StartError Session :=
  match m.load program.bytes with
  | (.ok _, m') => .ok ⟨m', program, 0⟩
  | (.error e, _) => .error (.load e)

/-- A session for bytes, about whose source lines nothing is known. -/
def ofBytes (bytes : List UInt8) (m : Machine) : Except StartError Session :=
  ofProgram ⟨bytes, []⟩ m

/-- A session for a source text. -/
def start (src : Text) (m : Machine) : Except StartError Session :=
  match Source.assemble src with
  | .ok program => ofProgram program m
  | .error e => .error (.assembly e)

/-- The source line of the byte at the instruction pointer. -/
def currentLine? (s : Session) : Option Nat :=
  let ip := s.machine.ip.toNat
  if programStart ≤ ip then s.program.lineAt? (ip - programStart) else none

section Run

variable {σ : Type}

/-- One step. It stalls when the instruction pointer stays in place. -/
def stepIn (fe : Frontend σ) (s : Session) (shown : σ) :
    Except ExecutionError Outcome × Session × σ :=
  let ip := s.machine.ip
  match s.machine.stepWith fe shown with
  | (.error e, m, shown') =>
      (.error e, { s with machine := m }, fe.followStep ip (.error e) shown')
  | (.ok (ins, _), m, shown') =>
      (.ok (if m.ip = ip then .stalled ip else .stepped),
        { s with machine := m, steps := s.steps + 1 }, fe.followStep ip (.ok ins) shown')

/-- Steps until something ends the run, at most `limit` of them. The stop flag
    is looked at before every step and once more behind the last. -/
def run (fe : Frontend (Watched σ)) :
    Nat → Session → Watched σ → Except ExecutionError Outcome × Session × Watched σ
  | 0, s, shown => (.ok (if shown.stop then .stopped else .stepLimit), s, shown)
  | limit + 1, s, shown =>
      if shown.stop then (.ok .stopped, s, shown)
      else
        match s.stepIn fe shown with
        | (.ok .stepped, s', shown') => run fe limit s' shown'
        | ended => ended

/-- Runs with the stop flag down at first. -/
def continueFor (fe : Frontend (Watched σ)) (limit : Nat) (s : Session) (shown : Watched σ) :
    Except ExecutionError Outcome × Session × Watched σ :=
  run fe limit s shown.lower

/-- Steps until the instruction pointer is at an address or something ends the
    run. There is no outcome when `bound` steps are not enough. -/
def returnTo (fe : Frontend (Watched σ)) (address : UInt16) :
    Nat → Session → Watched σ →
      Option (Except ExecutionError Outcome) × Session × Watched σ
  | 0, s, shown => (none, s, shown)
  | bound + 1, s, shown =>
      match s.stepIn fe shown with
      | (.error e, s', shown') => (some (.error e), s', shown')
      | (.ok outcome, s', shown') =>
          if s'.machine.ip = address then (some (.ok .stepped), s', shown')
          else if outcome ≠ .stepped then (some (.ok outcome), s', shown')
          else if shown'.stop then (some (.ok .stopped), s', shown')
          else returnTo fe address bound s' shown'

/-- The address behind the current instruction, where a call made by it
    returns to. -/
def returnAddress (s : Session) : UInt16 :=
  s.machine.ip + 2

/-- One step, or the whole subroutine if the step calls one. Whether it does is
    found out by fetching ahead, and an error met there is not shown. -/
def stepOver (fe : Frontend (Watched σ)) (bound : Nat) (s : Session) (shown : Watched σ) :
    Option (Except ExecutionError Outcome) × Session × Watched σ :=
  match s.machine.fetch with
  | .error e => (some (.error e), s, shown)
  | .ok ins =>
      if ins.op.isCall then returnTo fe s.returnAddress bound s shown.lower
      else
        match s.stepIn fe shown with
        | (result, s', shown') => (some result, s', shown')

end Run

end Session

end Chip8

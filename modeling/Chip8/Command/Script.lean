import Chip8.Session
import Chip8.Terminal.Panel

/-!
# Scripts

What a command does to its surroundings, laid out as a script: writing to the
terminal, reading and writing files, running a session, and ending with an
exit code. Where the surroundings answer, the script goes on as the answer
tells.

A script is a plain value and does nothing by itself. Whoever performs it
supplies the files and the terminal. Running a session is the one step that
may take long, or forever, so it is performed piece by piece.

## Main definitions

* `Script`: What is done, in order.
* `tracer`: The frontend that writes a line for each step.
* `Script.advance`: A piece of a run.
-/

namespace Chip8

/-- Where output goes. -/
inductive Channel where
  | out
  | err
  deriving DecidableEq, Repr

/-- What a command does to its surroundings. -/
inductive Script where
  /-- Text is written. -/
  | print (channel : Channel) (text : Text) (next : Script)
  /-- A file is read, unless it cannot be. -/
  | read (name : Text) (next : Option ByteArray → Script)
  /-- A file is written, and it is told whether that was possible. -/
  | write (name : Text) (content : ByteArray) (next : Bool → Script)
  /-- A session runs until it ends or reaches a limit. -/
  | run (trace : Option Terminal) (limit : Option Nat) (session : Session)
      (next : Except ExecutionError Outcome → Session → Script)
  /-- The command ends with an exit code. -/
  | exit (code : UInt32)

/-- The line that tells of a step: its address with the instruction, or with
    what went wrong. -/
def traceLine (t : Terminal) (ip : UInt16) (result : Except ExecutionError Instruction) :
    Text :=
  let address := "0x".toList ++ Text.paddedHex 4 ip.toNat
  match result with
  | .ok ins =>
      t.diagnostic .sometimes .info
        (address ++ ' ' :: Text.paddedHex 4 ins.word.toNat ++ ' ' :: ins.text ++ ['\n'])
  | .error e => t.diagnostic .sometimes .error (address ++ ' ' :: e.message.toList ++ ['\n'])

/-- The frontend that collects a line for each step, the latest first. Without
    a terminal to trace to, it shows nothing. -/
def tracer (trace : Option Terminal) : Frontend (Watched (List Text)) :=
  match trace with
  | none => .silent
  | some t =>
      { Frontend.silent with
        followStep := fun ip result shown =>
          { shown with state := traceLine t ip result :: shown.state } }

namespace Script

/-- A piece of a run, of at most `bound` steps: what it traces, and then either
    the rest of the run or what follows it. -/
def advance (bound : Nat) (trace : Option Terminal) (limit : Option Nat) (session : Session)
    (next : Except ExecutionError Outcome → Session → Script) : Script :=
  let amount := match limit with
    | none => bound
    | some n => min bound n
  let (result, session, shown) := session.continueFor (tracer trace) amount ⟨[], false⟩
  let rest := match result with
    | .ok .stepLimit =>
        if limit = some amount then next result session
        else run trace (limit.map (· - amount)) session next
    | _ => next result session
  print .err shown.state.reverse.flatten rest

end Script

end Chip8

import Chip8.Command.Perform

/-!
# The Program

Performs the script of a command line on the real terminal and the real files.
Everything that is decided is decided by the script; what is added here is
time. The timers of a running machine are ticked sixty times a second, as far
as the clock has come since they were last looked at.

## Main definitions

* `perform`: A script, performed.
* `main`: The program.
-/

namespace Chip8

/-- The time between two ticks of the timers, in nanoseconds. -/
def tickPeriod : Nat :=
  16666666

/-- The number of steps between two looks at the clock. -/
def stepsPerPiece : Nat :=
  2000

/-- Performs a script. With a clock, which holds the time of the last tick, the
    timers of a session follow it while the session runs. -/
partial def perform (clock : Option Nat) : Script → IO UInt32
  | .exit code => pure code
  | .print channel text next => do
      let stream ← match channel with
        | .out => IO.getStdout
        | .err => IO.getStderr
      stream.putStr (String.ofList text)
      stream.flush
      perform clock next
  | .read name next => do
      let content ← try
          some <$> IO.FS.readBinFile (String.ofList name)
        catch _ => pure none
      perform clock (next content)
  | .write name content next => do
      let written ← try
          IO.FS.writeBinFile (String.ofList name) content
          pure true
        catch _ => pure false
      perform clock (next written)
  | .run trace limit session next => do
      match clock with
      | none => perform none (Script.advance stepsPerPiece trace limit session next)
      | some last => do
          let count := ((← IO.monoNanosNow) - last) / tickPeriod
          let (machine, tonesEnded) := session.machine.ticks count
          for _ in List.range tonesEnded do
            (← IO.getStderr).putStr "\x07"
          perform (some (last + count * tickPeriod))
            (Script.advance stepsPerPiece trace limit { session with machine := machine } next)

end Chip8

/-- The program: performs the script of its arguments. -/
def main (args : List String) : IO UInt32 := do
  let trace ← IO.getEnv Chip8.traceVariable
  let seed ← IO.getEnv Chip8.seedVariable
  let timers ← IO.getEnv Chip8.timersVariable
  let chosen := seed.bind fun value => Chip8.seedOf? value.toList
  let fallback ← IO.rand 0 0xFFFFFFFFFFFFFFFF
  let env : Chip8.Environment :=
    { trace := trace == some "1"
      seed := chosen.getD fallback.toUInt64
      colours := ← (← IO.getStdout).isTty }
  let clock ← if timers == some "0" then pure none else some <$> IO.monoNanosNow
  Chip8.perform clock (Chip8.commandLine env (args.map String.toList))

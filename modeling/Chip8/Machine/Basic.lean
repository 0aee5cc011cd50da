import Chip8.Instruction
import Chip8.Keypad
import Chip8.Keystream
import Chip8.Machine.Memory
import Chip8.Screen
import Chip8.Timers

/-!
# The Machine

The whole state of the machine, and the operations on it that need no
instruction: loading a program, fetching what comes next, ticking the timers,
and what a debugger or a keyboard does from outside.

An operation that can be refused returns its result beside the machine, so
that what a refusal does to the machine is a fact about it and not hidden in a
missing value.

## Main definitions

* `Machine`: The state.
* `Machine.idle`: A new machine.
* `Machine.load`, `Machine.unload`: Starting and ending a program.
* `Machine.fetch`: The instruction at the instruction pointer.
* `Machine.tick`, `Machine.ticks`: One tick of the timers, and several.
* `Machine.register`, `Machine.setRegister`: Registers by number.
* `Machine.readByte`, `Machine.writeByte`: Single bytes of memory.
-/

namespace Chip8

/-- The state of the machine. -/
structure Machine where
  memory : Memory
  /-- The registers `v0` to `v15`. -/
  v : Vector UInt8 registerCount
  /-- The index register. -/
  i : UInt16
  /-- The instruction pointer. -/
  ip : UInt16
  /-- Return addresses, the latest first. -/
  stack : List UInt16
  screen : Screen
  timers : Timers
  keys : Keypad
  random : RandomSource
  /-- Whether there is a program to run. -/
  loaded : Bool

namespace Machine

/-- A new machine, without a program. -/
def idle (seed : UInt64) : Machine where
  memory := .blank
  v := Vector.replicate registerCount 0
  i := 0
  ip := programStart.toUInt16
  stack := []
  screen := .blank
  timers := .stopped
  keys := .idle
  random := .ofSeed seed
  loaded := false

/-- A machine at the start of a program. Of what was before, the random source
    alone goes on. -/
def start (program : List UInt8) (random : RandomSource) : Machine :=
  { idle 0 with memory := .ofProgram program, random := random, loaded := true }

/-- Starts a program, unless it is too long for memory. -/
def load (program : List UInt8) (m : Machine) : Except ExecutionError Unit × Machine :=
  if programStart + program.length ≤ memorySize then (.ok (), start program m.random)
  else (.error (.outOfBounds (programStart + program.length - 1)), m)

/-- Takes the program away. All else stays. -/
def unload (m : Machine) : Machine :=
  { m with loaded := false }

/-- A byte register. Numbers wrap around at sixteen. -/
def reg (m : Machine) (n : Nat) : UInt8 :=
  have h : n % registerCount < registerCount := Nat.mod_lt _ (by decide)
  m.v[n % registerCount]

def setReg (n : Nat) (value : UInt8) (m : Machine) : Machine :=
  { m with v := m.v.set (n % registerCount) value (Nat.mod_lt _ (by decide)) }

/-- The instruction at the instruction pointer. -/
def fetch (m : Machine) : Except ExecutionError Instruction :=
  if m.loaded then
    match m.memory.block m.ip.toNat 2 with
    | .error e => .error e
    | .ok bytes =>
        let word := wordOfBytes (bytes.getD 0 0) (bytes.getD 1 0)
        match Instruction.decode? word with
        | some i => .ok i
        | none => .error (.undecodable m.ip word)
  else .error .notLoaded

/-- One tick of the timers, and whether the tone ended with it. -/
def tick (m : Machine) : Machine × Bool :=
  let ticked := m.timers.tick
  ({ m with timers := ticked.1 }, ticked.2)

/-- A number of ticks in a row, and how many tones ended during them. Timers
    at rest stay at rest, whatever the number is. -/
def ticks : Nat → Machine → Machine × Nat
  | 0, m => (m, 0)
  | n + 1, m =>
      if m.timers = .stopped then (m, 0)
      else
        let (m, ended) := m.tick
        let (m, more) := ticks n m
        (m, (if ended then 1 else 0) + more)

/-! ## Access from outside -/

/-- The register with a number. -/
def register (number : Nat) (m : Machine) : Except ExecutionError UInt16 :=
  match Register.ofNumber? number with
  | some (.v n) => .ok m.v[n].toUInt16
  | some .i => .ok m.i
  | some .ip => .ok m.ip
  | none => .error (.invalidRegister number)

/-- Gives the register with a number another value. A byte register takes no
    value of more than a byte. -/
def setRegister (number : Nat) (value : UInt16) (m : Machine) :
    Except ExecutionError Unit × Machine :=
  match Register.ofNumber? number with
  | some (.v n) =>
      if value < 256 then (.ok (), { m with v := m.v.set n value.toUInt8 })
      else (.error (.registerOverflow (.v n) value), m)
  | some .i => (.ok (), { m with i := value })
  | some .ip => (.ok (), { m with ip := value })
  | none => (.error (.invalidRegister number), m)

/-- The byte at an address. -/
def readByte (address : Nat) (m : Machine) : Except ExecutionError UInt8 :=
  match m.memory.block address 1 with
  | .ok bytes => .ok (bytes.getD 0 0)
  | .error e => .error e

/-- Puts another byte at an address. -/
def writeByte (address : Nat) (value : UInt8) (m : Machine) :
    Except ExecutionError Unit × Machine :=
  match m.memory.write address [value] with
  | .ok memory => (.ok (), { m with memory := memory })
  | .error e => (.error e, m)

def setPixel (x y : Nat) (value : UInt32) (m : Machine) : Machine :=
  { m with screen := m.screen.setPixel x y value }

def press (key : UInt8) (m : Machine) : Machine :=
  { m with keys := m.keys.press key }

def release (key : UInt8) (m : Machine) : Machine :=
  { m with keys := m.keys.release key }

end Machine

end Chip8

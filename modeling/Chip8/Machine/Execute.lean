import Chip8.Machine.Basic

/-!
# Execution

What each instruction does to the machine. Every instruction sets the
instruction pointer itself: most step to the next word, skips step over one
more, and jumps, calls and returns go elsewhere. Two instructions may leave it
in place, `gkey` while no key is held and `ret` when there is nowhere to
return to.

Where an instruction writes both the flag register and its destination, the
flag is written first. With the flag register as destination, the result
stays.

## Main definitions

* `Effect`: What a frontend has to know about an executed instruction.
* `Machine.execute`: The effect of an instruction on the machine.
* `Machine.step`: Fetching and executing the next instruction.
-/

namespace Chip8

/-- What a frontend has to know about an executed instruction. -/
inductive Effect where
  | quiet
  /-- The screen was drawn on, and should be shown again. -/
  | redraw
  deriving DecidableEq, Repr

namespace Machine

/-- Sets the flag register to one or to zero. -/
def setFlag (flag : Bool) (m : Machine) : Machine :=
  m.setReg flagRegister (if flag then 1 else 0)

def setIndex (value : UInt16) (m : Machine) : Machine :=
  { m with i := value }

/-- On to the next word. -/
def advance (m : Machine) : Machine :=
  { m with ip := m.ip + 2 }

/-- On to the next word, or to the one behind it. -/
def skipIf (condition : Bool) (m : Machine) : Machine :=
  { m with ip := m.ip + if condition then 4 else 2 }

def jump (address : UInt16) (m : Machine) : Machine :=
  { m with ip := address }

/-- To a subroutine, which returns to the next word. -/
def call (address : UInt16) (m : Machine) : Machine :=
  { m with ip := address, stack := (m.ip + 2) :: m.stack }

/-- Back from a subroutine. Outside of any, nothing happens. -/
def ret (m : Machine) : Machine :=
  match m.stack with
  | [] => m
  | address :: rest => { m with ip := address, stack := rest }

/-- Draws a sprite, and flags a collision. -/
def drawSprite (x y : Nat) (sprite : List UInt8) (m : Machine) : Machine :=
  let d := Drawing.sprite x y sprite ⟨m.screen, false⟩
  { m with screen := d.screen }.setFlag d.collision

/-- The decimal digits of a byte, hundreds first. -/
def decimalDigits (b : UInt8) : List UInt8 :=
  [b / 100, b / 10 % 10, b % 10]

/-- The address of the glyph for a digit. What is no digit has the glyph of
    zero. -/
def glyphAddress (digit : UInt8) : UInt16 :=
  if digit < 16 then digit.toUInt16 * glyphSize.toUInt16 else 0

/-- The effect of an instruction on the machine. -/
def execute (ins : Instruction) (m : Machine) : Except ExecutionError Effect × Machine :=
  let x := ins.operands.x.toNat
  let nn := ins.operands.nn
  let nnn := ins.operands.nnn
  let vx := m.reg x
  let vy := m.reg ins.operands.y.toNat
  let quiet (m : Machine) : Except ExecutionError Effect × Machine := (.ok .quiet, m)
  match ins.op with
  | .call | .callptr => quiet (m.call nnn)
  | .clear => (.ok .redraw, { m with screen := .blank }.advance)
  | .ret => quiet m.ret
  | .jmp => quiet (m.jump nnn)
  | .skeqi => quiet (m.skipIf (vx == nn))
  | .skneqi => quiet (m.skipIf (vx != nn))
  | .skeqr => quiet (m.skipIf (vx == vy))
  | .skneqr => quiet (m.skipIf (vx != vy))
  | .li => quiet (m.setReg x nn).advance
  | .addi => quiet (m.setReg x (vx + nn)).advance
  | .mov => quiet (m.setReg x vy).advance
  | .or => quiet (m.setReg x (vx ||| vy)).advance
  | .and => quiet (m.setReg x (vx &&& vy)).advance
  | .xor => quiet (m.setReg x (vx ^^^ vy)).advance
  | .add => quiet ((m.setFlag (256 ≤ vx.toNat + vy.toNat)).setReg x (vx + vy)).advance
  | .sub => quiet ((m.setFlag (vx < vy)).setReg x (vx - vy)).advance
  | .subr => quiet ((m.setFlag (vy < vx)).setReg x (vy - vx)).advance
  | .shr1 => quiet ((m.setFlag (vx.toNat.testBit 0)).setReg x (vx >>> 1)).advance
  | .shl1 => quiet ((m.setFlag (vx.toNat.testBit 7)).setReg x (vx <<< 1)).advance
  | .loadI => quiet (m.setIndex nnn).advance
  | .brelv0 => quiet (m.jump ((m.reg 0).toUInt16 + nnn))
  | .rand =>
      let drawn := m.random.next
      quiet ({ m with random := drawn.2 }.setReg x (drawn.1.toUInt8 &&& nn)).advance
  | .draw =>
      match m.memory.block m.i.toNat ins.operands.n.toNat with
      | .error e => (.error e, m)
      | .ok sprite => (.ok .redraw, (m.drawSprite vx.toNat vy.toNat sprite).advance)
  | .skeqkey => quiet (m.skipIf (m.keys.isHeld vx))
  | .skneqkey => quiet (m.skipIf (!m.keys.isHeld vx))
  | .gdtc => quiet (m.setReg x m.timers.delay).advance
  | .gkey =>
      match m.keys.lowestHeld? with
      | none => quiet m
      | some key => quiet (m.setReg x key).advance
  | .sdtc => quiet { m with timers := { m.timers with delay := vx } }.advance
  | .sstc => quiet { m with timers := { m.timers with sound := vx } }.advance
  | .addI =>
      quiet ((m.setFlag (0xFFF < m.i.toNat + vx.toNat)).setIndex (m.i + vx.toUInt16)).advance
  | .gsprite => quiet (m.setIndex (glyphAddress vx)).advance
  | .sbcd =>
      match m.memory.write m.i.toNat (decimalDigits vx) with
      | .error e => (.error e, m)
      | .ok memory => quiet { m with memory := memory }.advance
  | .regdump =>
      match m.memory.write m.i.toNat ((List.range (x + 1)).map m.reg) with
      | .error e => (.error e, m)
      | .ok memory => quiet { m with memory := memory }.advance
  | .regload =>
      match m.memory.block m.i.toNat (x + 1) with
      | .error e => (.error e, m)
      | .ok bytes => quiet { m with v := overlay m.v 0 bytes }.advance

/-- Fetches and executes the next instruction. -/
def step (m : Machine) : Except ExecutionError (Instruction × Effect) × Machine :=
  match m.fetch with
  | .error e => (.error e, m)
  | .ok ins =>
      match m.execute ins with
      | (.error e, m') => (.error e, m')
      | (.ok effect, m') => (.ok (ins, effect), m')

end Machine

end Chip8

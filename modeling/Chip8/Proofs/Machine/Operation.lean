import Chip8.Machine.Execute

/-!
# Histories of a Machine

Whoever holds a machine may load a program into it, step it, tick its timers,
press its keys and reach into it as a debugger does. A history is a list of
such operations, and the states that a machine can reach are the states behind
its histories. What an operation answers is left out: a refused operation
still has a place in the history, and a state behind it.

## Main definitions

* `Operation`: What can be done to a machine.
* `Operation.apply`: The machine behind an operation.
* `Machine.after`: The machine behind a history.
* `Operation.KeepsScreen`: What leaves the screen alone.

## Theorems

* `after_cons`, `after_append`: Histories are run from the left.
* `exists_setRegister_eq`, `exists_writeByte_eq`: What is reached from outside.
* `Operation.screen_apply`: The screen behind an operation that keeps it.
-/

namespace Chip8

/-- What can be done to a machine. -/
inductive Operation where
  | load (program : List UInt8)
  | unload
  | step
  | tick
  | press (key : UInt8)
  | release (key : UInt8)
  | setRegister (number : Nat) (value : UInt16)
  | writeByte (address : Nat) (value : UInt8)
  | setPixel (x y : Nat) (value : UInt32)
  deriving DecidableEq, Repr

/-- The machine behind an operation, whether it was refused or not. -/
def Operation.apply (m : Machine) : Operation → Machine
  | .load program => (m.load program).2
  | .unload => m.unload
  | .step => m.step.2
  | .tick => m.tick.1
  | .press key => m.press key
  | .release key => m.release key
  | .setRegister number value => (m.setRegister number value).2
  | .writeByte address value => (m.writeByte address value).2
  | .setPixel x y value => m.setPixel x y value

namespace Machine

/-- The machine behind a history, which begins with the head of the list. -/
def after (m : Machine) (history : List Operation) : Machine :=
  history.foldl Operation.apply m

theorem after_nil (m : Machine) : m.after [] = m := rfl

theorem after_cons (m : Machine) (op : Operation) (history : List Operation) :
    m.after (op :: history) = (op.apply m).after history := rfl

theorem after_append (m : Machine) (earlier later : List Operation) :
    m.after (earlier ++ later) = (m.after earlier).after later :=
  List.foldl_append

/-- Whoever writes a register reaches nothing but the registers. -/
theorem exists_setRegister_eq (number : Nat) (value : UInt16) (m : Machine) :
    ∃ v i ip, (m.setRegister number value).2 = { m with v := v, i := i, ip := ip } := by
  unfold setRegister
  split
  · split <;> exact ⟨_, _, _, rfl⟩
  · exact ⟨_, _, _, rfl⟩
  · exact ⟨_, _, _, rfl⟩
  · exact ⟨_, _, _, rfl⟩

/-- Whoever writes a byte reaches nothing but memory. -/
theorem exists_writeByte_eq (address : Nat) (value : UInt8) (m : Machine) :
    ∃ memory, (m.writeByte address value).2 = { m with memory := memory } := by
  unfold writeByte
  split <;> exact ⟨_, rfl⟩

end Machine

/-! ## The screen -/

/-- What leaves the screen alone in every state of the machine. A step may draw,
    a new program starts with a dark screen, and a pixel is set. -/
def Operation.KeepsScreen : Operation → Prop
  | .load _ | .step | .setPixel .. => False
  | .unload | .tick | .press _ | .release _ | .setRegister .. | .writeByte .. => True

instance : DecidablePred Operation.KeepsScreen
  | .load _ | .step | .setPixel .. => .isFalse id
  | .unload | .tick | .press _ | .release _ | .setRegister .. | .writeByte .. => .isTrue trivial

theorem Operation.screen_apply {op : Operation} (hop : op.KeepsScreen) (m : Machine) :
    (op.apply m).screen = m.screen := by
  cases op with
  | load | step | setPixel => exact hop.elim
  | unload | tick | press | release => rfl
  | setRegister number value =>
      rcases Machine.exists_setRegister_eq number value m with ⟨v, i, ip, heq⟩
      rw [apply, heq]
  | writeByte address value =>
      rcases Machine.exists_writeByte_eq address value m with ⟨memory, heq⟩
      rw [apply, heq]

end Chip8

import Chip8.Platform
import Chip8.Text.Numeral

/-!
# Registers

A debugger numbers the registers in a row: the sixteen byte registers `v0` to
`v15`, then the index register `I`, then the instruction pointer `ip`.

## Main definitions

* `Register`: The registers.
* `Register.number`, `Register.ofNumber?`: Their numbers.
* `Register.text`, `Register.ofName?`: Their names.

## Theorems

* `ofNumber?_number`: Every register answers to its number.
-/

namespace Chip8

/-- The registers of the machine. -/
inductive Register where
  /-- A general purpose register, of one byte. -/
  | v (n : Fin registerCount)
  /-- The index register, of two bytes. -/
  | i
  /-- The instruction pointer, of two bytes. -/
  | ip
  deriving DecidableEq, Repr

namespace Register

/-- The number of a register. -/
def number : Register → Nat
  | .v n => n
  | .i => registerCount
  | .ip => registerCount + 1

/-- The register with a number. -/
def ofNumber? (k : Nat) : Option Register :=
  if h : k < registerCount then some (.v ⟨k, h⟩)
  else if k = registerCount then some .i
  else if k = registerCount + 1 then some .ip
  else none

theorem ofNumber?_number (r : Register) : ofNumber? r.number = some r := by
  cases r <;> simp [ofNumber?, number]

/-- Every register, by number. -/
def all : List Register :=
  (List.finRange registerCount).map .v ++ [.i, .ip]

/-- The name of a register. -/
def text : Register → Text
  | .v n => 'v' :: Text.decimal n
  | .i => "I".toList
  | .ip => "ip".toList

/-- The register with a name. The number of a byte register is read as a
    plain number of one byte, so it may have leading zeros and one `+`. -/
def ofName? (name : Text) : Option Register :=
  if name = "I".toList ∨ name = "i".toList then some .i
  else if name = "ip".toList ∨ name = "IP".toList then some .ip
  else
    match name with
    | 'v' :: digits =>
        match Text.unsigned? 8 digits with
        | some k => if h : k < registerCount then some (.v ⟨k, h⟩) else none
        | none => none
    | _ => none

end Register

end Chip8

import Chip8.Operand.Basic
import Chip8.Operand.Error
import Chip8.Platform

/-!
# Reading Operands

Operands are read from the words of a line. The number of words is checked
first and then each word in turn, so of several faults the leftmost is the one
reported.

## Main definitions

* `Operands.number`: A number of at most 32 bits.
* `Operands.literal`: A number for a field of a given width.
* `Operands.readRegister`: A register.
* `Layout.read`: All operands of a layout.

## Theorems

* `layout_of_read_eq_ok`: What a layout reads has that layout.
-/

namespace Chip8

namespace Operands

/-- What is taken for a number lies below this: it has 32 bits. -/
abbrev numberLimit : Nat :=
  4294967296

/-- The number that a word denotes. A numeral of more than 32 bits is not
    taken for a number at all. -/
def number (token : Text) : Except OperandError Nat :=
  match Text.numeralBelow? numberLimit token with
  | some value => .ok value
  | none => .error (.invalidLiteral token)

/-- The number that a word denotes, for a field of the given width. -/
def literal (bits : Nat) (token : Text) : Except OperandError Nat :=
  match number token with
  | .ok value => if value >>> bits = 0 then .ok value else .error (.overflow value bits)
  | .error e => .error e

/-- The register that a word names: `v` and a decimal number. A number of more
    than 32 bits is not taken for a register at all. -/
def readRegister (token : Text) : Except OperandError UInt8 :=
  match token with
  | 'v' :: digits =>
      match Text.ofDigitsBelow? numberLimit 10 digits with
      | some value =>
          if value < registerCount then .ok value.toUInt8 else .error (.overflow value 4)
      | none => .error (.invalidRegister token)
  | _ => .error (.invalidRegister token)

end Operands

namespace Layout

open Operands

/-- The operands that a row of words denotes. -/
def read (l : Layout) (tokens : List Text) : Except OperandError Operands :=
  match l, tokens with
  | .bare, [] => .ok .bare
  | .address, [a] => do
      let nnn ← literal 12 a
      return .address nnn.toUInt16
  | .registerByte, [a, b] => do
      let x ← readRegister a
      let nn ← literal 8 b
      return .registerByte x nn.toUInt8
  | .registerPair, [a, b] => do
      let x ← readRegister a
      let y ← readRegister b
      return .registerPair x y
  | .register, [a] => do
      let x ← readRegister a
      return .register x
  | .registerPairNibble, [a, b, c] => do
      let x ← readRegister a
      let y ← readRegister b
      let n ← literal 4 c
      return .registerPairNibble x y n.toUInt8
  | l, tokens => .error (.wrongCount l.arity tokens.length)

/-- Operands that a layout reads are of that layout. -/
theorem layout_of_read_eq_ok {l : Layout} {tokens : List Text} {operands : Operands}
    (h : l.read tokens = .ok operands) : operands.layout = l := by
  unfold read at h
  split at h <;> try simp only [bind, Except.bind, pure, Except.pure] at h
  all_goals
    repeat' split at h
    all_goals
      cases h
      try rfl

end Layout

end Chip8

import Chip8.Text.Numeral

/-!
# Operand Errors

What can be wrong with the operands of an instruction, and how it is said.

## Main definitions

* `OperandError`: The causes.
* `OperandError.message`: Their wording.
-/

namespace Chip8

/-- Why operands cannot be read. -/
inductive OperandError where
  /-- The number of operands is not the one that the layout asks for. -/
  | wrongCount (expected found : Nat)
  /-- A register was expected. -/
  | invalidRegister (token : Text)
  /-- A number was expected. -/
  | invalidLiteral (token : Text)
  /-- The value does not fit a field of this many bits. -/
  | overflow (value bits : Nat)
  deriving DecidableEq, Repr

/-- The wording of an operand error. -/
def OperandError.message : OperandError → String
  | .wrongCount expected found =>
      "expected " ++ toString expected ++ " operand" ++ (if expected = 1 then "" else "s")
        ++ ", found " ++ toString found
  | .invalidRegister token => "`" ++ String.ofList token ++ "` is not a register"
  | .invalidLiteral token => "`" ++ String.ofList token ++ "` is not a numeric literal"
  | .overflow value bits =>
      "operand overflow: 0x" ++ String.ofList (Text.hex value) ++ " does not fit in "
        ++ toString bits ++ " bits"

end Chip8

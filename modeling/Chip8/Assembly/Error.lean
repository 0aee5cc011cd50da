import Chip8.Operand.Error

/-!
# Assembly Errors

What keeps a source text from being assembled. An error names the first line
that is at fault, counted from one.

## Main definitions

* `AssemblyFault`: What is wrong with a line.
* `AssemblyError`: A fault and its line.
* `AssemblyFault.message`, `AssemblyError.message`: Their wording.
-/

namespace Chip8

/-- What is wrong with a line of assembly. -/
inductive AssemblyFault where
  /-- The line starts with a word that names no instruction. -/
  | invalidMnemonic (name : Text)
  /-- The operands do not suit the instruction. -/
  | invalidOperands (mnemonic : Text) (cause : OperandError)
  /-- A data value is wider than a byte. -/
  | byteOverflow (value : Nat)
  /-- A data value is not a number. -/
  | invalidByte (token : Text)
  deriving DecidableEq, Repr

/-- A fault, and the number of the line that has it. -/
structure AssemblyError where
  line : Nat
  fault : AssemblyFault
  deriving DecidableEq, Repr

/-- The wording of a fault. -/
def AssemblyFault.message : AssemblyFault → String
  | .invalidMnemonic name => "invalid mnemonic `" ++ String.ofList name ++ "`"
  | .invalidOperands mnemonic cause =>
      "invalid operands to instruction `" ++ String.ofList mnemonic ++ "`: " ++ cause.message
  | .byteOverflow value =>
      "number passed overflows byte: 0x" ++ String.ofList (Text.hex value)
  | .invalidByte token => "`" ++ String.ofList token ++ "` is not a byte literal"

/-- The wording of an assembly error, with its line. -/
def AssemblyError.message (e : AssemblyError) : String :=
  "line " ++ toString e.line ++ ": " ++ e.fault.message

end Chip8

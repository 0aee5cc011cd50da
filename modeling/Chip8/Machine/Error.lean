import Chip8.Register

/-!
# Execution Errors

Why the machine refuses an operation, and how it is said. A refused operation
leaves the machine as it was.

## Main definitions

* `ExecutionError`: The causes.
* `ExecutionError.message`: Their wording.
-/

namespace Chip8

/-- Why the machine refuses an operation. -/
inductive ExecutionError where
  /-- There is no program to run. -/
  | notLoaded
  /-- The word at an address is no instruction. -/
  | undecodable (address word : UInt16)
  /-- The last address of an access lies beyond memory. -/
  | outOfBounds (address : Nat)
  /-- No register has this number. -/
  | invalidRegister (number : Nat)
  /-- The value is too wide for the register. -/
  | registerOverflow (register : Register) (value : UInt16)
  deriving DecidableEq, Repr

/-- The wording of an execution error. -/
def ExecutionError.message : ExecutionError → String
  | .notLoaded => "no program is loaded"
  | .undecodable address word =>
      "cannot decode instruction 0x" ++ String.ofList (Text.paddedHex 4 word.toNat)
        ++ " at address 0x" ++ String.ofList (Text.paddedHex 4 address.toNat)
  | .outOfBounds address =>
      "memory access out of bounds at 0x" ++ String.ofList (Text.hex address)
  | .invalidRegister number => "no register with index " ++ toString number
  | .registerOverflow register value =>
      "value 0x" ++ String.ofList (Text.hex value.toNat) ++ " does not fit register "
        ++ String.ofList register.text

end Chip8

import Chip8.Proofs.Machine.Control
import Chip8.Proofs.Machine.Operation
import Chip8.Proofs.Result

/-!
# Refused Requests

A machine refuses what it cannot do: a step without a program or onto a word
that is no instruction, a block that lies beyond memory, a program that does
not fit, a register that does not exist or is too narrow. Whoever asked is
told why, and may go on as if nothing had been asked. No part of the machine
is changed by a request that is refused, neither memory nor the random source,
and not the instruction pointer of a step that failed halfway.

For a history this means that its refused operations can be struck out.

## Main definitions

* `Operation.refusal?`: Why an operation is refused, if it is.
* `Machine.accepted`: A history without its refused operations.
* `Request`: What can be asked of a machine.
* `Request.perform`: The answer to a request, and the machine behind it.

## Theorems

* `Operation.apply_of_refusal`: A refused operation does nothing.
* `after_accepted`: Refused operations leave no trace in a history.
* `perform_of_refused`: A refused request does nothing.
-/

namespace Chip8

/-- Why an operation is refused, if it is. Those that are not listed never
    are. -/
def Operation.refusal? (m : Machine) : Operation → Option ExecutionError
  | .load program => error? (m.load program).1
  | .step => error? m.step.1
  | .setRegister number value => error? (m.setRegister number value).1
  | .writeByte address value => error? (m.writeByte address value).1
  | .unload | .tick | .press _ | .release _ | .setPixel .. => none

namespace Machine

/-- A machine that refuses a program does not let go of the one it has. -/
theorem load_error {program : List UInt8} {m m' : Machine} {e : ExecutionError}
    (h : m.load program = (.error e, m')) : m' = m := by
  unfold load at h
  split at h
  · cases h
  · cases h
    rfl

theorem setRegister_error {number : Nat} {value : UInt16} {m m' : Machine} {e : ExecutionError}
    (h : m.setRegister number value = (.error e, m')) : m' = m := by
  unfold setRegister at h
  split at h
  · split at h
    · cases h
    · cases h
      rfl
  · cases h
  · cases h
  · cases h
    rfl

theorem writeByte_error {address : Nat} {value : UInt8} {m m' : Machine} {e : ExecutionError}
    (h : m.writeByte address value = (.error e, m')) : m' = m := by
  unfold writeByte at h
  split at h
  · cases h
  · cases h
    rfl

end Machine

/-- A refused operation does nothing. -/
theorem Operation.apply_of_refusal {op : Operation} {m : Machine} {e : ExecutionError}
    (h : op.refusal? m = some e) : op.apply m = m := by
  cases op with
  | load program => exact Machine.load_error (Prod.ext (eq_error_of_error? h) rfl)
  | step => exact Machine.step_error (Prod.ext (eq_error_of_error? h) rfl)
  | setRegister number value =>
      exact Machine.setRegister_error (Prod.ext (eq_error_of_error? h) rfl)
  | writeByte address value =>
      exact Machine.writeByte_error (Prod.ext (eq_error_of_error? h) rfl)
  | unload | tick | press | release | setPixel => exact nomatch h

namespace Machine

/-- A history without the operations that are refused along its way. -/
def accepted (m : Machine) : List Operation → List Operation
  | [] => []
  | op :: history =>
      match op.refusal? m with
      | some _ => accepted m history
      | none => op :: accepted (op.apply m) history

/-- Refused operations leave no trace in a history. -/
theorem after_accepted (m : Machine) (history : List Operation) :
    m.after (m.accepted history) = m.after history := by
  induction history generalizing m with
  | nil => rfl
  | cons op history ih =>
      rw [accepted, after_cons]
      split
      · rename_i e hrefused
        rw [ih, Operation.apply_of_refusal hrefused]
      · rw [after_cons, ih]

end Machine

/-! ## Requests -/

/-- What can be asked of a machine. -/
inductive Request where
  /-- An operation on the machine. -/
  | operate (op : Operation)
  /-- A step that a frontend is told of. -/
  | stepWith
  | fetch
  | register (number : Nat)
  | readByte (address : Nat)
  deriving DecidableEq, Repr

section Perform

variable {σ : Type}

/-- Why a request is refused, if it is, and the machine behind it. A request
    that only looks at the machine hands it back. -/
def Request.perform (fe : Frontend σ) (shown : σ) (m : Machine) :
    Request → Option ExecutionError × Machine
  | .operate op => (op.refusal? m, op.apply m)
  | .stepWith =>
      match m.stepWith fe shown with
      | (result, m', _) => (error? result, m')
  | .fetch => (error? m.fetch, m)
  | .register number => (error? (m.register number), m)
  | .readByte address => (error? (m.readByte address), m)

namespace Machine

/-- A request that is refused leaves the machine as it was, whatever state the
    machine is in. -/
theorem perform_of_refused (fe : Frontend σ) (shown : σ) (m : Machine) (request : Request)
    {e : ExecutionError} (h : (request.perform fe shown m).1 = some e) :
    (request.perform fe shown m).2 = m := by
  cases request with
  | operate op => exact Operation.apply_of_refusal h
  | stepWith =>
      rcases stepWith_eq fe m shown with ⟨shown', heq⟩
      simp only [Request.perform, heq] at h ⊢
      exact step_error (Prod.ext (eq_error_of_error? h) rfl)
  | fetch | register | readByte => rfl

/-- A step that would store two registers at the very end of memory, where
    there is room for one. -/
theorem perform_regdump_refused :
    (Request.stepWith.perform Frontend.silent ()
        ((idle 0).after [.load [0xAF, 0xFF, 0xF1, 0x55], .step])).1
          = some (.outOfBounds 0x1000) ∧
      (Request.stepWith.perform Frontend.silent ()
        ((idle 0).after [.load [0xAF, 0xFF, 0xF1, 0x55], .step])).2
          = (idle 0).after [.load [0xAF, 0xFF, 0xF1, 0x55], .step] :=
  have hrefused : (Request.stepWith.perform Frontend.silent ()
      ((idle 0).after [.load [0xAF, 0xFF, 0xF1, 0x55], .step])).1
        = some (.outOfBounds 0x1000) := by decide +kernel
  ⟨hrefused, perform_of_refused Frontend.silent () _ .stepWith hrefused⟩

end Machine

end Perform

end Chip8

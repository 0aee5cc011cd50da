import Chip8.Proofs.Machine.Control
import Chip8.Proofs.Machine.Fetch
import Chip8.Proofs.Machine.Operation
import Mathlib.Control.Monad.Basic

/-!
# Calls and Their Returns

A call puts its return address on the stack. From then on the stack has a
frame at its bottom, the return address and all that was there before the
call, and calls inside of the subroutine pile up on top of it. Nothing reaches
below the top of the stack, so the frame stays as it is until a return finds
nothing on top of it. That return is the one that belongs to the call: it goes
to the address behind the call, and leaves the stack as the call found it.

Whoever holds the machine may interfere between the steps, with the registers,
the memory, the instruction pointer and even by taking the program away. None
of this reaches the stack. Only loading a program empties it.

## Main definitions

* `Operation.KeepsStack`: The operations that do not start a program over.
* `Machine.LeavesCall`: The next step is the return that belongs to a call.
* `Machine.StaysAbove`: The stack stays deeper than it was.

## Theorems

* `step_frame`: A step keeps a frame, or it is the return from it.
* `apply_frame`: So does every operation that does not start a program over.
* `after_frame`: A history keeps a frame as long as the stack stays above it.
* `call_until_return`: A call and the return that belongs to it.
-/

namespace Chip8

/-- An operation that does not start a program over. -/
def Operation.KeepsStack : Operation → Prop
  | .load _ => False
  | .unload | .step | .tick | .press _ | .release _ | .setRegister .. | .writeByte ..
  | .setPixel .. => True

instance : DecidablePred Operation.KeepsStack
  | .load _ => .isFalse id
  | .unload | .step | .tick | .press _ | .release _ | .setRegister .. | .writeByte ..
  | .setPixel .. => .isTrue trivial

namespace Machine

/-- The next step is the return that belongs to a call, with this return
    address and this stack below it. -/
structure LeavesCall (address : UInt16) (below : List UInt16) (m : Machine) : Prop where
  fetch_ret : ∃ ins, m.fetch = .ok ins ∧ ins.op = .ret
  stack_eq : m.stack = address :: below
  ip_step : m.step.2.ip = address
  stack_step : m.step.2.stack = below

variable {m called : Machine} {address : UInt16} {below : List UInt16}

/-- A step keeps a frame at the bottom of the stack, or it is the return from
    it. -/
theorem step_frame (h : address :: below <:+ m.stack) :
    address :: below <:+ m.step.2.stack ∨ LeavesCall address below m := by
  rcases hstep : m.step with ⟨result, m'⟩
  cases result with
  | error e => exact Or.inl (step_error hstep ▸ h)
  | ok done =>
      rcases done with ⟨ins, effect⟩
      rcases step_ok hstep with ⟨hfetch, hexecute⟩
      cases execute_flow hexecute with
      | onward _ hstack => exact Or.inl (hstack ▸ h)
      | branch _ _ hstack => exact Or.inl (hstack ▸ h)
      | stay _ hm => exact Or.inl (hm ▸ h)
      | enter _ _ hstack =>
          exact Or.inl (hstack ▸ h.trans (List.suffix_cons (m.ip + 2) m.stack))
      | leave hop hstack =>
          -- A return takes the top of the stack, which is on the frame or the
          -- frame's own.
          rw [hstack] at h
          rcases List.suffix_cons_iff.mp h with heq | hbelow
          · rcases List.cons.inj heq with ⟨rfl, rfl⟩
            refine Or.inr ⟨⟨ins, hfetch, hop⟩, hstack, ?_, ?_⟩ <;> rw [hstep]
          · exact Or.inl hbelow

-- Whoever reaches into the machine does not reach the stack.
theorem stack_apply {op : Operation} (hop : op.KeepsStack) (hstep : op ≠ .step) (m : Machine) :
    (op.apply m).stack = m.stack := by
  -- What is written from outside goes to registers or to memory.
  cases op with
  | load => exact hop.elim
  | step => exact absurd rfl hstep
  | setRegister number value =>
      rcases exists_setRegister_eq number value m with ⟨v, i, ip, heq⟩
      rw [Operation.apply, heq]
  | writeByte address value =>
      rcases exists_writeByte_eq address value m with ⟨memory, heq⟩
      rw [Operation.apply, heq]
  | unload | tick | press | release | setPixel => rfl

/-- An operation that does not start a program over keeps a frame, or it is a
    step that is the return from it. -/
theorem apply_frame {op : Operation} (hop : op.KeepsStack) (h : address :: below <:+ m.stack) :
    address :: below <:+ (op.apply m).stack ∨ op = .step ∧ LeavesCall address below m := by
  by_cases hstep : op = .step
  · subst hstep
    rcases step_frame h with hkept | hleaves
    · exact Or.inl hkept
    · exact Or.inr ⟨rfl, hleaves⟩
  · rw [stack_apply hop hstep]
    exact Or.inl h

/-- The stack is deeper than this at the start of a history and behind each of
    its operations. -/
def StaysAbove (depth : Nat) (m : Machine) (history : List Operation) : Prop :=
  ∀ k ≤ history.length, depth < (m.after (history.take k)).stack.length

instance (depth : Nat) (m : Machine) (history : List Operation) :
    Decidable (StaysAbove depth m history) :=
  inferInstanceAs (Decidable (∀ k ≤ history.length, _))

theorem StaysAbove.tail {depth : Nat} {op : Operation} {history : List Operation}
    (h : StaysAbove depth m (op :: history)) : StaysAbove depth (op.apply m) history :=
  fun k hk => h (k + 1) (Nat.succ_le_succ hk)

/-- A history that does not start a program over keeps a frame, as long as the
    stack stays above what is below the frame. -/
theorem after_frame {history : List Operation} (hkeeps : ∀ op ∈ history, op.KeepsStack)
    (hdeep : StaysAbove below.length m history) (h : address :: below <:+ m.stack) :
    address :: below <:+ (m.after history).stack := by
  induction history generalizing m with
  | nil => exact h
  | cons op history ih =>
      rw [after_cons]
      rcases apply_frame (hkeeps op List.mem_cons_self) h with hkept | ⟨rfl, hleaves⟩
      · exact ih (fun op hop => hkeeps op (List.mem_cons_of_mem _ hop)) hdeep.tail hkept
      · -- Behind the return the stack is no deeper than what is below.
        have hshort := hdeep.tail 0 (Nat.zero_le _)
        rw [List.take_zero, after_nil, Operation.apply, hleaves.stack_step] at hshort
        exact absurd hshort (Nat.lt_irrefl _)

theorem stack_step_of_call {ins : Instruction} {effect : Effect}
    (h : m.step = (.ok (ins, effect), called)) (hcall : ins.op.isCall = true) :
    called.stack = (m.ip + 2) :: m.stack := by
  have hexecute := (step_ok h).2
  rw [execute_call hcall] at hexecute
  cases hexecute
  rfl

/-- A call and the return that belongs to it. The call puts the address behind
    it on the stack. As long as the stack stays deeper than the call found it,
    that address and the stack of before lie at the bottom of it; and what
    brings it back to that depth is a step that executes a return, goes to the
    address behind the call and leaves the stack as the call found it. This
    holds along every history that does not start a program over. -/
theorem call_until_return {ins : Instruction} {effect : Effect}
    (h : m.step = (.ok (ins, effect), called)) (hcall : ins.op.isCall = true)
    {history : List Operation} (hkeeps : ∀ op ∈ history, op.KeepsStack)
    (hdeep : StaysAbove m.stack.length called history) :
    (m.ip + 2).toNat = m.ip.toNat + 2 ∧
      called.stack = (m.ip + 2) :: m.stack ∧
      (m.ip + 2) :: m.stack <:+ (called.after history).stack ∧
      ∀ op : Operation, op.KeepsStack →
        (called.after (history ++ [op])).stack.length ≤ m.stack.length →
          op = .step ∧ (∃ ins, (called.after history).fetch = .ok ins ∧ ins.op = .ret) ∧
            (called.after (history ++ [op])).ip = m.ip + 2 ∧
            (called.after (history ++ [op])).stack = m.stack := by
  have hstack := stack_step_of_call h hcall
  have hopen : (m.ip + 2) :: m.stack <:+ called.stack := ⟨[], hstack.symm⟩
  have hframe := after_frame hkeeps hdeep hopen
  refine ⟨toNat_ip_add_two (step_ok h).1, hstack, hframe, ?_⟩
  intro op hop hshort
  rw [after_append, after_cons, after_nil] at hshort ⊢
  rcases apply_frame hop hframe with hkept | ⟨rfl, hleaves⟩
  · -- A frame is deeper than the stack below it.
    exact absurd hkept.length_le (Nat.not_le.mpr (Nat.lt_succ_of_le hshort))
  · exact ⟨rfl, hleaves.fetch_ret, hleaves.ip_step, hleaves.stack_step⟩

/-- A machine in front of a call, into a subroutine that calls another one. -/
def beforeNestedCalls : Machine :=
  (idle 0).after [.load [0x02, 0x04, 0x00, 0xEE, 0x22, 0x06, 0x00, 0xEE]]

/-- The inner call and the return from it, while a key is pressed, a byte is
    written and the instruction pointer is moved to the return at `0x202`. The
    next step is the return that belongs to the outer call. -/
theorem call_until_return_nested :
    let history : List Operation :=
      [.press 3, .step, .writeByte 0x300 7, .setRegister 17 0x202, .step, .tick]
    StaysAbove beforeNestedCalls.stack.length beforeNestedCalls.step.2 history ∧
      (beforeNestedCalls.step.2.after (history ++ [.step])).ip = 0x202 ∧
      (beforeNestedCalls.step.2.after (history ++ [.step])).stack = [] := by
  intro history
  have hresult : beforeNestedCalls.step.1 = .ok (⟨.call, .address 0x204, rfl⟩, .quiet) := by
    decide +kernel
  have hcall : beforeNestedCalls.step
      = (.ok (⟨.call, .address 0x204, rfl⟩, .quiet), beforeNestedCalls.step.2) := by
    rw [← hresult, Prod.eta]
  have hdeep : StaysAbove beforeNestedCalls.stack.length beforeNestedCalls.step.2 history := by
    decide +kernel
  -- The history ends in front of the return, which takes the stack below the depth of the call.
  have hreturn := (call_until_return hcall rfl (by decide) hdeep).2.2.2 .step trivial
    (by decide +kernel)
  have hip : beforeNestedCalls.ip + 2 = 0x202 := rfl
  have hstack : beforeNestedCalls.stack = [] := rfl
  rw [hip, hstack] at hreturn
  exact ⟨hdeep, hreturn.2.2⟩

end Machine

end Chip8

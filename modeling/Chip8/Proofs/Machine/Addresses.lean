import Chip8.Proofs.Machine.CallStack
import Chip8.Proofs.Machine.Footprint

/-!
# Addresses Do Not Wrap Around

The instruction pointer is a machine word, and whatever is added to it is added
modulo its size. Nothing ever comes of that. An instruction that has been
fetched lies in memory as a whole, so there is room for a few bytes behind it,
and the largest address in its operands, with the largest byte on top, stays
far from the end of what a word can hold. What an executed instruction sends
the instruction pointer to is therefore the same whether it is reckoned with
words or with natural numbers.

One destination is not reckoned but remembered. A return goes wherever the top
of the stack says, and what it says was put there by some call long before. The
bound on destinations is carried along a run by a bound on return addresses:
they all lie behind a call that was fetched, two bytes above the bottom of
memory and no further than its end. A debugger may put anything at all into the
instruction pointer, but it cannot make the machine fetch there.

## Main definitions

* `Instruction.destinations`: Where an instruction leads, in natural numbers.
* `Machine.ReturnsInside`: Every return address lies behind a word of memory.

## Theorems

* `step_mem_destinations`: A step leads to one of the destinations.
* `destination_le`: The largest destination.
* `ReturnsInside.apply`: Every operation keeps the return addresses inside.
* `ip_step_unwrapped`: No address wraps around in any history of a machine.
-/

namespace Chip8

/-- The addresses that an instruction may lead to on a machine, reckoned with
    natural numbers. A return on an empty stack stays where it is. -/
def Instruction.destinations (ins : Instruction) (m : Machine) : List Nat :=
  match ins.op with
  | .jmp | .call | .callptr => [ins.operands.nnn.toNat]
  | .skeqi | .skneqi | .skeqr | .skneqr | .skeqkey | .skneqkey => [m.ip.toNat + 2, m.ip.toNat + 4]
  | .ret => [(m.stack.headD m.ip).toNat]
  | .brelv0 => [(m.reg 0).toNat + ins.operands.nnn.toNat]
  | .gkey => [m.ip.toNat, m.ip.toNat + 2]
  | _ => [m.ip.toNat + 2]

theorem Operands.nnn_lt_of_fits {o : Operands} (h : o.Fits) : o.nnn.toNat < 0x1000 := by
  cases o with
  | address nnn => exact UInt16.lt_iff_toNat_lt.mp h
  | bare | registerByte | registerPair | register | registerPairNibble => exact Nat.zero_lt_succ _

namespace Machine

variable {m m' : Machine} {ins : Instruction} {effect : Effect}

/-! ## One step -/

-- The static successors are among the destinations, except that a call goes to
-- the word behind it only when it is returned from.
theorem map_successors_subset (hfetch : m.fetch = .ok ins) (hop : ins.op.isCall = false) :
    (ins.successors m.ip).map UInt16.toNat ⊆ ins.destinations m := by
  -- The instruction lies in memory, so neither address behind it wraps.
  have hnext := toNat_ip_add_two hfetch
  have hskip := toNat_ip_add_four hfetch
  cases hcase : ins.op with
  | call | callptr =>
      rw [hcase] at hop
      exact absurd hop (by decide)
  | ret | brelv0 =>
      rw [Instruction.successors, hcase]
      exact List.nil_subset _
  | gkey =>
      rw [Instruction.successors, Instruction.destinations, hcase, List.map_singleton, hnext]
      exact List.subset_cons_self _ _
  | skeqi | skneqi | skeqr | skneqr | skeqkey | skneqkey =>
      rw [Instruction.successors, Instruction.destinations, hcase, List.map_cons,
        List.map_singleton, hnext, hskip]
      exact List.Subset.refl _
  | jmp =>
      rw [Instruction.successors, Instruction.destinations, hcase]
      exact List.Subset.refl _
  | _ =>
      rw [Instruction.successors, Instruction.destinations, hcase, List.map_singleton, hnext]
      exact List.Subset.refl _

/-- A step leads to one of the destinations of its instruction. -/
theorem step_mem_destinations (h : m.step = (.ok (ins, effect), m')) :
    m'.ip.toNat ∈ ins.destinations m := by
  rcases step_ok h with ⟨hfetch, hexecute⟩
  -- The way of control does not say that a call goes to its target.
  cases hop : ins.op.isCall with
  | true =>
      rw [execute_call hop] at hexecute
      cases hexecute
      cases hcase : ins.op with
      | call | callptr =>
          rw [Instruction.destinations, hcase]
          exact List.mem_singleton_self _
      | _ =>
          rw [hcase] at hop
          exact absurd hop (by decide)
  | false =>
      cases execute_flow hexecute with
      | onward hip _ => exact map_successors_subset hfetch hop (List.mem_map_of_mem hip)
      | enter hcall _ _ => exact absurd hcall (Bool.eq_false_iff.mp hop)
      | leave hret hstack =>
          rw [Instruction.destinations, hret, hstack]
          exact List.mem_singleton_self _
      | stay hstay hm =>
          rcases hstay with hgkey | ⟨hret, hempty⟩
          · rw [Instruction.destinations, hgkey, hm]
            exact List.mem_cons_self
          · rw [Instruction.destinations, hret, hempty, hm]
            exact List.mem_singleton_self _
      | branch hbranch hip _ =>
          have hbyte := (m.reg 0).toNat_lt
          have haddress := Operands.nnn_lt_of_fits (fits_of_fetch hfetch)
          rw [Instruction.destinations, hbranch, hip, UInt16.toNat_add, UInt8.toNat_toUInt16,
            Nat.mod_eq_of_lt (by omega)]
          exact List.mem_singleton_self _

/-- Every return address lies behind a word of memory. -/
def ReturnsInside (m : Machine) : Prop :=
  ∀ address ∈ m.stack, 2 ≤ address.toNat ∧ address.toNat ≤ memorySize

/-- The largest destination is that of a jump relative to `v0`, with the largest
    byte and the largest address. -/
theorem destination_le (h : m.ReturnsInside) (hfetch : m.fetch = .ok ins) {address : Nat}
    (hmem : address ∈ ins.destinations m) : address ≤ 0x10FE := by
  have hip : m.ip.toNat + 2 ≤ 0x1000 := ip_add_two_le_of_fetch hfetch
  have hnnn := Operands.nnn_lt_of_fits (fits_of_fetch hfetch)
  have hbyte := (m.reg 0).toNat_lt
  cases hop : ins.op with
  | jmp | call | callptr | brelv0 =>
      rw [Instruction.destinations, hop] at hmem
      rw [List.mem_singleton.mp hmem]
      omega
  | skeqi | skneqi | skeqr | skneqr | skeqkey | skneqkey | gkey =>
      rw [Instruction.destinations, hop] at hmem
      simp only [List.mem_cons, List.not_mem_nil, or_false] at hmem
      omega
  | ret =>
      -- On an empty stack, a return stays where it is.
      rw [Instruction.destinations, hop] at hmem
      rw [List.mem_singleton.mp hmem]
      cases hstack : m.stack with
      | nil =>
          rw [List.headD_nil]
          omega
      | cons top below =>
          have htop : top.toNat ≤ 0x1000 := (h top (hstack ▸ List.mem_cons_self)).2
          rw [List.headD_cons]
          omega
  | _ =>
      rw [Instruction.destinations, hop] at hmem
      rw [List.mem_singleton.mp hmem]
      omega

/-! ## Whole histories -/

/-- A step keeps the return addresses inside. The only address that it may add
    is the one behind the call that it has fetched. -/
theorem ReturnsInside.step (h : m.ReturnsInside) : m.step.2.ReturnsInside := by
  rcases hstep : m.step with ⟨result, m'⟩
  cases result with
  | error e => exact step_error hstep ▸ h
  | ok done =>
      rcases done with ⟨ins, effect⟩
      rcases step_ok hstep with ⟨hfetch, hexecute⟩
      intro address hmem
      -- The stack is the same, or an address is put on it, or one is taken off.
      rcases stack_of_flow (execute_flow hexecute) with hsame | ⟨_, hpushed⟩ | ⟨_, top, hpopped⟩
      · exact h address (hsame ▸ hmem)
      · rw [hpushed] at hmem
        rcases List.mem_cons.mp hmem with rfl | hold
        · have hip := ip_add_two_le_of_fetch hfetch
          rw [toNat_ip_add_two hfetch]
          exact ⟨Nat.le_add_left 2 _, hip⟩
        · exact h address hold
      · exact h address (hpopped ▸ List.mem_cons_of_mem top hmem)

/-- So does every operation, whatever it puts into the registers and into
    memory. -/
theorem ReturnsInside.apply (h : m.ReturnsInside) (op : Operation) :
    (op.apply m).ReturnsInside := by
  by_cases hstep : op = .step
  · rw [hstep]
    exact h.step
  · by_cases hkeeps : op.KeepsStack
    · intro address hmem
      rw [stack_apply hkeeps hstep] at hmem
      exact h address hmem
    · cases op with
      | load program =>
          rw [Operation.apply, load]
          split
          · exact fun address hmem => absurd hmem List.not_mem_nil
          · exact h
      | _ => exact absurd trivial hkeeps

theorem ReturnsInside.after (h : m.ReturnsInside) (history : List Operation) :
    (m.after history).ReturnsInside := by
  induction history generalizing m with
  | nil => exact h
  | cons op history ih => exact ih (h.apply op)

/-- No address wraps around in any history of a machine. Whatever has been
    loaded, executed and reached into from outside, every return address lies
    two bytes above the bottom of memory or higher, and not beyond its end; and
    a step that succeeds moves the instruction pointer to one of the
    destinations of its instruction, as reckoned with natural numbers. None of
    them is larger than `0x10FE`. A call, too, puts the exact address behind it
    on the stack. -/
theorem ip_step_unwrapped (seed : UInt64) (history : List Operation) :
    (∀ address ∈ ((idle seed).after history).stack,
      2 ≤ address.toNat ∧ address.toNat ≤ 0x1000) ∧
    ∀ ins effect m', ((idle seed).after history).step = (.ok (ins, effect), m') →
      m'.ip.toNat ∈ ins.destinations ((idle seed).after history) ∧ m'.ip.toNat ≤ 0x10FE ∧
        (ins.op.isCall = true → m'.stack.map UInt16.toNat =
          (((idle seed).after history).ip.toNat + 2) ::
            ((idle seed).after history).stack.map UInt16.toNat) := by
  have hnew : (idle seed).ReturnsInside := fun address hmem => absurd hmem List.not_mem_nil
  have hinside := hnew.after history
  refine ⟨hinside, ?_⟩
  intro ins effect m' hstep
  have hfetch := (step_ok hstep).1
  have hmem := step_mem_destinations hstep
  refine ⟨hmem, destination_le hinside hfetch hmem, ?_⟩
  intro hcall
  rw [stack_step_of_call hstep hcall, List.map_cons, toNat_ip_add_two hfetch]

/-- To the farthest jump, by way of a call from the last word of memory. -/
def toFarthestJump : List Operation :=
  [.load [0x60, 0xFF, 0xBF, 0xFF], .step, .writeByte 0xFFE 0x22, .writeByte 0xFFF 0x02,
    .setRegister 17 0xFFE, .step]

/-- The call is to return to the end of memory, and the jump leads to the largest
    of all destinations. -/
theorem ip_step_unwrapped_farthest :
    let m := (idle 0).after toFarthestJump
    m.step.1 = .ok (⟨.brelv0, .address 0xFFF, rfl⟩, .quiet) ∧ m.stack = [0x1000] ∧
      m.step.2.ip.toNat = 0xFF + 0xFFF := by
  intro m
  have hrun : m.step.1 = .ok (⟨.brelv0, .address 0xFFF, rfl⟩, .quiet) ∧ m.stack = [0x1000] ∧
      m.reg 0 = 0xFF := by decide +kernel
  rcases hrun with ⟨hresult, hstack, hbyte⟩
  have hstep : m.step = (.ok (⟨.brelv0, .address 0xFFF, rfl⟩, .quiet), m.step.2) := by
    rw [← hresult, Prod.eta]
  -- A jump relative to `v0` has a single destination.
  have hmem := ((ip_step_unwrapped 0 toFarthestJump).2 _ _ _ hstep).1
  rw [Instruction.destinations, List.mem_singleton] at hmem
  refine ⟨hresult, hstack, hmem.trans ?_⟩
  rw [hbyte]
  rfl

end Machine

end Chip8

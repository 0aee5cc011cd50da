import Chip8.Proofs.Listing.Coverage
import Chip8.Proofs.Machine.Control
import Chip8.Proofs.Machine.Fetch
import Chip8.Proofs.Machine.Operation

/-!
# Runs Stay on the Covered Code

The search for code looks at the bytes of a program, and a run looks at
memory, registers and a stack. Here the two are brought together: as long as a
run executes words of the program, leaves the program as it was loaded, and
takes no jump relative to a register, it executes nothing but words that the
search has reached.

The instruction pointer alone is not enough to carry this along a run, because
a return goes to an address that was put aside long before. The invariant is
therefore about the instruction pointer and every address on the stack, and a
return only takes from what is covered already. An address comes onto the
stack with a call, whose fall-through is one of its successors.

## Main definitions

* `Within`: A whole word of a program lies at an address.
* `Operation.KeepsCourse`: The operations that do not redirect a run.
* `StaysOn`: A step that stays on an unchanged program.
* `OnCode`: The invariant.

## Theorems

* `OnCode.step`: A step that stays on the program preserves the invariant.
* `OnCode.apply`: So does every operation that does not redirect the run.
* `OnCode.after`: A whole history preserves it.
* `ip_mem_codeOffsets`: A run of a program stays on the covered code.
-/

namespace Chip8

/-- An operation that leaves the instruction pointer and the program alone, or
    is a step. The instruction pointer itself is a register with a higher
    number than the others. -/
def Operation.KeepsCourse : Operation → Prop
  | .step | .tick | .press _ | .release _ => True
  | .setRegister number _ => number ≤ registerCount
  | .load _ | .unload | .writeByte .. | .setPixel .. => False

instance : DecidablePred Operation.KeepsCourse
  | .step | .tick | .press _ | .release _ => .isTrue trivial
  | .setRegister number _ => inferInstanceAs (Decidable (number ≤ registerCount))
  | .load _ | .unload | .writeByte .. | .setPixel .. => .isFalse id

theorem Register.number_of_ofNumber? {k : Nat} {r : Register} (h : ofNumber? k = some r) :
    r.number = k := by
  unfold ofNumber? at h
  split at h
  · cases h
    rfl
  · split at h
    · rename_i heq
      cases h
      exact heq.symm
    · split at h
      · rename_i heq
        cases h
        exact heq.symm
      · exact nomatch h

namespace Machine

/-- A whole word of the program lies at this address. -/
def Within (program : List UInt8) (address : UInt16) : Prop :=
  programStart ≤ address.toNat ∧ address.toNat + 1 < programStart + program.length

instance (program : List UInt8) (address : UInt16) : Decidable (Within program address) :=
  inferInstanceAs (Decidable (_ ∧ _))

/-- A step from this machine, if it succeeds, executes a word of the program,
    does not go where a register says, and leaves the bytes of the program as
    they are. -/
def StaysOn (program : List UInt8) (m : Machine) : Prop :=
  match m.step with
  | (.error _, _) => True
  | (.ok (ins, _), m') =>
      Within program m.ip ∧ ins.op ≠ .brelv0 ∧
        ∀ k < program.length, m'.memory[programStart + k]? = m.memory[programStart + k]?

instance (program : List UInt8) (m : Machine) : Decidable (StaysOn program m) :=
  match hstep : m.step with
  | (.error _, _) => .isTrue (by rw [StaysOn, hstep]; trivial)
  | (.ok (ins, _), m') =>
      decidable_of_iff (Within program m.ip ∧ ins.op ≠ .brelv0 ∧
        ∀ k < program.length, m'.memory[programStart + k]? = m.memory[programStart + k]?)
        (by rw [StaysOn, hstep])

/-- The program is in memory, and the search has reached every word of it that
    the machine executes next or that it may return to. -/
structure OnCode (program : List UInt8) (m : Machine) : Prop where
  holds : m.memory.Holds program
  covered : ∀ address ∈ m.ip :: m.stack, Within program address →
    address.toNat - programStart ∈ Coverage.codeOffsets program

variable {program : List UInt8} {m m' : Machine}

-- What an instruction of the program leads to, as the search sees it.
theorem leads_of_mem_successors (hholds : m.memory.Holds program) {ins : Instruction}
    (hfetch : m.fetch = .ok ins) (hip : Within program m.ip) {address : UInt16}
    (hsucc : address ∈ ins.successors m.ip) (haddress : Within program address) :
    Coverage.Leads program.toArray (m.ip.toNat - programStart)
      (address.toNat - programStart) := by
  rcases hip with ⟨hlow, hhigh⟩
  rcases haddress with ⟨hlow', hhigh'⟩
  rcases exists_bytes_of_fetch hfetch with ⟨hi, lo, hhi, hlo, hdecode⟩
  -- The two bytes that the machine reads are bytes of the program.
  have hback : programStart + (m.ip.toNat - programStart) = m.ip.toNat :=
    Nat.add_sub_cancel' hlow
  have hhi' : program[m.ip.toNat - programStart]? = some hi := by
    rw [← hholds _ (by omega), hback, hhi]
  have hlo' : program[m.ip.toNat - programStart + 1]? = some lo := by
    rw [← hholds _ (by omega), ← Nat.add_assoc, hback, hlo]
  refine ⟨wordOfBytes hi lo, ?_, ?_, ?_⟩
  · rcases List.getElem?_eq_some_iff.mp hhi' with ⟨_, hhi'⟩
    rcases List.getElem?_eq_some_iff.mp hlo' with ⟨hlt, hlo'⟩
    rw [Coverage.wordAt?, dif_pos (by rw [List.size_toArray]; exact hlt)]
    simp only [List.getElem_toArray, hhi', hlo']
  · have hip : (m.ip.toNat - programStart + programStart).toUInt16 = m.ip := by
      rw [Nat.sub_add_cancel hlow]
      exact UInt16.ofNat_toNat
    rw [Coverage.targets, hdecode]
    simp only [hip]
    exact List.mem_filterMap.mpr ⟨address, hsucc, if_pos hlow'⟩
  · rw [List.size_toArray]
    omega

-- The invariant after a step, from what the step does to control.
theorem OnCode.of_flow (h : OnCode program m) {ins : Instruction} (hfetch : m.fetch = .ok ins)
    (hip : Within program m.ip) (hop : ins.op ≠ .brelv0) (hholds : m'.memory.Holds program)
    (hflow : Flow ins m m') : OnCode program m' := by
  have hsucc : ∀ address ∈ ins.successors m.ip, Within program address →
      address.toNat - programStart ∈ Coverage.codeOffsets program := by
    intro address hmem hin
    exact Coverage.mem_codeOffsets_of_leads (h.covered _ List.mem_cons_self hip)
      (leads_of_mem_successors h.holds hfetch hip hmem hin)
  refine ⟨hholds, ?_⟩
  intro address hmem hin
  cases hflow with
  | onward hnext hstack =>
      rcases List.mem_cons.mp hmem with heq | htail
      · exact hsucc address (heq ▸ hnext) hin
      · exact h.covered address (List.mem_cons_of_mem _ (hstack ▸ htail)) hin
  | enter hcall hnext hstack =>
      -- The target and the fall-through of a call are both successors of it.
      have hboth : ins.successors m.ip = [ins.operands.nnn, m.ip + 2] := by
        cases hopcode : ins.op with
        | call | callptr => rw [Instruction.successors, hopcode]
        | _ => rw [hopcode] at hcall; exact absurd hcall (by decide)
      rw [hnext, hstack] at hmem
      rcases List.mem_cons.mp hmem with heq | htail
      · exact hsucc address (by rw [hboth, heq]; exact List.mem_cons_self) hin
      · rcases List.mem_cons.mp htail with heq | hold
        · refine hsucc address ?_ hin
          rw [hboth, heq]
          exact List.mem_cons_of_mem _ List.mem_cons_self
        · exact h.covered address (List.mem_cons_of_mem _ hold) hin
  | leave _ hstack =>
      exact h.covered address (List.mem_cons_of_mem _ (hstack ▸ hmem)) hin
  | stay _ hsame => exact h.covered address (hsame ▸ hmem) hin
  | branch hbranch => exact absurd hbranch hop

/-- A step that stays on the program preserves the invariant. -/
theorem OnCode.step (h : OnCode program m) (hstays : StaysOn program m) :
    OnCode program m.step.2 := by
  rcases hstep : m.step with ⟨result, m'⟩
  rw [StaysOn, hstep] at hstays
  cases result with
  | error e => exact step_error hstep ▸ h
  | ok done =>
      rcases hstays with ⟨hip, hop, hsame⟩
      rcases step_ok hstep with ⟨hfetch, hexecute⟩
      -- The program is still there, as the step has left its bytes alone.
      have hholds : m'.memory.Holds program := by
        intro k hk
        rw [hsame k hk, h.holds k hk]
      exact h.of_flow hfetch hip hop hholds (execute_flow hexecute)

-- Setting a register other than the instruction pointer is nothing to control.
theorem OnCode.setRegister (h : OnCode program m) {number : Nat}
    (hnumber : number ≤ registerCount) (value : UInt16) :
    OnCode program (m.setRegister number value).2 := by
  unfold Machine.setRegister
  split
  · split <;> exact ⟨h.holds, h.covered⟩
  · exact ⟨h.holds, h.covered⟩
  · rename_i hregister
    have hip : registerCount + 1 = number := Register.number_of_ofNumber? hregister
    omega
  · exact h

/-- An operation that does not redirect the run preserves the invariant. -/
theorem OnCode.apply (h : OnCode program m) {op : Operation} (hop : op.KeepsCourse)
    (hstays : op = .step → StaysOn program m) : OnCode program (op.apply m) := by
  cases op with
  | step => exact h.step (hstays rfl)
  | tick | press | release => exact ⟨h.holds, h.covered⟩
  | setRegister number value => exact h.setRegister hop value
  | load | unload | writeByte | setPixel => exact hop.elim

/-- A history that does not redirect the run preserves the invariant, if each
    of its steps stays on the program. -/
theorem OnCode.after {history : List Operation} (h : OnCode program m)
    (hcourse : ∀ op ∈ history, op.KeepsCourse)
    (hstays : ∀ n (h : n < history.length), history[n] = .step →
      StaysOn program (m.after (history.take n))) :
    OnCode program (m.after history) := by
  induction history generalizing m with
  | nil => exact h
  | cons op history ih =>
      have hop : op = .step → StaysOn program m := hstays 0 (Nat.zero_lt_succ _)
      refine ih (h.apply (hcourse op List.mem_cons_self) hop) ?_ ?_
      · intro other hother
        exact hcourse other (List.mem_cons_of_mem op hother)
      · intro n hn
        exact hstays (n + 1) (Nat.succ_lt_succ hn)

-- A program that fits, at its start.
theorem onCode_start (hfit : programStart + program.length ≤ memorySize) (random : RandomSource) :
    OnCode program (start program random) := by
  refine ⟨Memory.holds_ofProgram hfit, ?_⟩
  intro address hmem hin
  rcases List.mem_cons.mp hmem with heq | hnone
  · have hip : address.toNat = programStart := heq ▸ rfl
    rw [Within, hip] at hin
    rw [hip, Nat.sub_self]
    exact Coverage.zero_mem_codeOffsets (by omega)
  · exact absurd hnone List.not_mem_nil

/-- A run of a program that fits stays on the covered code: if nothing
    redirects the run and each of its steps stays on the program, then the
    instruction pointer, wherever it points into the program, points to a word
    that the search has reached. -/
theorem ip_mem_codeOffsets (program : List UInt8)
    (hfit : program.length ≤ memorySize - programStart) (m : Machine) (history : List Operation)
    (hcourse : ∀ op ∈ history, op.KeepsCourse)
    (hstays : ∀ n (h : n < history.length), history[n] = .step →
      StaysOn program ((m.load program).2.after (history.take n)))
    (hip : Within program ((m.load program).2.after history).ip) :
    ((m.load program).2.after history).ip.toNat - programStart
      ∈ Coverage.codeOffsets program := by
  have hfit := Nat.add_le_of_le_sub' (show programStart ≤ memorySize by decide) hfit
  rw [load_of_fit hfit] at hstays hip ⊢
  exact ((onCode_start hfit m.random).after hcourse hstays).covered _ List.mem_cons_self hip

/-- A program that calls a subroutine at its next word. Behind the return, the
    machine is in the subroutine again. -/
theorem ip_mem_codeOffsets_call_ret :
    ((load [0x22, 0x02, 0x00, 0xEE] (idle 0)).2.after [.step, .press 3, .step]).ip.toNat
        - programStart ∈ Coverage.codeOffsets [0x22, 0x02, 0x00, 0xEE] :=
  ip_mem_codeOffsets [0x22, 0x02, 0x00, 0xEE] (by decide) (idle 0) [.step, .press 3, .step]
    (by decide) (by decide +kernel) (by decide +kernel)

end Machine

end Chip8

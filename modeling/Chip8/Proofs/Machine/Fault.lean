import Chip8.Proofs.Encoding.Words
import Chip8.Proofs.Machine.Fetch
import Chip8.Proofs.Machine.Operation

/-!
# When a Step Fails

A step has three things to get through, and each has a way to fail. There has
to be a program. The word at the instruction pointer has to lie in memory and
to be the word of an instruction. And an instruction that works on a block of
memory needs all of the block, from the index register on.

The instruction pointer and the index register may hold any value of 16 bits,
so both may point far beyond memory. What is reported is then the last address
of the access, which has two bytes for a word and as many as the instruction says
for a block. A block may end with the last byte of memory. An empty one, the
sprite of a drawing instruction without rows, may even start right behind it,
but no further on, although there is nothing in it to read.

`Faults` lists the four ways. They exclude each other, as each of them takes
it that the step has got so far, and a step succeeds if none of them stops it.

## Main definitions

* `Instruction.blockLength?`: The block that an instruction works on.
* `Machine.Faults`: The ways in which a step fails.

## Theorems

* `Instruction.decode?_eq_none_iff`: When a word is no instruction.
* `execute_eq_error_iff`: When an instruction is refused.
* `step_fails_iff`: When a step fails, and with which error.
-/

namespace Chip8

namespace Opcode

theorem ofWord?_eq_none_iff (word : UInt16) :
    ofWord? word = none ↔ ∀ op : Opcode, ¬op.Matches word := by
  rw [ofWord?, List.find?_eq_none]
  constructor
  · intro h op hmatch
    exact h op (mem_decodeOrder op) (decide_eq_true hmatch)
  · intro h op _ hmatch
    exact h op (of_decide_eq_true hmatch)

end Opcode

namespace Instruction

/-- A word is no instruction exactly if it matches no opcode. -/
theorem decode?_eq_none_iff (word : UInt16) :
    decode? word = none ↔ ∀ op : Opcode, ¬op.Matches word := by
  rw [decode?, Option.map_eq_none_iff, Opcode.ofWord?_eq_none_iff]

/-- The length of the block of memory that an instruction works on, if it works
    on one. The block starts at the index register. -/
def blockLength? (ins : Instruction) : Option Nat :=
  match ins.op with
  | .draw => some ins.operands.n.toNat
  | .sbcd => some 3
  | .regdump | .regload => some (ins.operands.x.toNat + 1)
  | _ => none

end Instruction

namespace Machine

/-- The ways in which a step of a machine fails, each with its error. -/
inductive Faults (m : Machine) : ExecutionError → Prop where
  /-- There is no program. -/
  | idle (hloaded : m.loaded = false) : Faults m .notLoaded
  /-- The word at the instruction pointer does not lie in memory. -/
  | beyond (hloaded : m.loaded = true) (hout : memorySize < m.ip.toNat + 2) :
      Faults m (.outOfBounds (m.ip.toNat + 1))
  /-- The word at the instruction pointer matches no opcode. -/
  | undecodable {hi lo : UInt8} (hloaded : m.loaded = true)
      (hhi : m.memory[m.ip.toNat]? = some hi) (hlo : m.memory[m.ip.toNat + 1]? = some lo)
      (hnone : ∀ op : Opcode, ¬op.Matches (wordOfBytes hi lo)) :
      Faults m (.undecodable m.ip (wordOfBytes hi lo))
  /-- The block that the instruction works on does not lie in memory. -/
  | block {hi lo : UInt8} {ins : Instruction} {length : Nat} (hloaded : m.loaded = true)
      (hhi : m.memory[m.ip.toNat]? = some hi) (hlo : m.memory[m.ip.toNat + 1]? = some lo)
      (hdecode : Instruction.decode? (wordOfBytes hi lo) = some ins)
      (hlength : ins.blockLength? = some length) (hout : memorySize < m.i.toNat + length) :
      Faults m (.outOfBounds (m.i.toNat + length - 1))

variable {m : Machine} {ins : Instruction} {e : ExecutionError}

/-- An instruction is refused for its block of memory, and for nothing else. -/
theorem execute_eq_error_iff :
    (m.execute ins).1 = .error e ↔ ∃ length, ins.blockLength? = some length ∧
      memorySize < m.i.toNat + length ∧ e = .outOfBounds (m.i.toNat + length - 1) := by
  cases hop : ins.op with
  | draw =>
      -- A sprite is one block, and drawing is refused if and only if the block is.
      simp only [execute, Instruction.blockLength?, hop, Option.some.injEq, exists_eq_left']
      rw [← Memory.block_eq_error_iff m.memory]
      split <;> simp only [*, reduceCtorEq, Except.error.injEq]
  | sbcd =>
      simp only [execute, Instruction.blockLength?, hop, Option.some.injEq, exists_eq_left']
      rw [← show (decimalDigits (m.reg ins.operands.x.toNat)).length = 3 from rfl,
        ← Memory.write_eq_error_iff m.memory]
      split <;> simp only [*, reduceCtorEq, Except.error.injEq]
  | regdump =>
      -- As many registers are stored as there are up to the last one.
      have hlength : ((List.range (ins.operands.x.toNat + 1)).map m.reg).length
          = ins.operands.x.toNat + 1 := by rw [List.length_map, List.length_range]
      simp only [execute, Instruction.blockLength?, hop, Option.some.injEq, exists_eq_left']
      rw [← hlength, ← Memory.write_eq_error_iff m.memory, hlength]
      split <;> simp only [*, reduceCtorEq, Except.error.injEq]
  | regload =>
      simp only [execute, Instruction.blockLength?, hop, Option.some.injEq, exists_eq_left']
      rw [← Memory.block_eq_error_iff m.memory]
      split <;> simp only [*, reduceCtorEq, Except.error.injEq]
  | gkey =>
      -- Waiting for a key may change nothing, but it is never refused.
      simp only [execute, Instruction.blockLength?, hop]
      split <;> simp only [reduceCtorEq, false_and, exists_false]
  | _ =>
      simp only [execute, Instruction.blockLength?, hop, reduceCtorEq, false_and, exists_false]

/-- A step that has a way to fail fails in that way. -/
theorem Faults.step_eq (h : m.Faults e) : m.step.1 = .error e := by
  cases h with
  | idle hloaded => simp only [step, fetch_of_not_loaded hloaded]
  | beyond hloaded hout => simp only [step, fetch_of_beyond hloaded hout]
  | undecodable hloaded hhi hlo hnone =>
      simp only [step, fetch_of_bytes hloaded hhi hlo,
        (Instruction.decode?_eq_none_iff _).mpr hnone]
  | @block hi lo ins length hloaded hhi hlo hdecode hlength hout =>
      have hexecute : (m.execute ins).1 = .error (.outOfBounds (m.i.toNat + length - 1)) :=
        execute_eq_error_iff.mpr ⟨length, hlength, hout, rfl⟩
      rcases hresult : m.execute ins with ⟨result, m'⟩
      rw [hresult] at hexecute
      cases hexecute
      simp only [step, fetch_of_bytes hloaded hhi hlo, hdecode, hresult]

/-- A step that fails has had a way to. -/
theorem faults_of_step_eq (h : m.step.1 = .error e) : m.Faults e := by
  -- The checks of a step are gone through in their order, up to the one that fails.
  cases hloaded : m.loaded with
  | false =>
      simp only [step, fetch_of_not_loaded hloaded] at h
      cases h
      exact .idle hloaded
  | true =>
      by_cases hout : memorySize < m.ip.toNat + 2
      · simp only [step, fetch_of_beyond hloaded hout] at h
        cases h
        exact .beyond hloaded hout
      · rcases m.memory.exists_two_bytes (Nat.le_of_not_lt hout) with ⟨hi, lo, hhi, hlo⟩
        cases hdecode : Instruction.decode? (wordOfBytes hi lo) with
        | none =>
            simp only [step, fetch_of_bytes hloaded hhi hlo, hdecode] at h
            cases h
            exact .undecodable hloaded hhi hlo ((Instruction.decode?_eq_none_iff _).mp hdecode)
        | some ins =>
            rcases hresult : m.execute ins with ⟨result, m'⟩
            simp only [step, fetch_of_bytes hloaded hhi hlo, hdecode, hresult] at h
            cases result with
            | ok effect => exact nomatch h
            | error e' =>
                cases h
                have hrefused : (m.execute ins).1 = .error e := by rw [hresult]
                rcases execute_eq_error_iff.mp hrefused with ⟨length, hlength, hout, rfl⟩
                exact .block hloaded hhi hlo hdecode hlength hout

/-- The conditions under which a step of a machine fails, in whatever state the
    machine is. It fails with an error exactly if it has that way to fail, and
    succeeds if it has none. An address that it reports lies beyond memory. -/
theorem step_fails_iff (m : Machine) :
    (∀ e, m.step.1 = .error e ↔ m.Faults e) ∧
      ((∃ ins effect, m.step.1 = .ok (ins, effect)) ↔ ∀ e, ¬m.Faults e) ∧
      ∀ address, m.step.1 = .error (.outOfBounds address) → memorySize ≤ address := by
  have hfails : ∀ e, m.step.1 = .error e ↔ m.Faults e :=
    fun _ => ⟨faults_of_step_eq, Faults.step_eq⟩
  refine ⟨hfails, ?_, ?_⟩
  · -- A step has a result or an error, and it has an error only by a fault.
    cases hresult : m.step.1 with
    | error e =>
        refine iff_of_false (fun ⟨_, _, h⟩ => nomatch h) ?_
        exact fun h => h e (faults_of_step_eq hresult)
    | ok done =>
        refine iff_of_true ⟨done.1, done.2, rfl⟩ ?_
        intro e h
        rw [h.step_eq] at hresult
        exact nomatch hresult
  · intro address h
    -- Only two of the faults name an address, and both name one behind the end.
    cases faults_of_step_eq h with
    | beyond _ hout => omega
    | block _ _ _ _ _ hout => omega

/-- A sprite without rows, one byte behind the end of memory. -/
theorem step_fails_empty_sprite :
    let m := (idle 0).after [.load [0xD0, 0x00], .setRegister Register.i.number 0x1001]
    m.step.1 = .error (.outOfBounds 0x1000) ∧ m.Faults (.outOfBounds 0x1000) ∧
      memorySize ≤ 0x1000 := by
  intro m
  have hstep : m.step.1 = .error (.outOfBounds 0x1000) := by decide +kernel
  rcases step_fails_iff m with ⟨hfails, _, haddress⟩
  exact ⟨hstep, (hfails _).mp hstep, haddress _ hstep⟩

end Machine

end Chip8

import Chip8.Proofs.Machine.Footprint

/-!
# Arithmetic with a Flag

Five instructions work on bytes and have more to tell than fits into one: the
carry of a sum, the borrow of a difference, the bit that a shift pushes out. It
goes into the flag register, as a one or a zero, and nothing is lost. Result
and flag together make up for the operands, over the integers and not only up
to 256.

The operands are read before anything is written, and the flag is written
before the result. So it does not matter where operands come from, be it twice
from one register or from the flag register itself. Only with the flag register
as destination there is no place for both, and then it is the result that stays.

The index register may be added to as well. It is wider than an address, and
the flag tells that it points beyond memory, not that it has wrapped around.

## Main definitions

* `Opcode.carries`: The five instructions.
* `Opcode.Balanced`: How operands, result and flag belong together.

## Theorems

* `balanced_add`, `balanced_sub`, `balanced_shiftRight`, `balanced_shiftLeft`:
  The arithmetic of bytes.
* `reg_carried`: The registers when a flag and a result have been written.
* `exists_execute_carries`: What one of the five instructions does.
* `step_arithmetic`: The registers behind a step that executes one of them, or
  adds to the index register.
-/

namespace Chip8

/-! ## Bytes -/

namespace Opcode

/-- The instructions with a result of one byte and something left over for the
    flag. -/
def carries : Opcode → Bool
  | .add | .sub | .subr | .shr1 | .shl1 => true
  | _ => false

/-- How the operands of such an instruction, its result and its flag belong
    together. A carry counts 256, and so does a borrow. A bit that is pushed out
    on the right counts one, and one that is pushed out on the left 256. -/
def Balanced (op : Opcode) (vx vy result : UInt8) (flag : Bool) : Prop :=
  match op with
  | .add => (256 * flag.toNat + result.toNat : Int) = vx.toNat + vy.toNat
  | .sub => (result.toNat - 256 * flag.toNat : Int) = vx.toNat - vy.toNat
  | .subr => (result.toNat - 256 * flag.toNat : Int) = vy.toNat - vx.toNat
  | .shr1 => (2 * result.toNat + flag.toNat : Int) = vx.toNat
  | .shl1 => (256 * flag.toNat + result.toNat : Int) = 2 * vx.toNat
  | _ => False

theorem balanced_add (a b : UInt8) :
    Balanced .add a b (a + b) (256 ≤ a.toNat + b.toNat) := by
  have ha := a.toNat_lt
  have hb := b.toNat_lt
  rw [Balanced, UInt8.toNat_add]
  by_cases h : 256 ≤ a.toNat + b.toNat
  · simp only [h, decide_true, Bool.toNat_true]
    omega
  · simp only [h, decide_false, Bool.toNat_false]
    omega

theorem balanced_sub (a b : UInt8) : Balanced .sub a b (a - b) (a < b) := by
  have ha := a.toNat_lt
  have hb := b.toNat_lt
  rw [Balanced, UInt8.toNat_sub]
  by_cases h : a < b
  · have hlt := UInt8.lt_iff_toNat_lt.mp h
    simp only [h, decide_true, Bool.toNat_true]
    omega
  · have hle := UInt8.le_iff_toNat_le.mp (UInt8.not_lt.mp h)
    simp only [h, decide_false, Bool.toNat_false]
    omega

theorem balanced_shiftRight (a b : UInt8) :
    Balanced .shr1 a b (a >>> 1) (a.toNat.testBit 0) := by
  rw [Balanced, Nat.testBit_zero, UInt8.toNat_shiftRight]
  change (2 * (a.toNat >>> 1 : Nat) + (decide (a.toNat % 2 = 1)).toNat : Int) = a.toNat
  rw [Nat.shiftRight_one]
  by_cases h : a.toNat % 2 = 1
  · simp only [h, decide_true, Bool.toNat_true]
    omega
  · simp only [h, decide_false, Bool.toNat_false]
    omega

theorem balanced_shiftLeft (a b : UInt8) :
    Balanced .shl1 a b (a <<< 1) (a.toNat.testBit 7) := by
  have ha := a.toNat_lt
  rw [Balanced, Nat.testBit_eq_decide_div_mod_eq, UInt8.toNat_shiftLeft]
  -- The bit that is pushed out is the one that is worth 128.
  change (256 * (decide (a.toNat / 128 % 2 = 1)).toNat + (a.toNat <<< 1 % 256 : Nat) : Int)
    = 2 * a.toNat
  rw [Nat.shiftLeft_eq]
  by_cases h : a.toNat / 128 % 2 = 1
  · simp only [h, decide_true, Bool.toNat_true]
    omega
  · simp only [h, decide_false, Bool.toNat_false]
    omega

end Opcode

/-! ## Registers -/

namespace Machine

variable {m : Machine} {ins : Instruction}

/-- Of a flag and a result that are written one after the other, both are found
    again, unless they go into the same register. No other register changes. -/
theorem reg_carried (flag : Bool) (x : Nat) (result : UInt8) (m : Machine) :
    ((m.setFlag flag).setReg x result).reg x = result ∧
      (flagRegister ≠ x % registerCount →
        (((m.setFlag flag).setReg x result).reg flagRegister).toNat = flag.toNat) ∧
      ∀ k < registerCount, k ≠ x % registerCount → k ≠ flagRegister →
        ((m.setFlag flag).setReg x result).reg k = m.reg k := by
  refine ⟨reg_setReg_self x result _, ?_, ?_⟩
  · intro hx
    rw [reg_setReg_of_ne hx, reg_setFlag_self]
    cases flag <;> rfl
  · intro k hk hx hflag
    rw [← Nat.mod_eq_of_lt hk] at hx hflag
    rw [reg_setReg_of_ne hx, reg_setFlag_of_ne hflag]

/-- The flag is written, and then the result; operands are read from the machine
    of before. -/
theorem exists_execute_carries (hop : ins.op.carries = true) (m : Machine) :
    ∃ flag result, ins.op.Balanced (m.reg ins.operands.x.toNat) (m.reg ins.operands.y.toNat)
        result flag ∧
      m.execute ins
        = (.ok .quiet, ((m.setFlag flag).setReg ins.operands.x.toNat result).advance) := by
  cases h : ins.op with
  | add => exact ⟨_, _, Opcode.balanced_add _ _, by simp only [execute, h]⟩
  | sub => exact ⟨_, _, Opcode.balanced_sub _ _, by simp only [execute, h]⟩
  | subr => exact ⟨_, _, Opcode.balanced_sub _ _, by simp only [execute, h]⟩
  | shr1 => exact ⟨_, _, Opcode.balanced_shiftRight _ _, by simp only [execute, h]⟩
  | shl1 => exact ⟨_, _, Opcode.balanced_shiftLeft _ _, by simp only [execute, h]⟩
  | _ =>
      rw [h] at hop
      exact absurd hop (by decide)

/-- What an instruction adds to the index register, and what it tells of it. -/
theorem execute_addI (hop : ins.op = .addI) (m : Machine) :
    m.execute ins = (.ok .quiet,
      ((m.setFlag (0xFFF < m.i.toNat + (m.reg ins.operands.x.toNat).toNat)).setIndex
        (m.i + (m.reg ins.operands.x.toNat).toUInt16)).advance) := by
  simp only [execute, hop]

/-- The registers behind a step that executes an instruction with a carry, or one
    that adds to the index register. The step succeeds, and what an instruction
    does not write is as before.

    A carry, a borrow or a bit that is pushed out is `flag`. It makes up for the
    operands of before together with the result, and is found in the flag
    register unless the result is there. -/
theorem step_arithmetic (hfetch : m.fetch = .ok ins) :
    (ins.op.carries = true → ∃ m' flag, m.step = (.ok (ins, .quiet), m') ∧
      ins.op.Balanced (m.reg ins.operands.x.toNat) (m.reg ins.operands.y.toNat)
        (m'.reg ins.operands.x.toNat) flag ∧
      (ins.operands.x.toNat ≠ flagRegister → (m'.reg flagRegister).toNat = flag.toNat) ∧
      (∀ k < registerCount, k ≠ ins.operands.x.toNat → k ≠ flagRegister →
        m'.reg k = m.reg k) ∧
      m' = { m with v := m'.v, ip := m.ip + 2 }) ∧
    (ins.op = .addI → ∃ m', m.step = (.ok (ins, .quiet), m') ∧
      m'.i.toNat = (m.i.toNat + (m.reg ins.operands.x.toNat).toNat) % 65536 ∧
      (m'.reg flagRegister = 0 ∨ m'.reg flagRegister = 1) ∧
      (m'.reg flagRegister = 1 ↔ 0xFFF < m.i.toNat + (m.reg ins.operands.x.toNat).toNat) ∧
      (∀ k < registerCount, k ≠ flagRegister → m'.reg k = m.reg k) ∧
      m' = { m with v := m'.v, i := m'.i, ip := m.ip + 2 }) := by
  constructor
  · intro hop
    have hx : ins.operands.x.toNat % registerCount = ins.operands.x.toNat :=
      Nat.mod_eq_of_lt (Instruction.x_lt_of_fits (fits_of_fetch hfetch))
    rcases exists_execute_carries hop m with ⟨flag, result, hbalanced, hexecute⟩
    -- The flag is written first and the result on top of it, so the result wins in `v15`.
    rcases reg_carried flag ins.operands.x.toNat result m with ⟨hresult, hflag, hothers⟩
    rw [hx] at hflag hothers
    refine ⟨_, flag, step_eq_of_execute hfetch hexecute, ?_, fun h => hflag h.symm, hothers, rfl⟩
    rwa [← hresult] at hbalanced
  · intro hop
    -- The sum with the index register writes the flag alone.
    have hflag := flag_setFlag (0xFFF < m.i.toNat + (m.reg ins.operands.x.toNat).toNat) m
    rw [decide_eq_true_iff] at hflag
    refine ⟨_, step_eq_of_execute hfetch (execute_addI hop m), ?_, hflag.1, hflag.2, ?_, rfl⟩
    · change (m.i + (m.reg ins.operands.x.toNat).toUInt16).toNat = _
      rw [UInt16.toNat_add, UInt8.toNat_toUInt16]
    · intro k hk hne
      rw [← Nat.mod_eq_of_lt hk] at hne
      exact reg_setFlag_of_ne hne _ m

/-- A machine about to double what is in the flag register. -/
def doubling : Machine :=
  (idle 0).after [.load [0x8F, 0xF4], .setRegister 15 200]

/-- A machine about to add the flag register to the index register, beyond 16
    bits. -/
def indexing : Machine :=
  (idle 0).after [.load [0xFF, 0x1E], .setRegister 15 2, .setRegister Register.i.number 0xFFFF]

/-- The sum stays in the flag register, without its carry. In the sum with the
    index register it is an operand first, and then has the flag. -/
theorem step_arithmetic_flag_register :
    (∃ m' flag, doubling.step = (.ok (⟨.add, .registerPair 15 15, rfl⟩, .quiet), m') ∧
      (256 * Bool.toNat flag + (m'.reg flagRegister).toNat : Int) = 200 + 200) ∧
    ∃ m', indexing.step = (.ok (⟨.addI, .register 15, rfl⟩, .quiet), m') ∧
      m'.i.toNat = 1 ∧ m'.reg flagRegister = 1 := by
  have hdoubling : doubling.fetch = .ok ⟨.add, .registerPair 15 15, rfl⟩ ∧
      doubling.reg 15 = 200 := by decide +kernel
  have hindexing : indexing.fetch = .ok ⟨.addI, .register 15, rfl⟩ ∧ indexing.i = 0xFFFF ∧
      indexing.reg 15 = 2 := by decide +kernel
  constructor
  · rcases (step_arithmetic hdoubling.1).1 rfl with ⟨m', flag, hstep, hbalanced, _⟩
    change (256 * Bool.toNat flag + (m'.reg 15).toNat : Int)
      = (doubling.reg 15).toNat + (doubling.reg 15).toNat at hbalanced
    rw [hdoubling.2] at hbalanced
    exact ⟨m', flag, hstep, hbalanced⟩
  · rcases (step_arithmetic hindexing.1).2 rfl with ⟨m', hstep, hindex, _, hflag, _⟩
    change m'.i.toNat = (indexing.i.toNat + (indexing.reg 15).toNat) % 65536 at hindex
    change _ ↔ 0xFFF < indexing.i.toNat + (indexing.reg 15).toNat at hflag
    rw [hindexing.2.1, hindexing.2.2] at hindex hflag
    exact ⟨m', hstep, hindex, hflag.mpr (by decide)⟩

end Machine

end Chip8

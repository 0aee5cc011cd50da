import Chip8.Proofs.Encoding.Words
import Chip8.Proofs.Machine.Control
import Chip8.Proofs.Machine.Fetch
import Chip8.Proofs.Machine.Operation

/-!
# What an Instruction Leaves Alone

Every instruction has a footprint: the registers, the addresses and the other
parts of the machine that it may write, which can be told from its opcode, its
operands and the index register. Whatever lies outside of the footprint is
after a step what it was before. The instruction pointer is not part of this;
where it goes is described by `Flow`.

Bytes of memory are written by two instructions, each in one block that starts
at the index register. The byte registers are written in three ways: an
instruction with a destination writes its register `x`, a block that is loaded
fills the registers from `v0` up to it, and an instruction with a carry, a
borrow or a collision to tell of writes the flag register. An instruction may
do more than one of these.

What a frontend is told follows the footprint too. An instruction asks for the
screen to be shown again exactly if the screen is in its footprint.

## Main definitions

* `Opcode.writesX`, `Opcode.writesFlag`: The instructions with a destination,
  and those with a flag.
* `Instruction.WritesRegister`, `Instruction.WritesByte`: The registers and the
  addresses in a footprint.
* `Machine.Confined`: All changes lie inside of the footprint.

## Theorems

* `v_setReg_of_ne`: Writing a register leaves the others.
* `reg_setReg_self`, `reg_setReg_of_ne`: The registers when one is written.
* `flag_setFlag`: The flag register when a flag is written.
* `redraw_iff`: The instructions that ask for the screen to be shown.
* `execute_confined`: What an instruction changes lies inside of its footprint.
* `step_confined`: The same for a step of the machine.
-/

namespace Chip8

/-! ## Footprints -/

/-- The instructions whose register `x` is their destination. -/
def Opcode.writesX : Opcode → Bool
  | .li | .addi | .mov | .or | .and | .xor | .add | .sub | .subr | .shr1 | .shl1 | .rand | .gdtc
  | .gkey => true
  | _ => false

/-- The instructions that tell of a carry, a borrow or a collision. -/
def Opcode.writesFlag : Opcode → Bool
  | .add | .sub | .subr | .shr1 | .shl1 | .addI | .draw => true
  | _ => false

namespace Instruction

/-- A byte register that an instruction may write. -/
def WritesRegister (ins : Instruction) (n : Nat) : Prop :=
  ins.op.writesX = true ∧ n = ins.operands.x.toNat ∨
    ins.op = .regload ∧ n ≤ ins.operands.x.toNat ∨
    ins.op.writesFlag = true ∧ n = flagRegister

instance (ins : Instruction) (n : Nat) : Decidable (ins.WritesRegister n) :=
  inferInstanceAs (Decidable (_ ∨ _ ∨ _))

/-- An address that an instruction may write, with a value of the index
    register. -/
def WritesByte (ins : Instruction) (i : UInt16) (address : Nat) : Prop :=
  ins.op = .sbcd ∧ i.toNat ≤ address ∧ address ≤ i.toNat + 2 ∨
    ins.op = .regdump ∧ i.toNat ≤ address ∧ address ≤ i.toNat + ins.operands.x.toNat

instance (ins : Instruction) (i : UInt16) (address : Nat) : Decidable (ins.WritesByte i address) :=
  inferInstanceAs (Decidable (_ ∨ _))

variable {ins : Instruction} {n : Nat}

theorem x_lt_of_fits {o : Operands} (h : o.Fits) : o.x.toNat < registerCount := by
  cases o with
  | bare | address => exact Nat.zero_lt_succ _
  | registerByte x nn => exact UInt8.lt_iff_toNat_lt.mp h
  | registerPair x y => exact UInt8.lt_iff_toNat_lt.mp h.1
  | register x => exact UInt8.lt_iff_toNat_lt.mp h
  | registerPairNibble x y n => exact UInt8.lt_iff_toNat_lt.mp h.1

-- A register outside of the footprint is neither the destination nor the flag.
theorem ne_x_of_not_writes (hfits : ins.operands.Fits) (hop : ins.op.writesX = true)
    (h : ¬ins.WritesRegister n) : n ≠ ins.operands.x.toNat % registerCount := by
  rw [Nat.mod_eq_of_lt (x_lt_of_fits hfits)]
  exact fun hn => h (Or.inl ⟨hop, hn⟩)

theorem ne_flag_of_not_writes (hop : ins.op.writesFlag = true) (h : ¬ins.WritesRegister n) :
    n ≠ flagRegister % registerCount :=
  fun hn => h (Or.inr (Or.inr ⟨hop, hn⟩))

end Instruction

/-! ## Writing -/

namespace Machine

/-- Writing a register leaves the others. -/
theorem v_setReg_of_ne {m : Machine} {n k : Nat} (hk : k < registerCount)
    (h : k ≠ n % registerCount) (value : UInt8) : (m.setReg n value).v[k] = m.v[k] :=
  Vector.getElem_set_ne (Nat.mod_lt n (by decide)) hk (Ne.symm h)

theorem reg_setReg_self (n : Nat) (value : UInt8) (m : Machine) :
    (m.setReg n value).reg n = value :=
  Vector.getElem_set_self _

theorem reg_setReg_of_ne {n k : Nat} (h : k % registerCount ≠ n % registerCount) (value : UInt8)
    (m : Machine) : (m.setReg n value).reg k = m.reg k :=
  v_setReg_of_ne (Nat.mod_lt k (by decide)) h value

theorem reg_setFlag_self (flag : Bool) (m : Machine) :
    (m.setFlag flag).reg flagRegister = if flag then 1 else 0 :=
  reg_setReg_self flagRegister _ m

theorem reg_setFlag_of_ne {k : Nat} (h : k % registerCount ≠ flagRegister) (flag : Bool)
    (m : Machine) : (m.setFlag flag).reg k = m.reg k :=
  reg_setReg_of_ne h _ m

/-- The flag register holds a one or a zero when a flag has been written. -/
theorem flag_setFlag (flag : Bool) (m : Machine) :
    ((m.setFlag flag).reg flagRegister = 0 ∨ (m.setFlag flag).reg flagRegister = 1) ∧
      ((m.setFlag flag).reg flagRegister = 1 ↔ flag = true) := by
  rw [reg_setFlag_self]
  cases flag <;> decide

section

variable {ins : Instruction}

theorem v_setReg_x (hfits : ins.operands.Fits) (hop : ins.op.writesX = true) (m : Machine)
    (value : UInt8) (n : Nat) (hn : n < registerCount) (h : ¬ins.WritesRegister n) :
    (m.setReg ins.operands.x.toNat value).v[n] = m.v[n] :=
  v_setReg_of_ne hn (Instruction.ne_x_of_not_writes hfits hop h) value

theorem v_setFlag (hop : ins.op.writesFlag = true) (m : Machine) (flag : Bool) (n : Nat)
    (hn : n < registerCount) (h : ¬ins.WritesRegister n) : (m.setFlag flag).v[n] = m.v[n] :=
  v_setReg_of_ne hn (Instruction.ne_flag_of_not_writes hop h) _

end

/-! ## Confinement -/

/-- An instruction that has been executed on a machine has changed no more of it
    than its footprint, the instruction pointer aside. -/
structure Confined (ins : Instruction) (effect : Effect) (m m' : Machine) : Prop where
  /-- The screen is to be shown again exactly behind these two. -/
  redraw : effect = .redraw ↔ ins.op = .clear ∨ ins.op = .draw
  /-- The stack is as it was, one address deeper, or one address shallower. -/
  stack : m'.stack = m.stack ∨
    ins.op.isCall = true ∧ m'.stack = (m.ip + 2) :: m.stack ∨
    ins.op = .ret ∧ ∃ address, m.stack = address :: m'.stack
  keys : m'.keys = m.keys := by rfl
  loaded : m'.loaded = m.loaded := by rfl
  memory : ∀ address (_ : address < memorySize), ¬ins.WritesByte m.i address →
    m'.memory[address] = m.memory[address] := by intros; rfl
  screen : ins.op ≠ .clear → ins.op ≠ .draw → m'.screen = m.screen := by intros; rfl
  delay : ins.op ≠ .sdtc → m'.timers.delay = m.timers.delay := by intros; rfl
  sound : ins.op ≠ .sstc → m'.timers.sound = m.timers.sound := by intros; rfl
  random : ins.op ≠ .rand → m'.random = m.random := by intros; rfl
  index : ins.op ≠ .loadI → ins.op ≠ .addI → ins.op ≠ .gsprite → m'.i = m.i := by intros; rfl
  register : ∀ n (_ : n < registerCount), ¬ins.WritesRegister n → m'.v[n] = m.v[n] := by
    intros; rfl

variable {ins : Instruction} {effect : Effect} {m m' : Machine}

-- The ways of control, as far as the stack is concerned.
theorem stack_of_flow (h : Flow ins m m') :
    m'.stack = m.stack ∨ ins.op.isCall = true ∧ m'.stack = (m.ip + 2) :: m.stack ∨
      ins.op = .ret ∧ ∃ address, m.stack = address :: m'.stack := by
  cases h with
  | onward _ hstack => exact Or.inl hstack
  | enter hop _ hstack => exact Or.inr (Or.inl ⟨hop, hstack⟩)
  | leave hop hstack => exact Or.inr (Or.inr ⟨hop, m'.ip, hstack⟩)
  | stay _ hm => exact Or.inl (by rw [hm])
  | branch _ _ hstack => exact Or.inl hstack

/-- Those instructions ask for the screen to be shown that draw on it. -/
theorem redraw_iff (h : m.execute ins = (.ok effect, m')) :
    effect = .redraw ↔ ins.op = .clear ∨ ins.op = .draw := by
  cases hop : ins.op with
  | draw | sbcd | regdump | regload | gkey =>
      simp only [execute, hop] at h
      split at h <;> cases h <;> decide
  | _ =>
      simp only [execute, hop] at h
      cases h
      decide

/-- What an instruction changes lies inside of its footprint. -/
theorem execute_confined (hfits : ins.operands.Fits) (h : m.execute ins = (.ok effect, m')) :
    Confined ins effect m m' := by
  have hredraw := redraw_iff h
  have hstack := stack_of_flow (execute_flow h)
  -- Each case speaks of the parts that its instructions write. All others are the
  -- same by definition.
  cases hop : ins.op with
  | call | callptr | jmp | skeqi | skneqi | skeqr | skneqr | skeqkey | skneqkey | brelv0 =>
      simp only [execute, hop] at h
      cases h
      exact { redraw := hredraw, stack := hstack }
  | ret =>
      rw [execute_ret hop] at h
      cases h
      unfold ret at hstack ⊢
      split at hstack <;> exact { redraw := hredraw, stack := hstack }
  | clear =>
      simp only [execute, hop] at h
      cases h
      exact { redraw := hredraw, stack := hstack, screen := fun hclear _ => absurd hop hclear }
  | li | addi | mov | or | and | xor | gdtc =>
      have hx : ins.op.writesX = true := by rw [hop]; rfl
      simp only [execute, hop] at h
      cases h
      exact { redraw := hredraw, stack := hstack, register := v_setReg_x hfits hx m _ }
  | add | sub | subr | shr1 | shl1 =>
      have hx : ins.op.writesX = true := by rw [hop]; rfl
      have hflag : ins.op.writesFlag = true := by rw [hop]; rfl
      simp only [execute, hop] at h
      cases h
      exact {
        redraw := hredraw
        stack := hstack
        register := fun n hn hw =>
          (v_setReg_x hfits hx _ _ n hn hw).trans (v_setFlag hflag m _ n hn hw) }
  | rand =>
      have hx : ins.op.writesX = true := by rw [hop]; rfl
      simp only [execute, hop] at h
      cases h
      exact {
        redraw := hredraw
        stack := hstack
        random := fun hrand => absurd hop hrand
        register := v_setReg_x hfits hx { m with random := m.random.next.2 } _ }
  | gkey =>
      have hx : ins.op.writesX = true := by rw [hop]; rfl
      simp only [execute, hop] at h
      split at h
      · cases h
        exact { redraw := hredraw, stack := hstack }
      · cases h
        exact { redraw := hredraw, stack := hstack, register := v_setReg_x hfits hx m _ }
  | draw =>
      have hflag : ins.op.writesFlag = true := by rw [hop]; rfl
      simp only [execute, hop] at h
      split at h
      · cases h
      · cases h
        exact {
          redraw := hredraw
          stack := hstack
          screen := fun _ hdraw => absurd hop hdraw
          register := fun n hn hw => v_setFlag hflag _ _ n hn hw }
  | loadI =>
      simp only [execute, hop] at h
      cases h
      exact { redraw := hredraw, stack := hstack, index := fun hload _ _ => absurd hop hload }
  | gsprite =>
      simp only [execute, hop] at h
      cases h
      exact { redraw := hredraw, stack := hstack, index := fun _ _ hglyph => absurd hop hglyph }
  | addI =>
      have hflag : ins.op.writesFlag = true := by rw [hop]; rfl
      simp only [execute, hop] at h
      cases h
      exact {
        redraw := hredraw
        stack := hstack
        index := fun _ hadd _ => absurd hop hadd
        register := v_setFlag hflag m _ }
  | sdtc =>
      simp only [execute, hop] at h
      cases h
      exact { redraw := hredraw, stack := hstack, delay := fun hdelay => absurd hop hdelay }
  | sstc =>
      simp only [execute, hop] at h
      cases h
      exact { redraw := hredraw, stack := hstack, sound := fun hsound => absurd hop hsound }
  | sbcd =>
      simp only [execute, hop] at h
      split at h
      · cases h
      · rename_i memory hwrite
        cases h
        refine { redraw := hredraw, stack := hstack, memory := fun address hin hw => ?_ }
        refine Memory.getElem_write_of_outside hwrite hin fun hblock => hw (Or.inl ⟨hop, ?_⟩)
        have hlength : (decimalDigits (m.reg ins.operands.x.toNat)).length = 3 := rfl
        omega
  | regdump =>
      simp only [execute, hop] at h
      split at h
      · cases h
      · rename_i memory hwrite
        cases h
        refine { redraw := hredraw, stack := hstack, memory := fun address hin hw => ?_ }
        refine Memory.getElem_write_of_outside hwrite hin fun hblock => hw (Or.inr ⟨hop, ?_⟩)
        rw [List.length_map, List.length_range] at hblock
        omega
  | regload =>
      simp only [execute, hop] at h
      split at h
      · cases h
      · rename_i bytes hbytes
        cases h
        refine { redraw := hredraw, stack := hstack, register := fun n hn hw => ?_ }
        refine getElem_overlay_of_outside hn fun hblock => hw (Or.inr (Or.inl ⟨hop, ?_⟩))
        rw [Memory.length_of_block hbytes] at hblock
        omega

-- The operands of what is fetched fit.
theorem fits_of_fetch (h : m.fetch = .ok ins) : ins.operands.Fits := by
  rcases exists_bytes_of_fetch h with ⟨_, _, _, _, hdecode⟩
  exact Instruction.fits_of_decode? hdecode

/-- A step that succeeds changes the machine inside of the footprint of its
    instruction and nowhere else. -/
theorem step_confined (h : m.step = (.ok (ins, effect), m')) : Confined ins effect m m' := by
  rcases step_ok h with ⟨hfetch, hexecute⟩
  exact execute_confined (fits_of_fetch hfetch) hexecute

/-- A machine in front of a step that stores two registers right below a byte
    that is not zero. -/
def beforeStore : Machine :=
  (idle 0).after [.load [0xA3, 0x00, 0xF1, 0x55], .setRegister 0 7, .writeByte 0x302 9, .step]

/-- The first register is stored, and the byte behind the second stays. -/
theorem step_confined_store :
    beforeStore.step.1 = .ok (⟨.regdump, .register 1, rfl⟩, .quiet) ∧
      beforeStore.step.2.memory[0x300] = 7 ∧ beforeStore.step.2.memory[0x302] = 9 := by
  have hrun : beforeStore.step.1 = .ok (⟨.regdump, .register 1, rfl⟩, .quiet) ∧
      beforeStore.step.2.memory[0x300] = 7 ∧ beforeStore.memory[0x302] = 9 ∧
      beforeStore.i = 0x300 := by decide +kernel
  rcases hrun with ⟨hresult, hstored, hbyte, hi⟩
  have hstep : beforeStore.step
      = (.ok (⟨.regdump, .register 1, rfl⟩, .quiet), beforeStore.step.2) := by
    rw [← hresult, Prod.eta]
  -- Two registers are stored, and this is the byte behind them.
  have hbehind : ¬(Instruction.mk .regdump (.register 1) rfl).WritesByte beforeStore.i 0x302 := by
    rw [hi]
    decide
  refine ⟨hresult, hstored, ?_⟩
  rw [(step_confined hstep).memory 0x302 (by decide) hbehind, hbyte]

end Machine

end Chip8

import Chip8.Proofs.Machine.Footprint

/-!
# Registers Stored and Loaded

Two instructions move registers between their vector and memory. Both take the
registers from `v0` up to one that they name, that one included, and a block of
memory of as many bytes from the index register on. Neither changes the index
register, so the two meet the same block when one follows the other.

Storing and loading undo each other. What is loaded after it was stored are the
registers as they were when they were stored, whatever has become of them in
between, and the registers beyond the last one named keep what they have by then.
What is stored after it was loaded is in memory already. The block may end with
the last byte of memory.

## Main definitions

* `Instruction.store`, `Instruction.load`: The two instructions.
* `Machine.registersTo`: The registers up to one of them.

## Theorems

* `execute_store`, `execute_load`: What the instructions do.
* `reg_overlay`: The registers that are loaded, and the others.
* `load_store`: Loading what was stored.
* `store_load`: Storing what was loaded.
* `store_load_round_trip`: Both directions.
-/

namespace Chip8

/-- Stores the registers up to `x` in memory. -/
def Instruction.store (x : UInt8) : Instruction :=
  ⟨.regdump, .register x, rfl⟩

/-- Loads the registers up to `x` from memory. -/
def Instruction.load (x : UInt8) : Instruction :=
  ⟨.regload, .register x, rfl⟩

namespace Machine

/-- The registers up to `x`, and `x` too. -/
def registersTo (x : UInt8) (m : Machine) : List UInt8 :=
  (List.range (x.toNat + 1)).map m.reg

variable {x : UInt8} {m : Machine}

theorem length_registersTo (x : UInt8) (m : Machine) :
    (m.registersTo x).length = x.toNat + 1 := by
  rw [registersTo, List.length_map, List.length_range]

theorem getElem?_registersTo {n : Nat} (hn : n ≤ x.toNat) (m : Machine) :
    (m.registersTo x)[n]? = some (m.reg n) := by
  rw [registersTo, List.getElem?_map, List.getElem?_range (Nat.lt_succ_of_le hn), Option.map_some]

/-- Storing registers writes them as one block. -/
theorem execute_store {memory : Memory}
    (h : m.memory.write m.i.toNat (m.registersTo x) = .ok memory) :
    m.execute (.store x) = (.ok .quiet, { m with memory := memory }.advance) := by
  unfold registersTo at h
  simp only [execute, Instruction.store, Operands.x, h]

/-- Loading registers reads one block and lays it over them. -/
theorem execute_load {bytes : List UInt8} (h : m.memory.block m.i.toNat (x.toNat + 1) = .ok bytes) :
    m.execute (.load x) = (.ok .quiet, { m with v := overlay m.v 0 bytes }.advance) := by
  simp only [execute, Instruction.load, Operands.x, h]

/-- Registers that are loaded are the bytes of the block, and the others are not
    touched. -/
theorem reg_overlay {n : Nat} (hn : n < registerCount) (bytes : List UInt8) :
    ({ m with v := overlay m.v 0 bytes }.advance).reg n = bytes[n]?.getD (m.reg n) := by
  have hmod : n % registerCount = n := Nat.mod_eq_of_lt hn
  simp only [reg, advance, hmod, getElem_overlay, Nat.zero_le, if_true, Nat.sub_zero,
    List.getD_eq_getElem?_getD]

-- The registers that are loaded are those that would be stored.
theorem registersTo_overlay (hx : x.toNat < registerCount) {bytes : List UInt8}
    (hlength : bytes.length = x.toNat + 1) :
    ({ m with v := overlay m.v 0 bytes }.advance).registersTo x = bytes := by
  refine List.ext_getElem? fun n => ?_
  rcases Nat.lt_or_ge n (x.toNat + 1) with hn | hn
  · have hbyte : bytes[n]? = some bytes[n] := List.getElem?_eq_getElem (by rwa [hlength])
    rw [getElem?_registersTo (Nat.le_of_lt_succ hn), reg_overlay (Nat.lt_of_lt_of_le hn hx), hbyte,
      Option.getD_some]
  · rw [List.getElem?_eq_none (by rwa [length_registersTo]),
      List.getElem?_eq_none (by rwa [hlength])]

/-- Loading what was stored. The machine in between has the index register and the
    block as storing has left them, and is any other machine apart from that. -/
theorem load_store {memory : Memory}
    (hwrite : m.memory.write m.i.toNat (m.registersTo x) = .ok memory) {changed : Machine}
    (hi : changed.i = m.i)
    (hblock : ∀ k ≤ x.toNat, changed.memory[m.i.toNat + k]? = memory[m.i.toNat + k]?) :
    ∃ loaded, changed.execute (.load x) = (.ok .quiet, loaded) ∧
      (∀ n < registerCount, loaded.reg n = if n ≤ x.toNat then m.reg n else changed.reg n) ∧
      loaded = { changed with v := loaded.v, ip := changed.ip + 2 } := by
  -- The block is the one that was stored, in a memory that has it from there.
  have hread : changed.memory.block changed.i.toNat (x.toNat + 1) = .ok (m.registersTo x) := by
    have hwritten := Memory.block_of_write hwrite
    rw [length_registersTo] at hwritten
    rw [hi]
    exact Memory.block_congr hwritten fun k hk => hblock k (Nat.le_of_lt_succ hk)
  refine ⟨_, execute_load hread, fun n hn => ?_, rfl⟩
  rw [reg_overlay hn]
  split
  · rename_i hle
    rw [getElem?_registersTo hle, Option.getD_some]
  · rename_i hgt
    have hnone : (m.registersTo x)[n]? = none :=
      List.getElem?_eq_none (by rw [length_registersTo]; omega)
    rw [hnone, Option.getD_none]

/-- Storing what was loaded. -/
theorem store_load (hx : x.toNat < registerCount) {bytes : List UInt8}
    (hread : m.memory.block m.i.toNat (x.toNat + 1) = .ok bytes) :
    ∃ loaded stored, m.execute (.load x) = (.ok .quiet, loaded) ∧
      loaded.execute (.store x) = (.ok .quiet, stored) ∧ stored.memory = m.memory := by
  have hwrite : ({ m with v := overlay m.v 0 bytes }.advance).memory.write m.i.toNat
      (({ m with v := overlay m.v 0 bytes }.advance).registersTo x) = .ok m.memory := by
    rw [registersTo_overlay hx (Memory.length_of_block hread)]
    exact Memory.write_of_block hread
  exact ⟨_, _, execute_load hread, execute_store hwrite, rfl⟩

/-- Storing and loading registers undo each other, wherever the block lies in
    memory. Registers that are stored, changed in any way and loaded are what they
    were when they were stored, if the index register and the block have been left
    alone; those beyond the last one named stay changed, and so does all else but the
    instruction pointer. And storing registers that have just been loaded leaves
    memory as it was. -/
theorem store_load_round_trip (x : UInt8) (hx : x.toNat < registerCount) (m : Machine)
    (hroom : m.i.toNat + x.toNat + 1 ≤ memorySize) :
    (∃ stored, m.execute (.store x) = (.ok .quiet, stored) ∧
      ∀ changed : Machine, changed.i = stored.i →
        (∀ k ≤ x.toNat, changed.memory[m.i.toNat + k]? = stored.memory[m.i.toNat + k]?) →
        ∃ loaded, changed.execute (.load x) = (.ok .quiet, loaded) ∧
          (∀ n < registerCount, loaded.reg n = if n ≤ x.toNat then m.reg n else changed.reg n) ∧
          loaded = { changed with v := loaded.v, ip := changed.ip + 2 }) ∧
    ∃ loaded stored, m.execute (.load x) = (.ok .quiet, loaded) ∧
      loaded.execute (.store x) = (.ok .quiet, stored) ∧ stored.memory = m.memory := by
  constructor
  · have hwrite : m.memory.write m.i.toNat (m.registersTo x)
        = .ok (overlay m.memory m.i.toNat (m.registersTo x)) := by
      rw [Memory.write, if_pos (by rwa [length_registersTo])]
    exact ⟨_, execute_store hwrite, fun changed hi hblock => load_store hwrite hi hblock⟩
  · have hread : ∃ bytes, m.memory.block m.i.toNat (x.toNat + 1) = .ok bytes :=
      Memory.exists_block_eq_ok m.memory hroom
    rcases hread with ⟨bytes, hread⟩
    exact store_load hx hread

/-- A machine whose index register leaves room for six bytes. -/
def beforeEnd : Machine :=
  (idle 0).after [.load [], .setRegister Register.i.number 4090, .setRegister 2 7]

/-- Up to the last byte of memory, and with registers that change on both sides of the
    last one named. -/
theorem store_load_round_trip_end :
    beforeEnd.i.toNat + (5 : UInt8).toNat + 1 = memorySize ∧
      (∃ stored loaded, beforeEnd.execute (.store 5) = (.ok .quiet, stored) ∧
        ((stored.setReg 2 1).setReg 6 8).execute (.load 5) = (.ok .quiet, loaded) ∧
        loaded.reg 2 = 7 ∧ loaded.reg 6 = 8) ∧
      ∃ loaded stored, beforeEnd.execute (.load 5) = (.ok .quiet, loaded) ∧
        loaded.execute (.store 5) = (.ok .quiet, stored) ∧ stored.memory = beforeEnd.memory := by
  have hend : beforeEnd.i.toNat + (5 : UInt8).toNat + 1 = memorySize ∧ beforeEnd.reg 2 = 7 := by
    decide +kernel
  rcases store_load_round_trip 5 (by decide) beforeEnd hend.1.le with ⟨⟨stored, hstore, hload⟩, h⟩
  rcases hload ((stored.setReg 2 1).setReg 6 8) rfl fun _ _ => rfl with
    ⟨loaded, hexecute, hreg, _⟩
  refine ⟨hend.1, ⟨stored, loaded, hstore, hexecute, ?_, ?_⟩, h⟩
  · rw [hreg 2 (by decide), if_pos (by decide), hend.2]
  · rw [hreg 6 (by decide), if_neg (by decide)]
    exact reg_setReg_self 6 8 _

end Machine

end Chip8

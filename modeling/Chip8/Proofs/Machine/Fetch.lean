import Chip8.Machine.Basic
import Chip8.Proofs.Machine.Memory

/-!
# Fetching from a Loaded Program

A loaded program lies in memory byte by byte, and what the machine fetches is
decided by two bytes alone, those at the instruction pointer and behind it.
The machine reads them as a block; here they are looked up one at a time, so
that facts about single bytes, such as what loading puts into memory, speak
about the instruction too.

## Main definitions

* `Memory.Holds`: A program lies in memory at its address.

## Theorems

* `Memory.holds_ofProgram`: Loading a program puts it there.
* `fetch_of_not_loaded`, `fetch_of_beyond`: When there is nothing to fetch.
* `fetch_of_bytes`, `fetch_of_holds`: What a machine fetches, by the bytes that it reads.
* `exists_bytes_of_fetch`: Where a fetched instruction comes from.
* `toNat_ip_add_two`: The address behind it does not wrap around.
-/

namespace Chip8

/-- A program lies in memory, from the address at which programs start. -/
def Memory.Holds (memory : Memory) (program : List UInt8) : Prop :=
  ∀ k < program.length, memory[programStart + k]? = program[k]?

instance (memory : Memory) (program : List UInt8) : Decidable (memory.Holds program) :=
  inferInstanceAs (Decidable (∀ k < program.length, _))

/-- A program that fits lies in memory once it has been loaded. -/
theorem Memory.holds_ofProgram {program : List UInt8}
    (hfit : programStart + program.length ≤ memorySize) :
    (Memory.ofProgram program).Holds program := by
  intro k hk
  have hin : programStart + k < memorySize := by omega
  rw [Vector.getElem?_eq_getElem hin, ofProgram, getElem_overlay, if_pos (Nat.le_add_right _ _),
    Nat.add_sub_cancel_left, List.getD_eq_getElem?_getD, List.getElem?_eq_getElem hk,
    Option.getD_some]

namespace Machine

theorem load_of_fit {program : List UInt8} (hfit : programStart + program.length ≤ memorySize)
    (m : Machine) : m.load program = (.ok (), start program m.random) :=
  if_pos hfit

theorem fetch_of_not_loaded {m : Machine} (hloaded : m.loaded = false) :
    m.fetch = .error .notLoaded := by
  rw [fetch, if_neg (Bool.eq_false_iff.mp hloaded)]

theorem fetch_of_beyond {m : Machine} (hloaded : m.loaded = true)
    (hout : memorySize < m.ip.toNat + 2) : m.fetch = .error (.outOfBounds (m.ip.toNat + 1)) := by
  rw [fetch, if_pos hloaded, (Memory.block_eq_error_iff _ _ _).mpr ⟨hout, rfl⟩]
  rfl

/-- The machine fetches what the two bytes at its instruction pointer encode. -/
theorem fetch_of_bytes {m : Machine} {hi lo : UInt8} (hloaded : m.loaded = true)
    (hhi : m.memory[m.ip.toNat]? = some hi) (hlo : m.memory[m.ip.toNat + 1]? = some lo) :
    m.fetch = match Instruction.decode? (wordOfBytes hi lo) with
      | some ins => .ok ins
      | none => .error (.undecodable m.ip (wordOfBytes hi lo)) := by
  rw [fetch, if_pos hloaded, Memory.block_two hhi hlo]
  rfl

/-- Inside a program, these are two bytes of the program. -/
theorem fetch_of_holds {m : Machine} {front behind : List UInt8} {hi lo : UInt8}
    (hloaded : m.loaded = true) (hholds : m.memory.Holds (front ++ hi :: lo :: behind))
    (hip : m.ip.toNat = programStart + front.length) :
    m.fetch = match Instruction.decode? (wordOfBytes hi lo) with
      | some ins => .ok ins
      | none => .error (.undecodable m.ip (wordOfBytes hi lo)) := by
  have hlength : (front ++ hi :: lo :: behind).length = front.length + (behind.length + 2) :=
    List.length_append
  refine fetch_of_bytes hloaded ?_ ?_
  · rw [hip, hholds _ (by omega), List.getElem?_append_right (Nat.le_refl _), Nat.sub_self]
    rfl
  · rw [hip, Nat.add_assoc, hholds _ (by omega),
      List.getElem?_append_right (Nat.le_add_right _ _), Nat.add_sub_cancel_left]
    rfl

/-- A machine that fetches an instruction has its two bytes in memory. -/
theorem exists_bytes_of_fetch {m : Machine} {ins : Instruction} (h : m.fetch = .ok ins) :
    ∃ hi lo, m.memory[m.ip.toNat]? = some hi ∧ m.memory[m.ip.toNat + 1]? = some lo ∧
      Instruction.decode? (wordOfBytes hi lo) = some ins := by
  cases hloaded : m.loaded with
  | false =>
      -- Without a program, nothing is fetched.
      rw [fetch_of_not_loaded hloaded] at h
      exact nomatch h
  | true =>
      by_cases hout : memorySize < m.ip.toNat + 2
      · rw [fetch_of_beyond hloaded hout] at h
        exact nomatch h
      · rcases m.memory.exists_two_bytes (Nat.le_of_not_lt hout) with ⟨hi, lo, hhi, hlo⟩
        rw [fetch_of_bytes hloaded hhi hlo] at h
        split at h
        · rename_i found hdecode
          cases h
          exact ⟨_, _, hhi, hlo, hdecode⟩
        · exact nomatch h

/-- A fetched instruction lies in memory as a whole. -/
theorem ip_add_two_le_of_fetch {m : Machine} {ins : Instruction} (h : m.fetch = .ok ins) :
    m.ip.toNat + 2 ≤ memorySize := by
  rcases exists_bytes_of_fetch h with ⟨_, _, _, hlo, _⟩
  rcases Vector.getElem?_eq_some_iff.mp hlo with ⟨hlt, _⟩
  exact hlt

-- The addresses behind it, and behind the word that may be skipped, do not wrap
-- around.
theorem toNat_ip_add_two {m : Machine} {ins : Instruction} (h : m.fetch = .ok ins) :
    (m.ip + 2).toNat = m.ip.toNat + 2 := by
  have hip := ip_add_two_le_of_fetch h
  rw [UInt16.toNat_add]
  exact Nat.mod_eq_of_lt (Nat.lt_of_le_of_lt hip (by decide))

theorem toNat_ip_add_four {m : Machine} {ins : Instruction} (h : m.fetch = .ok ins) :
    (m.ip + 4).toNat = m.ip.toNat + 4 := by
  have hip := ip_add_two_le_of_fetch h
  rw [UInt16.toNat_add]
  exact Nat.mod_eq_of_lt (Nat.lt_of_le_of_lt (Nat.add_le_add_right hip 2) (by decide))

end Machine

end Chip8

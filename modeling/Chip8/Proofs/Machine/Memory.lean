import Chip8.Machine.Memory

/-!
# Blocks of Memory

What an access to a block comes to. It is refused if the block does not end in
memory, and in no other case. A block that is read has the bytes that lie in
memory, in order and as many as were asked for. A block that is written leaves
the bytes around it alone.

## Theorems

* `block_eq_error_iff`, `write_eq_error_iff`: When an access is refused.
* `length_of_block`, `getElem?_of_block`: What is read.
* `block_two`: Two bytes that lie next to each other.
* `block_congr`: Memories that agree on a block.
* `getElem_write_of_outside`: What writing leaves alone.
* `block_of_write`: What has been written is read.
* `write_of_block`: Writing what has been read changes nothing.
-/

namespace Chip8

theorem getElem_overlay_of_outside {α : Type} {n : Nat} {cells : Vector α n} {start : Nat}
    {block : List α} {k : Nat} (hk : k < n) (h : ¬(start ≤ k ∧ k < start + block.length)) :
    (overlay cells start block)[k] = cells[k] := by
  rw [getElem_overlay]
  split
  · rename_i hstart
    have hbehind : block.length ≤ k - start := by omega
    rw [List.getD_eq_getElem?_getD, List.getElem?_eq_none hbehind, Option.getD_none]
  · rfl

namespace Memory

/-! ## Refusals -/

section

variable {e : ExecutionError}

/-- A block is refused that does not end in memory, and the error names its last
    address. -/
theorem block_eq_error_iff (memory : Memory) (address length : Nat) :
    memory.block address length = .error e ↔
      memorySize < address + length ∧ e = .outOfBounds (address + length - 1) := by
  unfold block
  split
  · rename_i hin
    exact iff_of_false (fun h => nomatch h) (fun h => absurd h.1 (Nat.not_lt.mpr hin))
  · rename_i hout
    rw [Except.error.injEq, eq_comm, and_iff_right (Nat.lt_of_not_le hout)]

theorem write_eq_error_iff (memory : Memory) (address : Nat) (bytes : List UInt8) :
    memory.write address bytes = .error e ↔
      memorySize < address + bytes.length ∧ e = .outOfBounds (address + bytes.length - 1) := by
  unfold write
  split
  · rename_i hin
    exact iff_of_false (fun h => nomatch h) (fun h => absurd h.1 (Nat.not_lt.mpr hin))
  · rename_i hout
    rw [Except.error.injEq, eq_comm, and_iff_right (Nat.lt_of_not_le hout)]

end

/-! ## Reading -/

theorem exists_block_eq_ok (memory : Memory) {address length : Nat}
    (h : address + length ≤ memorySize) : ∃ bytes, memory.block address length = .ok bytes :=
  ⟨_, dif_pos h⟩

section

variable {memory : Memory} {address length : Nat} {bytes : List UInt8}

theorem length_of_block (h : memory.block address length = .ok bytes) :
    bytes.length = length := by
  unfold block at h
  split at h
  · cases h
    exact List.length_ofFn
  · cases h

theorem getElem?_of_block (h : memory.block address length = .ok bytes) {k : Nat}
    (hk : k < length) : bytes[k]? = memory[address + k]? := by
  unfold block at h
  split at h
  · rename_i hin
    cases h
    have hlt : address + k < memorySize := by omega
    rw [List.getElem?_ofFn, dif_pos hk, Vector.getElem?_eq_getElem hlt]
  · cases h

/-- Memories that agree on a block have the same bytes there. -/
theorem block_congr {memory' : Memory} (h : memory.block address length = .ok bytes)
    (hsame : ∀ k < length, memory'[address + k]? = memory[address + k]?) :
    memory'.block address length = .ok bytes := by
  -- A block that was read lies inside of memory, so the other memory has one there too.
  have hin : address + length ≤ memorySize := by
    refine Nat.le_of_not_lt fun hout => ?_
    rw [block, dif_neg (Nat.not_le_of_lt hout)] at h
    exact nomatch h
  rcases exists_block_eq_ok memory' hin with ⟨bytes', h'⟩
  have heq : bytes' = bytes := by
    refine List.ext_getElem? fun k => ?_
    rcases Nat.lt_or_ge k length with hk | hk
    · rw [getElem?_of_block h' hk, hsame k hk, getElem?_of_block h hk]
    · rw [List.getElem?_eq_none (by rwa [length_of_block h']),
        List.getElem?_eq_none (by rwa [length_of_block h])]
  rw [h', heq]

end

theorem exists_two_bytes (memory : Memory) {address : Nat} (h : address + 2 ≤ memorySize) :
    ∃ hi lo, memory[address]? = some hi ∧ memory[address + 1]? = some lo :=
  ⟨_, _, Vector.getElem?_eq_getElem (by omega), Vector.getElem?_eq_getElem (by omega)⟩

-- Two bytes that lie next to each other, read as one block.
theorem block_two {memory : Memory} {address : Nat} {hi lo : UInt8}
    (hhi : memory[address]? = some hi) (hlo : memory[address + 1]? = some lo) :
    memory.block address 2 = .ok [hi, lo] := by
  rcases Vector.getElem?_eq_some_iff.mp hhi with ⟨_, hhi⟩
  rcases Vector.getElem?_eq_some_iff.mp hlo with ⟨hlt, hlo⟩
  rw [block, dif_pos (show address + 2 ≤ memorySize by omega)]
  simp only [List.ofFn_succ, List.ofFn_zero, Fin.val_zero, Nat.add_zero, Fin.val_succ,
    Nat.zero_add, hhi, hlo]

/-! ## Writing -/

/-- Writing a block leaves the bytes around it. -/
theorem getElem_write_of_outside {memory memory' : Memory} {address : Nat}
    {bytes : List UInt8} (hwrite : memory.write address bytes = .ok memory') {k : Nat}
    (hk : k < memorySize) (h : ¬(address ≤ k ∧ k < address + bytes.length)) :
    memory'[k] = memory[k] := by
  unfold write at hwrite
  split at hwrite
  · cases hwrite
    exact getElem_overlay_of_outside hk h
  · cases hwrite

/-- A block that has been written is read as it was written. -/
theorem block_of_write {memory memory' : Memory} {address : Nat} {bytes : List UInt8}
    (hwrite : memory.write address bytes = .ok memory') :
    memory'.block address bytes.length = .ok bytes := by
  unfold write at hwrite
  split at hwrite
  · rename_i hin
    cases hwrite
    rw [block, dif_pos hin, Except.ok.injEq]
    refine List.ext_getElem List.length_ofFn fun k _ hk => ?_
    rw [List.getElem_ofFn, getElem_overlay, if_pos (Nat.le_add_right address k),
      Nat.add_sub_cancel_left, List.getD_eq_getElem?_getD, List.getElem?_eq_getElem hk,
      Option.getD_some]
  · cases hwrite

/-- Writing a block that has just been read there changes nothing. -/
theorem write_of_block {memory : Memory} {address length : Nat} {bytes : List UInt8}
    (hblock : memory.block address length = .ok bytes) :
    memory.write address bytes = .ok memory := by
  have hlength := length_of_block hblock
  unfold block at hblock
  split at hblock
  · rename_i hin
    rw [write, if_pos (by rwa [hlength]), Except.ok.injEq]
    refine Vector.ext fun k hk => ?_
    -- Inside of the block the bytes are those that were read, and outside nothing is written.
    by_cases hinside : address ≤ k ∧ k < address + bytes.length
    · cases hblock
      rw [getElem_overlay, if_pos hinside.1, List.getD_eq_getElem?_getD,
        List.getElem?_eq_getElem (by omega), Option.getD_some, List.getElem_ofFn]
      simp only [Nat.add_sub_cancel' hinside.1]
    · exact getElem_overlay_of_outside hk hinside
  · cases hblock

end Memory

end Chip8

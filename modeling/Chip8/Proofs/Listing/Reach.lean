import Chip8.Proofs.Listing.Coverage
import Mathlib.Order.Bounds.Defs

/-!
# The Search for Code Is Exact

What the search marks is what control reaches, and this can be said without a
search. Offsets are closed under control flow if they hold the first one and,
with an instruction, everything that the instruction may pass control to, as far
as there is a whole word at that place. The marked offsets are the least ones of
that kind, so the order of the visits does not matter, nor how often an offset
is on the work list before its turn comes.

That they are closed was the invariant of the search. That nothing else is
marked is a second one: the offsets that are marked, and those on the work list
at which there is a word, are reached. It needs no fuel. Fuel that is left over
does nothing, so the search does not depend on it.

Addresses have 16 bits and bytes can be many more. Beyond the last address there
is no code. What control reaches is an address, and where the next one would be
past the end, it wraps around to a place below the program, which is not
searched. The addresses of code are therefore the same as without a limit.

The address of the first byte is a parameter here. A program starts at
`programStart`, but a part of it does not.

## Main definitions

* `Instruction.unboundedSuccessors`: Successors that do not wrap around.
* `Coverage.instructionAt?`: The instruction at an offset.
* `Coverage.Passes`: Control may pass from one offset to another.
* `Coverage.FlowClosed`: Offsets that hold the first one and that control does
  not leave.
* `Coverage.Reached`: Offsets on a path from the first one.

## Theorems

* `isLeast_reached`: The offsets on such a path are the least closed ones.
* `explore_sound`: The search marks what is reached.
* `explore_add`: Fuel that is left over does nothing.
* `isMarked_iff_reached`, `mem_codeOffsets_iff_reached`: What is marked is what is
  reached.
* `Reached.address_lt`: There is no code beyond the last address.
* `mem_unboundedSuccessors`: An address that wraps around lies below the program.
* `codeOffsets_isLeast`: The search finds the least closed offsets.
-/

namespace Chip8

namespace Instruction

/-- The addresses that control may reach from an instruction, if addresses had no
    limit. -/
def unboundedSuccessors (i : Instruction) (ip : Nat) : List Nat :=
  match i.op with
  | .jmp => [i.operands.nnn.toNat]
  | .call | .callptr => [i.operands.nnn.toNat, ip + 2]
  | .skeqi | .skneqi | .skeqr | .skneqr | .skeqkey | .skneqkey => [ip + 2, ip + 4]
  | .ret | .brelv0 => []
  | _ => [ip + 2]

theorem successors_toUInt16 (i : Instruction) (ip : Nat) :
    i.successors ip.toUInt16 = (i.unboundedSuccessors ip).map Nat.toUInt16 := by
  have htwo : (ip + 2).toUInt16 = ip.toUInt16 + 2 := UInt16.ofNat_add ip 2
  have hfour : (ip + 4).toUInt16 = ip.toUInt16 + 4 := UInt16.ofNat_add ip 4
  have hnnn : i.operands.nnn.toNat.toUInt16 = i.operands.nnn := UInt16.ofNat_toNat
  cases hop : i.op <;>
    simp only [successors, unboundedSuccessors, hop, List.map_cons, List.map_nil, htwo, hfour, hnnn]

-- What is added to an address is little.
theorem le_of_mem_unboundedSuccessors {i : Instruction} {ip address : Nat}
    (h : address ∈ i.unboundedSuccessors ip) : address < 0x10000 ∨ address ≤ ip + 4 := by
  have hnnn : i.operands.nnn.toNat < 0x10000 := i.operands.nnn.toNat_lt
  unfold unboundedSuccessors at h
  split at h <;> simp only [List.mem_cons, List.not_mem_nil, or_false] at h <;> omega

/-- A successor is one that did not wrap around, as those that did are below the
    program. -/
theorem mem_unboundedSuccessors {i : Instruction} {ip : Nat} {address : UInt16}
    (hip : ip < 0x10000) (h : address ∈ i.successors ip.toUInt16)
    (hin : programStart ≤ address.toNat) : address.toNat ∈ i.unboundedSuccessors ip := by
  rw [successors_toUInt16] at h
  rcases List.mem_map.mp h with ⟨unbounded, hmem, rfl⟩
  have hwrap : unbounded.toUInt16.toNat = unbounded % 0x10000 := UInt16.toNat_ofNat'
  have hlow : programStart = 0x200 := rfl
  have hle := le_of_mem_unboundedSuccessors hmem
  have heq : unbounded % 0x10000 = unbounded := by omega
  rwa [hwrap, heq]

end Instruction

namespace Coverage

/-- The instruction at an offset, if there is a whole word and it decodes. -/
def instructionAt? (bytes : List UInt8) (offset : Nat) : Option Instruction :=
  (wordAt? bytes.toArray offset).bind Instruction.decode?

theorem getElem?_of_drop {bytes rest : List UInt8} {offset : Nat} {b : UInt8}
    (h : bytes.drop offset = b :: rest) : bytes[offset]? = some b := by
  rw [← List.head?_drop, h, List.head?_cons]

-- The instruction in front of what follows an offset.
theorem instructionAt?_of_drop {bytes rest : List UInt8} {offset : Nat} {hi lo : UInt8}
    (h : bytes.drop offset = hi :: lo :: rest) :
    instructionAt? bytes offset = Instruction.decode? (wordOfBytes hi lo) := by
  have hnext : bytes.drop (offset + 1) = lo :: rest := by
    rw [← List.drop_drop, h, List.drop_succ_cons, List.drop_zero]
  rcases List.getElem?_eq_some_iff.mp (getElem?_of_drop h) with ⟨_, hhi⟩
  rcases List.getElem?_eq_some_iff.mp (getElem?_of_drop hnext) with ⟨hlt, hlo⟩
  have hword : wordAt? bytes.toArray offset = some (wordOfBytes hi lo) := by
    rw [wordAt?, dif_pos (by rw [List.size_toArray]; exact hlt)]
    simp only [List.getElem_toArray, hhi, hlo]
  rw [instructionAt?, hword, Option.bind_some]

theorem instructionAt?_lt {bytes : List UInt8} {offset : Nat} {i : Instruction}
    (h : instructionAt? bytes offset = some i) : offset + 1 < bytes.length := by
  rcases Option.bind_eq_some_iff.mp h with ⟨_, hword, _⟩
  exact wordAt?_eq_some hword

theorem exists_drop_of_instructionAt? {bytes : List UInt8} {offset : Nat} {i : Instruction}
    (h : instructionAt? bytes offset = some i) :
    ∃ hi lo rest, bytes.drop offset = hi :: lo :: rest ∧
      Instruction.decode? (wordOfBytes hi lo) = some i := by
  have hlt := instructionAt?_lt h
  have hdrop : bytes.drop offset
      = bytes[offset] :: bytes[offset + 1] :: bytes.drop (offset + 2) := by
    rw [List.drop_eq_getElem_cons (by omega), List.drop_eq_getElem_cons hlt]
  exact ⟨_, _, _, hdrop, (instructionAt?_of_drop hdrop).symm.trans h⟩

/-- In bytes from an address on, the instruction at one offset may pass control
    to another offset, and there is a whole word there as well. -/
def Passes (base : Nat) (bytes : List UInt8) (source target : Nat) : Prop :=
  ∃ i, instructionAt? bytes source = some i ∧
    ∃ address ∈ i.successors (source + base).toUInt16,
      base ≤ address.toNat ∧ address.toNat - base = target ∧ target + 1 < bytes.length

/-- Offsets of words that hold the first one and that control does not leave. -/
structure FlowClosed (base : Nat) (bytes : List UInt8) (R : Set Nat) : Prop where
  /-- There is a whole word at each of them. -/
  inside : ∀ offset ∈ R, offset + 1 < bytes.length
  /-- The first word is one of them, if there is one. -/
  entry : 2 ≤ bytes.length → 0 ∈ R
  /-- Control passes from each of them to others of them only. -/
  flow : ∀ source ∈ R, ∀ target, Passes base bytes source target → target ∈ R

/-- The offsets that control reaches from the first one. -/
inductive Reached (base : Nat) (bytes : List UInt8) : Nat → Prop where
  | entry (h : 2 ≤ bytes.length) : Reached base bytes 0
  | pass {source target : Nat} (hsource : Reached base bytes source)
      (hpasses : Passes base bytes source target) : Reached base bytes target

section

variable {base : Nat} {bytes : List UInt8}

theorem Passes.lt {source target : Nat} (h : Passes base bytes source target) :
    target + 1 < bytes.length := by
  rcases h with ⟨_, _, _, _, _, _, hlt⟩
  exact hlt

theorem Reached.lt {offset : Nat} (h : Reached base bytes offset) : offset + 1 < bytes.length := by
  cases h with
  | entry hlen => exact hlen
  | pass _ hpasses => exact hpasses.lt

/-- What control reaches is an address. -/
theorem Reached.address_lt {offset : Nat} (h : Reached base bytes offset) (hbase : base < 0x10000) :
    offset + base < 0x10000 := by
  cases h with
  | entry _ => omega
  | pass _ hpasses =>
      rcases hpasses with ⟨_, _, address, _, hlow, rfl, _⟩
      rw [Nat.sub_add_cancel hlow]
      exact address.toNat_lt

theorem flowClosed_reached (base : Nat) (bytes : List UInt8) :
    FlowClosed base bytes {offset | Reached base bytes offset} where
  inside _ h := h.lt
  entry := .entry
  flow _ hsource _ hpasses := .pass hsource hpasses

/-- Everything that is reached is in every closed set of offsets. -/
theorem FlowClosed.mem_of_reached {R : Set Nat} (hR : FlowClosed base bytes R) {offset : Nat}
    (h : Reached base bytes offset) : offset ∈ R := by
  induction h with
  | entry hlen => exact hR.entry hlen
  | pass _ hpasses ih => exact hR.flow _ ih _ hpasses

theorem isLeast_reached (base : Nat) (bytes : List UInt8) :
    IsLeast {R | FlowClosed base bytes R} {offset | Reached base bytes offset} :=
  ⟨flowClosed_reached base bytes, fun _ hR _ h => hR.mem_of_reached h⟩

end

/-! ## The search -/

theorem leads_iff_passes (bytes : List UInt8) (source target : Nat) :
    Leads bytes.toArray source target ↔ Passes programStart bytes source target := by
  rw [Leads, Passes, instructionAt?, List.size_toArray]
  constructor
  · rintro ⟨word, hword, htarget, hlt⟩
    unfold targets at htarget
    split at htarget
    · -- Where no instruction decodes, control leads nowhere.
      exact absurd htarget List.not_mem_nil
    · rename_i i hdecode
      rcases List.mem_filterMap.mp htarget with ⟨address, hmem, hsome⟩
      split at hsome
      · rename_i hlow
        exact ⟨i, by rw [hword, Option.bind_some, hdecode], address, hmem, hlow,
          Option.some.inj hsome, hlt⟩
      · -- Addresses below the program are dropped from the targets.
        exact nomatch hsome
  · rintro ⟨i, hi, address, hmem, hlow, htarget, hlt⟩
    rcases Option.bind_eq_some_iff.mp hi with ⟨word, hword, hdecode⟩
    refine ⟨word, hword, ?_, hlt⟩
    rw [targets, hdecode]
    exact List.mem_filterMap.mpr ⟨address, hmem, by rw [if_pos hlow, htarget]⟩

/-- The search does not mark more than what is reached, as it only adds to its
    work what the offset of a visit leads to. -/
theorem explore_sound {bytes : Array UInt8} {p : Nat → Prop}
    (hflow : ∀ source target, p source → Leads bytes source target → p target)
    {fuel : Nat} {work : List Nat} {marks : Array Bool}
    (hwork : ∀ offset ∈ work, offset + 1 < bytes.size → p offset)
    (hmarks : ∀ offset, IsMarked marks offset → p offset) :
    ∀ offset, IsMarked (explore bytes fuel work marks) offset → p offset := by
  fun_induction explore bytes fuel work marks with
  | case1 => exact hmarks
  | case2 => exact hmarks
  | case3 fuel offset work marks word _ hword ih =>
      -- A visit puts targets on the list and marks its offset, and both are reached.
      have hvisit : p offset := hwork offset List.mem_cons_self (wordAt?_eq_some hword)
      refine ih ?_ ?_
      · intro other hother hlt
        rcases List.mem_append.mp hother with htarget | hrest
        · exact hflow offset other hvisit ⟨word, hword, htarget, hlt⟩
        · exact hwork other (List.mem_cons_of_mem offset hrest) hlt
      · intro other hother
        by_cases heq : offset = other
        · exact heq ▸ hvisit
        · exact hmarks other ((isMarked_setIfInBounds_iff heq).mp hother)
  | case4 fuel offset work marks _ ih =>
      exact ih (fun other hother => hwork other (List.mem_cons_of_mem offset hother)) hmarks

/-- What is marked is what is reached. -/
theorem isMarked_iff_reached (bytes : List UInt8) (offset : Nat) :
    IsMarked (codeMarks bytes.toArray) offset ↔ Reached programStart bytes offset := by
  constructor
  · -- The search starts without marks, and with the first word on its list.
    intro h
    refine explore_sound (p := Reached programStart bytes) ?_ ?_ ?_ offset h
    · exact fun source target hsource hleads =>
        .pass hsource ((leads_iff_passes bytes source target).mp hleads)
    · intro other hother hlt
      rw [List.mem_singleton.mp hother] at hlt ⊢
      exact .entry hlt
    · exact fun other hother => absurd hother (not_isMarked_replicate _ other)
  · -- What is reached is marked step by step, as the marks are closed under control.
    intro h
    refine ((mem_codeOffsets_iff bytes offset).mp ?_).2
    induction h with
    | entry hlen => exact zero_mem_codeOffsets hlen
    | pass _ hpasses ih =>
        exact mem_codeOffsets_of_leads ih ((leads_iff_passes bytes _ _).mpr hpasses)

theorem mem_codeOffsets_iff_reached (bytes : List UInt8) (offset : Nat) :
    offset ∈ codeOffsets bytes ↔ Reached programStart bytes offset := by
  rw [mem_codeOffsets_iff, isMarked_iff_reached, and_iff_right_iff_imp]
  exact fun h => Nat.lt_of_succ_lt h.lt

/-- Once the work is done, more fuel makes no difference. -/
theorem explore_add {bytes : Array UInt8} {fuel : Nat} {work : List Nat} {marks : Array Bool}
    (hfuel : work.length + 2 * unmarked marks ≤ fuel) (extra : Nat) :
    explore bytes (fuel + extra) work marks = explore bytes fuel work marks := by
  fun_induction explore bytes fuel work marks with
  | case1 work marks =>
      -- The list is empty when the fuel is gone, so the rest has nothing to do either.
      have hnil : work = [] := List.eq_nil_of_length_eq_zero (by omega)
      rw [hnil, Nat.zero_add]
      cases extra <;> rfl
  | case2 fuel marks => rw [Nat.succ_add, explore]
  | case3 fuel offset work marks word hmark hword ih =>
      rw [Nat.succ_add, explore, hword, hmark]
      exact ih (fuel_visit hmark word hfuel)
  | case4 fuel offset work marks hskip ih =>
      rw [Nat.succ_add, explore]
      split
      · rename_i word hword hmark
        exact absurd hmark (hskip word hword)
      · exact ih (by rw [List.length_cons] at hfuel; omega)

/-- The marked offsets are the least ones that hold the first word and that
    control does not leave. The search for them comes to an end, and it does not
    take an address for another one. -/
theorem codeOffsets_isLeast (bytes : List UInt8) :
    IsLeast {R | FlowClosed programStart bytes R} {offset | offset ∈ codeOffsets bytes} ∧
      (∀ fuel, 2 * bytes.length + 1 ≤ fuel →
        explore bytes.toArray fuel [0] (Array.replicate bytes.length false)
          = codeMarks bytes.toArray) ∧
      ∀ offset ∈ codeOffsets bytes, offset ≤ 0xFDFF ∧
        (offset + programStart).toUInt16.toNat = offset + programStart ∧
        ∀ i, instructionAt? bytes offset = some i →
          ∀ address ∈ i.successors (offset + programStart).toUInt16,
            programStart ≤ address.toNat →
              address.toNat ∈ i.unboundedSuccessors (offset + programStart) := by
  refine ⟨?_, ?_, ?_⟩
  · simp only [mem_codeOffsets_iff_reached]
    exact isLeast_reached programStart bytes
  · intro fuel hfuel
    rcases Nat.exists_eq_add_of_le hfuel with ⟨extra, rfl⟩
    exact explore_add (fuel_start bytes.length) extra
  · intro offset hmem
    -- A marked offset holds a word of the program, so its address does not wrap.
    have haddress : offset + programStart < 0x10000 :=
      ((mem_codeOffsets_iff_reached bytes offset).mp hmem).address_lt (by decide)
    refine ⟨?_, UInt16.toNat_ofNat_of_lt' haddress, fun i _ address hsucc hlow =>
      Instruction.mem_unboundedSuccessors haddress hsucc hlow⟩
    have hlow : programStart = 0x200 := rfl
    omega

/-- Two jumps to each other, and a byte of data behind them. -/
theorem codeOffsets_isLeast_loop :
    codeOffsets [0x12, 0x02, 0x12, 0x00, 0xAB] = [0, 2] ∧
      IsLeast {R | FlowClosed programStart [0x12, 0x02, 0x12, 0x00, 0xAB] R}
        {offset | offset ∈ [0, 2]} ∧
      explore #[0x12, 0x02, 0x12, 0x00, 0xAB] 100 [0] #[false, false, false, false, false]
        = #[true, false, true, false, false] ∧
      0x200 ∈ (⟨.jmp, .address 0x200, rfl⟩ : Instruction).unboundedSuccessors 0x202 := by
  rcases codeOffsets_isLeast [0x12, 0x02, 0x12, 0x00, 0xAB] with ⟨hleast, hfuel, haddress⟩
  have hoffsets : codeOffsets [0x12, 0x02, 0x12, 0x00, 0xAB] = [0, 2] := by decide +kernel
  rw [hoffsets] at hleast haddress
  refine ⟨hoffsets, hleast, ?_, ?_⟩
  · exact (hfuel 100 (by decide)).trans (by decide +kernel)
  · exact (haddress 2 (by decide)).2.2 ⟨.jmp, .address 0x200, rfl⟩ (by decide +kernel) 0x200
      (by decide) (by decide)

end Coverage

end Chip8

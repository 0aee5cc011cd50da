import Chip8.Listing.Coverage

/-!
# The Search for Code Is Complete

The offsets that are marked as code are closed under control flow: wherever
the word at a marked offset may pass control to, if there is a whole word at
that place, the place is marked too. Together with the mark at the first byte
this is what lets a run of the machine be followed on the listing.

The search runs on fuel, so the first question is whether it can run out. It
cannot. Every visit takes one offset off the work list, and only a visit that
sets a mark puts offsets on it, two at most. An offset that is not marked yet
therefore counts twice against the fuel, and one that waits on the list counts
once. `explore_spec` carries this through the search, together with the
invariant that control leaves the marked offsets only towards the work list.
Once the list is empty, control does not leave them at all.

## Main definitions

* `Coverage.IsMarked`: An offset that the search has reached.
* `Coverage.unmarked`: The number of offsets that are still to be reached.
* `Coverage.Leads`: Control may pass from one offset to another.
* `Coverage.Closed`: Control leaves the marks towards a work list only.

## Theorems

* `length_successors_le`: No instruction has more than two successors.
* `unmarked_setIfInBounds`: A new mark leaves one offset fewer.
* `fuel_visit`, `fuel_start`: The fuel pays for a visit, and for the search.
* `Closed.visit`, `Closed.skip`: One visit preserves the invariant.
* `explore_spec`: What the search preserves and where it ends.
* `zero_mem_codeOffsets`: The first word of a program is covered.
* `mem_codeOffsets_of_leads`: What a covered word leads to is covered.
-/

namespace Chip8

/-- No instruction has more than two successors. -/
theorem Instruction.length_successors_le (i : Instruction) (ip : UInt16) :
    (i.successors ip).length ≤ 2 := by
  unfold successors
  split <;> exact Nat.le_of_ble_eq_true rfl

namespace Coverage

theorem length_targets_le (word : UInt16) (offset : Nat) : (targets word offset).length ≤ 2 := by
  unfold targets
  split
  · exact Nat.zero_le 2
  · exact Nat.le_trans (List.length_filterMap_le _ _) (Instruction.length_successors_le _ _)

theorem wordAt?_eq_some {bytes : Array UInt8} {offset : Nat} {word : UInt16}
    (h : wordAt? bytes offset = some word) : offset + 1 < bytes.size := by
  unfold wordAt? at h
  split at h
  · rename_i hlt
    exact hlt
  · exact nomatch h

/-- The search has reached this offset. -/
def IsMarked (marks : Array Bool) (offset : Nat) : Prop :=
  marks[offset]? = some true

/-- The number of offsets that are not marked. -/
def unmarked (marks : Array Bool) : Nat :=
  marks.count false

/-- The word at an offset may pass control to another offset, and there is a
    word there as well. -/
def Leads (bytes : Array UInt8) (source target : Nat) : Prop :=
  ∃ word, wordAt? bytes source = some word ∧ target ∈ targets word source ∧
    target + 1 < bytes.size

/-- Control that leaves the marked offsets goes to the work list. -/
def Closed (bytes : Array UInt8) (marks : Array Bool) (work : List Nat) : Prop :=
  ∀ source target, IsMarked marks source → Leads bytes source target →
    IsMarked marks target ∨ target ∈ work

theorem isMarked_setIfInBounds_self {marks : Array Bool} {offset : Nat}
    (hlt : offset < marks.size) : IsMarked (marks.setIfInBounds offset true) offset :=
  Array.getElem?_setIfInBounds_self_of_lt hlt

theorem isMarked_setIfInBounds_iff {marks : Array Bool} {offset other : Nat}
    (hne : offset ≠ other) :
    IsMarked (marks.setIfInBounds offset true) other ↔ IsMarked marks other := by
  rw [IsMarked, IsMarked, Array.getElem?_setIfInBounds_ne hne]

-- A mark that is set stays set when others are.
theorem IsMarked.setIfInBounds {marks : Array Bool} {other : Nat} (h : IsMarked marks other)
    (offset : Nat) : IsMarked (marks.setIfInBounds offset true) other := by
  by_cases heq : offset = other
  · rcases Array.getElem?_eq_some_iff.mp h with ⟨hlt, _⟩
    exact heq ▸ isMarked_setIfInBounds_self (heq ▸ hlt)
  · exact (isMarked_setIfInBounds_iff heq).mpr h

/-- A new mark leaves one offset fewer. -/
theorem unmarked_setIfInBounds {marks : Array Bool} {offset : Nat}
    (h : marks[offset]? = some false) :
    unmarked (marks.setIfInBounds offset true) + 1 = unmarked marks := by
  rcases Array.getElem?_eq_some_iff.mp h with ⟨hlt, hfalse⟩
  have hpos : 0 < marks.count false :=
    Array.count_pos_iff.mpr (hfalse ▸ Array.getElem_mem hlt)
  rw [unmarked, unmarked, Array.setIfInBounds, dif_pos hlt, Array.count_set hlt, hfalse]
  simp only [beq_self_eq_true, if_true, Bool.true_beq, Bool.false_eq_true, if_false]
  omega

/-- One visit that sets a mark is paid for. Two offsets at most join the work
    list, and the new mark pays for both. -/
theorem fuel_visit {marks : Array Bool} {offset fuel : Nat} {work : List Nat}
    (hfree : marks.getD offset true = false) (word : UInt16)
    (hfuel : (offset :: work).length + 2 * unmarked marks ≤ fuel + 1) :
    (targets word offset ++ work).length + 2 * unmarked (marks.setIfInBounds offset true)
      ≤ fuel := by
  have hmark : marks[offset]? = some false := by
    rw [Array.getD_eq_getD_getElem?] at hfree
    cases hread : marks[offset]? with
    | none =>
        -- Beyond the marks, every offset reads as marked.
        rw [hread] at hfree
        exact absurd hfree (by decide)
    | some mark =>
        rw [hread, Option.getD_some] at hfree
        rw [hfree]
  -- Two offsets more on the list at most, and one fewer to be marked.
  have htwo := length_targets_le word offset
  have hone := unmarked_setIfInBounds hmark
  rw [List.length_cons] at hfuel
  rw [List.length_append]
  omega

/-- One visit that sets a mark. Control that leaves the new mark goes to the
    targets that are put on the list, and what went to the offset itself now
    goes to a mark. -/
theorem Closed.visit {bytes : Array UInt8} {marks : Array Bool} {offset : Nat}
    {work : List Nat} {word : UInt16} (h : Closed bytes marks (offset :: work))
    (hlt : offset < marks.size) (hword : wordAt? bytes offset = some word) :
    Closed bytes (marks.setIfInBounds offset true) (targets word offset ++ work) := by
  intro source target hsource hleads
  by_cases hself : offset = source
  · -- From the new mark, control goes to the targets, which are on the list.
    rcases hleads with ⟨found, hfound, htarget, _⟩
    rw [← hself] at hfound htarget
    have heq : found = word := Option.some.inj (hfound.symm.trans hword)
    rw [heq] at htarget
    exact Or.inr (List.mem_append_left work htarget)
  · -- From an old mark, it goes where it went before. That may be the offset itself, which was on
    -- the list and is marked now.
    have hold : IsMarked marks source := (isMarked_setIfInBounds_iff hself).mp hsource
    rcases h source target hold hleads with hmarked | hwork
    · exact Or.inl (hmarked.setIfInBounds offset)
    · rcases List.mem_cons.mp hwork with heq | htail
      · exact Or.inl (heq.symm ▸ isMarked_setIfInBounds_self hlt)
      · exact Or.inr (List.mem_append_right _ htail)

/-- One visit that sets no mark: the offset is marked already, or no word
    starts there. -/
theorem Closed.skip {bytes : Array UInt8} {marks : Array Bool} {offset : Nat}
    {work : List Nat} (h : Closed bytes marks (offset :: work))
    (hskip : offset + 1 < bytes.size → IsMarked marks offset) : Closed bytes marks work := by
  intro source target hsource hleads
  rcases h source target hsource hleads with hmarked | hwork
  · exact Or.inl hmarked
  · rcases List.mem_cons.mp hwork with heq | htail
    · rcases hleads with ⟨_, _, _, hlt⟩
      exact Or.inl (heq ▸ hskip (heq ▸ hlt))
    · exact Or.inr htail

/-- The search keeps its marks, marks what is on the work list, and ends with
    marks that control does not leave. The fuel has to pay for every offset on
    the list once, and twice for every offset that can still be marked. -/
theorem explore_spec {bytes : Array UInt8} {fuel : Nat} {work : List Nat} {marks : Array Bool}
    (hsize : marks.size = bytes.size) (hfuel : work.length + 2 * unmarked marks ≤ fuel)
    (hclosed : Closed bytes marks work) :
    (∀ offset, IsMarked marks offset → IsMarked (explore bytes fuel work marks) offset) ∧
      (∀ offset ∈ work, offset + 1 < bytes.size →
        IsMarked (explore bytes fuel work marks) offset) ∧
      Closed bytes (explore bytes fuel work marks) [] := by
  fun_induction explore bytes fuel work marks with
  | case1 work marks =>
      -- The fuel has paid for all that was on the list.
      have hnil : work = [] := List.eq_nil_of_length_eq_zero (by omega)
      rw [hnil] at hclosed ⊢
      exact ⟨fun _ h => h, List.forall_mem_nil _, hclosed⟩
  | case2 fuel marks => exact ⟨fun _ h => h, List.forall_mem_nil _, hclosed⟩
  | case3 fuel offset work marks word hmark hword ih =>
      -- A visit that sets a mark, which pays for the two targets.
      have hlt : offset < marks.size := by
        have := wordAt?_eq_some hword
        omega
      rcases ih (by rw [Array.size_setIfInBounds, hsize]) (fuel_visit hmark word hfuel)
        (hclosed.visit hlt hword) with ⟨hkept, hlisted, hdone⟩
      refine ⟨fun other h => hkept other (h.setIfInBounds offset), ?_, hdone⟩
      intro other hother hin
      rcases List.mem_cons.mp hother with heq | htail
      · rw [heq]
        exact hkept offset (isMarked_setIfInBounds_self hlt)
      · exact hlisted other (List.mem_append_right _ htail) hin
  | case4 fuel offset work marks hskip ih =>
      -- A visit that sets none. Either the mark is there, or there is no word at the offset.
      have hmarked : offset + 1 < bytes.size → IsMarked marks offset := by
        intro hin
        have hlt : offset < marks.size := by omega
        have hword : wordAt? bytes offset =
            some (wordOfBytes bytes[offset] bytes[offset + 1]) := dif_pos hin
        rw [IsMarked, Array.getElem?_eq_getElem hlt, Option.some.injEq]
        refine eq_true_of_ne_false fun hfalse => hskip _ hword ?_
        rw [Array.getD_eq_getD_getElem?, Array.getElem?_eq_getElem hlt, Option.getD_some, hfalse]
      rcases ih hsize (by rw [List.length_cons] at hfuel; omega) (hclosed.skip hmarked)
        with ⟨hkept, hlisted, hdone⟩
      refine ⟨hkept, ?_, hdone⟩
      intro other hother hin
      rcases List.mem_cons.mp hother with heq | htail
      · rw [heq] at hin ⊢
        exact hkept offset (hmarked hin)
      · exact hlisted other htail hin

-- At first nothing is marked.
theorem not_isMarked_replicate (size offset : Nat) :
    ¬IsMarked (Array.replicate size false) offset := by
  intro h
  rcases Array.getElem?_eq_some_iff.mp h with ⟨_, hmark⟩
  rw [Array.getElem_replicate] at hmark
  exact Bool.false_ne_true hmark

theorem fuel_start (size : Nat) :
    [0].length + 2 * unmarked (Array.replicate size false) ≤ 2 * size + 1 := by
  have hcount : unmarked (Array.replicate size false) ≤ (Array.replicate size false).size :=
    Array.count_le_size
  rw [Array.size_replicate] at hcount
  rw [List.length_singleton]
  omega

-- The marks of a program hold its first word, and control does not leave them.
theorem codeMarks_spec (bytes : Array UInt8) :
    (1 < bytes.size → IsMarked (codeMarks bytes) 0) ∧ Closed bytes (codeMarks bytes) [] := by
  rcases explore_spec Array.size_replicate (fuel_start bytes.size) fun source _ hsource _ =>
    absurd hsource (not_isMarked_replicate _ source) with ⟨_, hlisted, hdone⟩
  exact ⟨hlisted 0 (List.mem_singleton_self 0), hdone⟩

theorem mem_codeOffsets_iff (bytes : List UInt8) (offset : Nat) :
    offset ∈ codeOffsets bytes ↔
      offset < bytes.length ∧ IsMarked (codeMarks bytes.toArray) offset := by
  rw [codeOffsets, List.mem_filter, List.mem_range, IsMarked, Array.getD_eq_getD_getElem?]
  cases (codeMarks bytes.toArray)[offset]? with
  | none => simp only [Option.getD_none, reduceCtorEq, Bool.false_eq_true]
  | some mark => rw [Option.getD_some, Option.some.injEq]

/-- The first word of a program is covered. -/
theorem zero_mem_codeOffsets {bytes : List UInt8} (h : 1 < bytes.length) :
    0 ∈ codeOffsets bytes :=
  (mem_codeOffsets_iff bytes 0).mpr ⟨by omega, (codeMarks_spec bytes.toArray).1 h⟩

/-- What a covered word leads to is covered. -/
theorem mem_codeOffsets_of_leads {bytes : List UInt8} {source target : Nat}
    (hsource : source ∈ codeOffsets bytes) (hleads : Leads bytes.toArray source target) :
    target ∈ codeOffsets bytes := by
  rw [mem_codeOffsets_iff] at hsource ⊢
  rcases (codeMarks_spec bytes.toArray).2 source target hsource.2 hleads with hmarked | hwork
  · rcases hleads with ⟨_, _, _, hlt⟩
    rw [List.size_toArray] at hlt
    exact ⟨by omega, hmarked⟩
  · exact absurd hwork List.not_mem_nil

end Coverage

end Chip8

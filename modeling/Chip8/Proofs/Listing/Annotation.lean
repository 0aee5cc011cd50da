import Chip8.Proofs.Listing.Restamp
import Chip8.Proofs.Source.LineTable
import Chip8.Proofs.Source.Lines

/-!
# A Revision Keeps the Program

A revision of the stamps takes a stamp off each line and puts a new one in
front of it. A line that had two is left with the second one. The assembler
takes it off as well when it reads the lines, and behind the new stamp and a
blank it is a comment. Either could change the program, because a stamp in the
middle of a comment ends it.

It is saved by the source having no errors. A stamp that is left inside of a
comment leaves code behind that no assembler accepts. So all stamps that are
left on the lines of such a source start outside of comments, where they do no
harm.

What is written is then known to the letter. Each line that has bytes in the
program gets the stamp that its line table asks for, and all other lines get
none.

## Main definitions

* `Revision.annotated`: A line with bytes at an offset, as a revision writes
  it.

## Theorems

* `allAlike_of_read`: In a source without errors, lines may be padded or give
  up their stamps.
* `statements_written`: What a revision writes has the statements of the
  source.
* `showLines_eq_mapIdx`: What a revision writes, from the line table.
* `restamp_of_assemble`: A revision keeps the program and has exact stamps.
-/

namespace Chip8

open Text Comment

namespace Revision

/-! ## Lines of a source without errors -/

-- A stamp that is left on a line without errors starts outside of comments.
theorem alike_dropStamp_of_read {before : Nat} {line later : Text} (hnewline : '\n' ∉ line)
    (hread : ∃ found, Statement.read (uncomment before (line ++ ahead later)) = .ok found) :
    Alike before line (dropStamp line) := by
  refine Alike.dropStamp hnewline fun hstamped => Nat.mod_two_ne_one.mp fun hodd => ?_
  rcases hread with ⟨found, hfound⟩
  rcases exists_read_stamped_eq_error hodd hstamped (ahead later) with ⟨name, hfault⟩
  rw [hfound] at hfault
  exact nomatch hfault

theorem alike_pad (before : Nat) (line : Text) : Alike before line (pad line) := by
  rcases pad_eq_or line with heq | heq
  · rw [heq]
    exact .refl before line
  · rw [heq]
    exact .blank before line

/-- In a source without errors, each line may be padded, or give up the stamp
    that it starts with. -/
theorem allAlike_of_read {before : Nat} {ls ls' : List Text} (hls : ∀ l ∈ ls, '\n' ∉ l)
    (hread : ∀ code ∈ rowCodes before ls, ∃ found, Statement.read code = .ok found)
    (h : List.Forall₂ (fun l l' => l' = pad l ∨ l' = dropStamp l) ls ls') :
    AllAlike before ls ls' := by
  induction h generalizing before with
  | nil => exact .nil
  | @cons l l' ls ls' hline _ ih =>
      rw [List.forall_mem_cons] at hls
      rw [rowCodes, List.forall_mem_cons] at hread
      refine .cons ?_ (ih hls.2 hread.2)
      rcases hline with rfl | rfl
      · exact alike_pad before l
      · exact alike_dropStamp_of_read hls.1 hread.1

-- What is left of a line that was written, once its stamp is off again.
theorem dropStamp_showLine (offset : Nat) (bytes : List UInt8) (line : Text) :
    dropStamp (showLine offset bytes line) = pad line ∨
      dropStamp (showLine offset bytes line) = dropStamp line := by
  by_cases hbytes : bytes = []
  · rw [hbytes]
    exact Or.inr rfl
  · rw [showLine_of_ne_nil offset hbytes]
    exact Or.inl (dropStamp_append (isStamp_stamp offset bytes) _)

theorem forall₂_dropStamp_showLines (offset : Nat) (emitted : List (List UInt8))
    (ls : List Text) :
    List.Forall₂ (fun l l' => l' = pad l ∨ l' = dropStamp l) ls
      ((showLines offset emitted ls).map dropStamp) := by
  induction ls generalizing offset emitted with
  | nil => exact .nil
  | cons l ls ih => exact .cons (dropStamp_showLine offset _ l) (ih _ _)

/-! ## The same statements -/

section

variable {src : Text} {placed : List Placed} (h : Source.statements src = .ok placed)

include h

-- Lines in place of those of the source, if each is padded or gives up a stamp.
theorem placeLines_of_forall₂ {ls : List Text}
    (hls : List.Forall₂ (fun l l' => l' = pad l ∨ l' = dropStamp l) (bareLines src)
      (ls.map dropStamp)) :
    Source.placeLines ls = .ok placed := by
  have hnewline : ∀ l ∈ bareLines src, '\n' ∉ l := fun l hl => newline_not_mem_bareLines hl
  have hbare : Source.placeRows 1 (rowCodes 0 (bareLines src)) = .ok placed :=
    (Source.statements_eq_placeLines src).symm.trans h
  have hread : ∀ code ∈ rowCodes 0 (bareLines src), ∃ found, Statement.read code = .ok found :=
    fun code hcode => Source.exists_read_of_placeRows_eq_ok hbare hcode
  have halike := allAlike_of_read hnewline hread hls
  exact (Source.placeRows_congr (halike.read_rowCodes hnewline rfl) 1).trans hbare

theorem statements_joinRows_bareLines :
    Source.statements (joinRows (bareLines src)) = .ok placed := by
  rw [Source.statements_joinRows fun l hl => newline_not_mem_bareLines hl]
  refine placeLines_of_forall₂ h ?_
  rw [List.forall₂_map_right_iff]
  exact List.forall₂_same.mpr fun l _ => Or.inr rfl

/-- What a revision writes has the statements of the source. -/
theorem statements_written :
    Source.statements (terminate (showLines 0 (emitted (bareLines src)) (bareLines src)))
      = .ok placed := by
  have hnewline : ∀ l ∈ bareLines src, '\n' ∉ l := fun l hl => newline_not_mem_bareLines hl
  rw [Source.statements_terminate (newline_not_mem_showLines hnewline 0 _)]
  exact placeLines_of_forall₂ h (forall₂_dropStamp_showLines _ _ _)

theorem restamp_eq_ok :
    restamp src
      = .ok (terminate (showLines 0 (emitted (bareLines src)) (bareLines src))) := by
  rw [restamp_eq, statements_joinRows_bareLines h]
  rfl

/-- A source without errors can be revised, and keeps its statements. -/
theorem restamp_of_statements : ∃ t, restamp src = .ok t ∧ Source.statements t = .ok placed :=
  ⟨_, restamp_eq_ok h, statements_written h⟩

end

/-! ## Exact stamps -/

/-- A line that has bytes at an offset, as a revision writes it: behind the
    stamp of these bytes, and with a blank in between. A line without bytes is
    written as it is. -/
def annotated (offset : Nat) (bytes : List UInt8) (line : Text) : Text :=
  if bytes = [] then line
  else stamp offset bytes ++ (if line.head?.any isBlank then [] else [' ']) ++ line

-- Only on an empty line would the blank be missing.
theorem showLine_eq_annotated (offset : Nat) {bytes : List UInt8} {line : Text}
    (h : bytes ≠ [] → line ≠ []) : showLine offset bytes line = annotated offset bytes line := by
  by_cases hbytes : bytes = []
  · rw [hbytes]
    rfl
  · cases line with
    | nil => exact absurd rfl (h hbytes)
    | cons c line =>
        rw [showLine_of_ne_nil offset hbytes, annotated, if_neg hbytes, List.append_assoc]
        rw [pad, List.head?_cons, Option.any_some]
        split <;> rfl

-- Nothing is read from an empty line, whatever comments there are around it.
theorem bytesOn_empty_line (before : Nat) (later : Text) :
    Statement.bytesOn (uncomment before ([] ++ ahead later)) = [] := by
  rw [List.nil_append, uncomment, strip_ahead]
  rfl

-- The bytes on lines that are put together are those on each of them.
theorem showLines_emitted {ls : List Text} (hls : ∀ l ∈ ls, '\n' ∉ l) (offset : Nat) :
    showLines offset (emitted ls) ls
      = showLines offset ((rowCodes 0 (ls.map dropStamp)).map Statement.bytesOn) ls := by
  by_cases hnil : ls = []
  · rw [hnil]
    rfl
  · rw [emitted, codeRows_joinRows hls hnil]

/-- What a revision writes can be told from the line table of the program. -/
theorem showLines_eq_mapIdx {ls : List Text} {before first : Nat} {placed : List Placed}
    (h : Source.placeRows first (rowCodes before (ls.map dropStamp)) = .ok placed)
    (offset : Nat) :
    showLines offset ((rowCodes before (ls.map dropStamp)).map Statement.bytesOn) ls
      = ls.mapIdx fun n line =>
          annotated (offset + (Program.ofStatements placed).offsetOfLine (first + n))
            ((Program.ofStatements placed).bytesOfLine (first + n)) line := by
  induction ls generalizing before first placed offset with
  | nil => rfl
  | cons l ls ih =>
      rw [List.map_cons, rowCodes] at h ⊢
      generalize hcode :
        uncomment before (dropStamp l ++ ahead (joinRows (ls.map dropStamp))) = code at h ⊢
      rcases Source.exists_program_of_placeRows_cons h with
        ⟨rest, hrest, hbytes, hoffset, hbehind⟩
      have hline : Statement.bytesOn code ≠ [] → l ≠ [] := by
        rintro hne rfl
        rw [← hcode] at hne
        exact hne (bytesOn_empty_line before _)
      rw [List.map_cons, showLines, List.headD_cons, List.tail_cons, ih hrest, List.mapIdx_cons,
        Nat.add_zero first, hbytes]
      congr 1
      · -- The offset of a line does not matter if there are no bytes on it.
        by_cases hnone : Statement.bytesOn code = []
        · rw [hnone]
          rfl
        · rw [hoffset hnone, Nat.add_zero]
          exact showLine_eq_annotated offset hline
      · congr 1
        funext n line
        have hnext := hbehind (first + 1 + n) (by omega)
        have hnumber : first + (n + 1) = first + 1 + n := by omega
        rw [hnumber, hnext.1, hnext.2, Nat.add_assoc]

/-- A source that assembles can be revised. Its program stays the same, and
    its lines are written with the bytes and offsets that the line table of
    the program gives for them. -/
theorem restamp_of_assemble {src : Text} {program : Program}
    (h : Source.assemble src = .ok program) :
    ∃ t, restamp src = .ok t ∧ Source.assemble t = .ok program ∧
      rows t = (lines src).mapIdx (fun n line =>
        annotated (program.offsetOfLine (n + 1)) (program.bytesOfLine (n + 1)) (dropStamp line))
          ++ [[]] := by
  rcases exists_of_map_eq_ok h with ⟨placed, hplaced, rfl⟩
  have hnewline : ∀ l ∈ bareLines src, '\n' ∉ l := fun l hl => newline_not_mem_bareLines hl
  have hbare : Source.placeLines (bareLines src) = .ok placed := by
    rw [← Source.statements_joinRows hnewline]
    exact statements_joinRows_bareLines hplaced
  refine ⟨_, restamp_eq_ok hplaced, ?_, ?_⟩
  · rw [Source.assemble, statements_written hplaced]
    rfl
  · -- The offsets that are counted along the lines are those of the line table.
    rw [rows_terminate (newline_not_mem_showLines hnewline 0 _), showLines_emitted hnewline,
      showLines_eq_mapIdx hbare 0]
    congr 1
    refine List.ext_getElem (by simp only [List.length_mapIdx, bareLines, List.length_map]) ?_
    intro n _ _
    simp only [List.getElem_mapIdx, bareLines, List.getElem_map, Nat.zero_add, Nat.add_comm 1]

/-- Stamps of a text whose comment spans two lines. The first line has no bytes
    and gets no stamp, and on the second one the comment ends behind the
    stamp. -/
theorem restamp_spanning_comment :
    ∃ t, restamp "# spans\r\n#@ x # lines # jmp 0x200\r\n".toList = .ok t ∧
      Source.assemble t = .ok ⟨[0x12, 0x00], [2, 2]⟩ ∧
      rows t = ["# spans".toList, "#@ 0000 0200 : 12 00 # lines # jmp 0x200".toList, []] := by
  have h : Source.assemble "# spans\r\n#@ x # lines # jmp 0x200\r\n".toList
      = .ok ⟨[0x12, 0x00], [2, 2]⟩ := by decide +kernel
  rcases restamp_of_assemble h with ⟨t, ht, hprogram, hrows⟩
  exact ⟨t, ht, hprogram, hrows.trans (by decide +kernel)⟩

end Revision

end Chip8

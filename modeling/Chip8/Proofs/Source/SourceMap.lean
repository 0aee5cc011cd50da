import Chip8.Proofs.Session.Picture
import Chip8.Proofs.Source.CodeLines
import Chip8.Proofs.Source.LineTable

/-!
# The Line Table Is a Map of the Source

The line table has an entry for every byte of a program, and the entry is the
line that the byte was written on. Said from the side of the source, the lines
emit their bytes one after another, so the bytes of a line are one block behind
the bytes of all lines above, and the entries for the block, and no others, are
the number of the line. A line that emits nothing has no entries and does not
move the lines below it.

What a session takes for its current line is looked up in this table, at the
instruction pointer. The program of a session stays the same whatever is done to
it, so the answer is right at any time: it is the line that has emitted the byte
at the instruction pointer, and there is none when the instruction pointer is
not in the program. That the machine still holds this byte is another matter, as
programs may write over themselves.

## Main definitions

* `Source.EmittedBy`: The line that a byte of a program is from.
* `Source.entries`: The entries of numbered rows.

## Theorems

* `entries_eq_some_iff`: The entries of one row among others.
* `program_of_placeRows`: The program of rows that can all be read.
* `exists_block_of_codeOnLine?`: The bytes of a line are one block.
* `lines_eq_some_iff`: The entry for a byte is the line that it is from.
* `Session.program_follow`: A session keeps its program.
* `assemble_source_map`: The line table, the source and the current line.
-/

namespace Chip8

open Comment Statement Text

namespace Source

/-- A byte of the program, by its offset, is one of those that a line emits. The
    lines above emit the bytes in front of them. -/
def EmittedBy (src : Text) (offset line : Nat) : Prop :=
  ∃ code front block, codeOnLine? src line = some code ∧
    EmitsAll ((codeRows src).take (line - 1)) front ∧ Emits code block ∧
    front.length ≤ offset ∧ offset < front.length + block.length

/-! ## Entries -/

/-- The entries of rows that are numbered from `first` on, with the number of each
    row as often as it has bytes. -/
def entries (first : Nat) (rows : List Text) : List Nat :=
  (rows.zipIdx first).flatMap fun r => List.replicate (bytesOn r.1).length r.2

theorem entries_cons (first : Nat) (row : Text) (rows : List Text) :
    entries first (row :: rows)
      = List.replicate (bytesOn row).length first ++ entries (first + 1) rows := by
  rw [entries, List.zipIdx_cons, List.flatMap_cons, entries]

theorem entries_append (first : Nat) (above below : List Text) :
    entries first (above ++ below)
      = entries first above ++ entries (first + above.length) below := by
  rw [entries, List.zipIdx_append, List.flatMap_append, entries, entries]

theorem length_entries (first : Nat) (rows : List Text) :
    (entries first rows).length = (rows.flatMap bytesOn).length := by
  induction rows generalizing first with
  | nil => rfl
  | cons row rows ih =>
      rw [entries_cons, List.length_append, List.length_replicate, ih, List.flatMap_cons,
        List.length_append]

theorem bounds_of_mem_entries {first n : Nat} {rows : List Text} (h : n ∈ entries first rows) :
    first ≤ n ∧ n < first + rows.length := by
  rcases List.mem_flatMap.mp h with ⟨⟨row, line⟩, hrow, hn⟩
  rw [List.eq_of_mem_replicate hn]
  rcases List.mem_zipIdx hrow with ⟨hlow, hhigh, _⟩
  exact ⟨hlow, hhigh⟩

/-- Entries do not decrease. -/
theorem pairwise_entries (first : Nat) (rows : List Text) :
    (entries first rows).Pairwise (· ≤ ·) := by
  induction rows generalizing first with
  | nil => exact .nil
  | cons row rows ih =>
      rw [entries_cons, List.pairwise_append]
      refine ⟨List.pairwise_replicate.mpr (Or.inr (Nat.le_refl first)), ih (first + 1), ?_⟩
      intro n hn n' hn'
      rw [List.eq_of_mem_replicate hn]
      exact Nat.le_of_succ_le (bounds_of_mem_entries hn').1

/-- A row has its entries behind those of all rows above, one for each of its
    bytes, and no others. -/
theorem entries_eq_some_iff (first offset : Nat) (above below : List Text) (row : Text) :
    (entries first (above ++ row :: below))[offset]? = some (first + above.length) ↔
      (above.flatMap bytesOn).length ≤ offset ∧
        offset < (above.flatMap bytesOn).length + (bytesOn row).length := by
  rw [← length_entries first above, entries_append, entries_cons]
  by_cases habove : offset < (entries first above).length
  · -- An entry further up is smaller.
    rw [List.getElem?_append_left habove]
    refine iff_of_false (fun h => ?_) (by omega)
    have hbound := (bounds_of_mem_entries (List.mem_of_getElem? h)).2
    omega
  · rw [List.getElem?_append_right (by omega)]
    by_cases hrow : offset - (entries first above).length < (bytesOn row).length
    · rw [List.getElem?_append_left (by rwa [List.length_replicate]),
        List.getElem?_replicate_of_lt hrow]
      exact iff_of_true rfl (by omega)
    · -- An entry further down is larger.
      rw [List.getElem?_append_right (by rw [List.length_replicate]; omega)]
      refine iff_of_false (fun h => ?_) (by omega)
      have hbound := (bounds_of_mem_entries (List.mem_of_getElem? h)).1
      omega

/-- The program of rows that can all be read. -/
theorem program_of_placeRows {first : Nat} {rows : List Text} {placed : List Placed}
    (h : placeRows first rows = .ok placed) :
    Program.ofStatements placed = ⟨rows.flatMap bytesOn, entries first rows⟩ := by
  induction rows generalizing first placed with
  | nil =>
      cases h
      rfl
  | cons row rows ih =>
      rcases placeRows_cons_eq_ok h with ⟨found, rest, hread, hrest, rfl⟩
      rw [List.flatMap_cons, entries_cons, bytesOn_of_read hread]
      cases found with
      | none => exact ih hrest
      | some s =>
          rw [Option.map_some, Option.toList_some, List.singleton_append,
            Program.ofStatements_cons, ih hrest]
          rfl

variable {src : Text} {p : Program}

-- A source that can be assembled, row by row.
theorem program_of_assemble (h : assemble src = .ok p) :
    p = ⟨(codeRows src).flatMap bytesOn, entries 1 (codeRows src)⟩ ∧
      ∀ code ∈ codeRows src, ∃ found, read code = .ok found := by
  rcases exists_of_map_eq_ok h with ⟨placed, hplaced, rfl⟩
  exact ⟨program_of_placeRows hplaced, fun _ hcode => exists_read_of_placeRows_eq_ok hplaced hcode⟩

/-- The bytes of a line are one block of the program, behind those of the lines
    above, and the entries for the block are the line. -/
theorem exists_block_of_codeOnLine? (h : assemble src = .ok p) {line : Nat} {code : Text}
    (hcode : codeOnLine? src line = some code) :
    ∃ front block behind, EmitsAll ((codeRows src).take (line - 1)) front ∧ Emits code block ∧
      p.bytes = front ++ block ++ behind ∧
      ∀ offset, p.lines[offset]? = some line ↔
        front.length ≤ offset ∧ offset < front.length + block.length := by
  rcases program_of_assemble h with ⟨rfl, hread⟩
  cases line with
  | zero => exact nomatch hcode
  | succ index =>
      rcases eq_take_append_cons_drop hcode with ⟨hcodes, hlength⟩
      rcases hread code (List.mem_of_getElem? hcode) with ⟨found, hfound⟩
      refine ⟨_, _, ((codeRows src).drop (index + 1)).flatMap bytesOn,
        emitsAll_flatMap fun r hr => hread r (List.take_subset _ _ hr), emits_bytesOn hfound,
        ?_, ?_⟩
      · -- The bytes are those of the rows, and the line is one of them.
        conv_lhs => rw [hcodes]
        rw [List.flatMap_append, List.flatMap_cons, List.append_assoc]
        rfl
      · intro offset
        have hentries := entries_eq_some_iff 1 offset ((codeRows src).take index)
          ((codeRows src).drop (index + 1)) code
        rw [← hcodes, hlength, Nat.add_comm 1] at hentries
        exact hentries

/-- The entry for a byte is the line that it is from. -/
theorem lines_eq_some_iff (h : assemble src = .ok p) (offset line : Nat) :
    p.lines[offset]? = some line ↔ EmittedBy src offset line := by
  constructor
  · intro hentry
    have hbounds : 1 ≤ line ∧ line ≤ (rows src).length := by
      have hmem := List.mem_of_getElem? hentry
      rw [(program_of_assemble h).1] at hmem
      have hin := bounds_of_mem_entries hmem
      rw [length_codeRows] at hin
      omega
    rcases (exists_codeOnLine?_iff line).mpr hbounds with ⟨code, hcode⟩
    rcases exists_block_of_codeOnLine? h hcode with ⟨front, block, _, hfront, hblock, _, hiff⟩
    exact ⟨code, front, block, hcode, hfront, hblock, (hiff offset).mp hentry⟩
  · rintro ⟨code, front, block, hcode, hfront, hblock, hoffset⟩
    rcases exists_block_of_codeOnLine? h hcode with ⟨front', block', _, hfront', hblock', _, hiff⟩
    -- Code emits its bytes and no others.
    rw [eq_flatMap_of_emitsAll hfront, ← eq_flatMap_of_emitsAll hfront',
      (exists_read_of_emits hblock).2, ← (exists_read_of_emits hblock').2] at hoffset
    exact (hiff offset).mpr hoffset

end Source

/-! ## Sessions -/

section

variable {σ : Type}

/-- No step gives a session another program. -/
theorem Session.program_follows (program : Program) :
    (Frontend.silent : Frontend Unit).Follows (fun s _ => s.program = program)
      (fun _ s _ => s.program = program) where
  ok h hstep := by rw [(stepIn_ok hstep).2.1, ← h]
  error h hstep := by rw [(stepIn_error hstep).2, ← h]

theorem Control.program_perform (fe : Frontend (Watched σ)) (control : Control) (bound : Nat)
    (s : Session) (shown : Watched σ) :
    (control.perform fe bound s shown).2.1.program = s.program := by
  rcases perform_keeps (Session.program_follows s.program) () rfl control bound with ⟨_, _, hkept⟩
  exact hkept

/-- A session keeps its program, however it is run and whatever is done to its
    machine. -/
theorem Session.program_follow (fe : Frontend (Watched σ)) (history : List SessionEvent)
    (q : Session × Watched σ) : (follow fe q history).1.program = q.1.program := by
  induction history generalizing q with
  | nil => rfl
  | cons event history ih =>
      refine (ih (event.apply fe q)).trans ?_
      cases event with
      | run control bound => exact control.program_perform fe bound q.1 q.2
      | reach op => rfl

namespace Source

-- A session for a source has the program that the source describes.
theorem program_of_start {src : Text} {p : Program} {m : Machine} {s : Session}
    (h : assemble src = .ok p) (hstart : Session.start src m = .ok s) : s.program = p := by
  simp only [Session.start, h, Session.ofProgram] at hstart
  split at hstart
  · cases hstart
    rfl
  · exact nomatch hstart

/-- The line table is a map of the source. It has one entry for each byte, and its
    entries do not decrease. The bytes of every line of the source are one block of
    the program, which are those that the code on the line emits, behind those that
    the lines above emit, and the entries for the block and no others are the line.
    For a session that is started from the source, whatever is run and done in it,
    the current line is therefore the line that has emitted the byte at the
    instruction pointer, if that points into the program, and there is none
    otherwise. -/
theorem assemble_source_map {src : Text} {p : Program} (h : assemble src = .ok p) :
    p.lines.length = p.bytes.length ∧ p.lines.Pairwise (· ≤ ·) ∧
      (∀ line code, codeOnLine? src line = some code →
        ∃ front block behind, EmitsAll ((codeRows src).take (line - 1)) front ∧
          Emits code block ∧ p.bytes = front ++ block ++ behind ∧
          ∀ offset, p.lines[offset]? = some line ↔
            front.length ≤ offset ∧ offset < front.length + block.length) ∧
      ∀ (m : Machine) (s : Session), Session.start src m = .ok s →
        ∀ (fe : Frontend (Watched σ)) (shown : Watched σ) (history : List SessionEvent)
          (line : Nat),
          let ended := (Session.follow fe (s, shown) history).1
          ended.currentLine? = some line ↔
            0x200 ≤ ended.machine.ip.toNat ∧
              ended.machine.ip.toNat < 0x200 + p.bytes.length ∧
              EmittedBy src (ended.machine.ip.toNat - 0x200) line := by
  have hlength : p.lines.length = p.bytes.length := by
    rw [(program_of_assemble h).1]
    exact length_entries 1 _
  have hsorted : p.lines.Pairwise (· ≤ ·) := by
    rw [(program_of_assemble h).1]
    exact pairwise_entries 1 _
  refine ⟨hlength, hsorted, fun line code hcode => exists_block_of_codeOnLine? h hcode, ?_⟩
  intro m s hstart fe shown history line ended
  have hprogram : ended.program = p :=
    (Session.program_follow fe history (s, shown)).trans (program_of_start h hstart)
  rw [← lines_eq_some_iff h, Session.currentLine?, hprogram]
  -- The instruction pointer may be below the program, where no byte has a line.
  by_cases hlow : programStart ≤ ended.machine.ip.toNat
  · rw [if_pos hlow]
    refine ⟨fun hline => ⟨hlow, ?_, hline⟩, fun hline => hline.2.2⟩
    have hlt : ended.machine.ip.toNat - 0x200 < p.lines.length :=
      (List.getElem?_eq_some_iff.mp hline).1
    rw [hlength] at hlt
    omega
  · rw [if_neg hlow]
    exact iff_of_false nofun fun hline => hlow hline.1

/-- A comment over three lines, data, a line of data without any, and a run that is
    taken to the data. -/
theorem assemble_source_map_spanning :
    let src := "#@ x # li v0, 1 # one\n two\n# db 1, 2, 3\ndb\nret # end".toList
    let p : Program := ⟨[0x60, 1, 1, 2, 3, 0x00, 0xEE], [1, 1, 3, 3, 3, 5, 5]⟩
    let s : Session := ⟨(Machine.idle 0).after [.load p.bytes], p, 0⟩
    let ended := (Session.follow .silent (s, (⟨(), false⟩ : Watched Unit))
      [.run .stepIn 0, .reach (.setRegister 17 0x204)]).1
    assemble src = .ok p ∧ ended.currentLine? = some 3 ∧ EmittedBy src 4 3 := by
  intro src p s ended
  have hsrc : assemble src = .ok p := by decide +kernel
  have hstart : Session.start src (Machine.idle 0) = .ok s := by
    simp only [Session.start, hsrc]
    rfl
  have hended : ended.currentLine? = some 3 ∧ ended.machine.ip.toNat = 0x204 := by decide +kernel
  have hmap := (assemble_source_map hsrc).2.2.2 _ s hstart .silent (⟨(), false⟩ : Watched Unit)
    [.run .stepIn 0, .reach (.setRegister 17 0x204)] 3
  have hemitted := (hmap.mp hended.1).2.2
  rw [hended.2] at hemitted
  exact ⟨hsrc, hended.1, hemitted⟩

end Source

end

end Chip8

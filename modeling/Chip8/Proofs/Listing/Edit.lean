import Chip8.Proofs.Listing.Annotation
import Chip8.Proofs.Listing.RoundTrip
import Chip8.Proofs.Source.Sheltered

/-!
# Edits Keep the Program

An edit takes lines out of a source and puts a listing of their bytes in their
place. These bytes are found by reading each line on its own, and so an edit
sees a line without the comments around it.

A line that starts outside of comments reads the same alone. One that starts
inside of a comment may not even be readable, as the prose in a comment is not
assembly. And whatever a line says, its hashes go with it. The source is left
with the same comments only if none of them runs over the ends of the lines
that are taken out.

These are the two conditions on an edit. Each is asked for only where it
matters: a line has to be readable if it is read, and to stand apart if it is
taken out. Both are about comments that span lines. Where there are none, an
edit never changes the program.

## Main definitions

* `Revision.bytesAlone`: The bytes on a line that is read on its own.
* `Revision.ReadsAlone`: A line that can be read on its own if it has to be.
* `Revision.StandsApart`: A line over whose ends no comment runs.
* `Revision.DataEditable`, `Revision.CodeEditable`: Lines that can be edited.
* `Revision.Keeps`: An edit that succeeds and keeps the bytes of a program.

## Theorems

* `keeps_replace`: Lines may give way to a listing of their bytes.
* `keeps_asData`, `keeps_asCode`: Each of the edits.
* `edits_keep_program`: Both together.
* `keeps_edits_of_even`: Sources without comments that span lines.
* `not_keeps_across_comments`: What happens across a comment that spans lines.
-/

namespace Chip8

open Text Comment

namespace Revision

/-- The bytes on a line that is read on its own, none if it cannot be read. -/
def bytesAlone (line : Text) : List UInt8 :=
  Statement.bytesOn (stripComments (dropStamp line))

/-- A line between others that can be read on its own, if it starts inside of a
    comment. Outside of comments it is left to the source. -/
def ReadsAlone (front : List Text) (line : Text) (behind : List Text) : Prop :=
  Covered (hashes (front.map dropStamp).flatten)
      (dropStamp line ++ joinRows (behind.map dropStamp)) →
    ∃ found, Statement.read (stripComments (dropStamp line)) = .ok found

/-- A line between others over whose ends no comment runs. -/
def StandsApart (front : List Text) (line : Text) (behind : List Text) : Prop :=
  Apart (hashes (front.map dropStamp).flatten) (dropStamp line) (joinRows (behind.map dropStamp))

/-- A line between others that can be shown as data. It is taken out if it has
    two bytes or more. -/
def DataEditable (front : List Text) (line : Text) (behind : List Text) : Prop :=
  ReadsAlone front line behind ∧
    (2 ≤ (bytesAlone line).length → StandsApart front line behind)

/-- A line between others that can be shown as code. If it has a single byte,
    the next line is read as well, and both are taken out if that one has one
    byte or two. -/
def CodeEditable (front : List Text) (line : Text) (behind : List Text) : Prop :=
  ReadsAlone front line behind ∧
    match bytesAlone line, behind with
    | [], _ => True
    | [_], next :: behind =>
        ReadsAlone (front ++ [line]) next behind ∧
          ((bytesAlone next).length = 1 ∨ (bytesAlone next).length = 2 →
            StandsApart front line (next :: behind) ∧ StandsApart (front ++ [line]) next behind)
    | _, _ => StandsApart front line behind

/-- An edit that succeeds, with a text that assembles to these bytes. -/
def Keeps (bytes : List UInt8) (edit : Except AssemblyError Text) : Prop :=
  ∃ t program, edit = .ok t ∧ Source.assemble t = .ok program ∧ program.bytes = bytes

theorem keeps_iff (bytes : List UInt8) (edit : Except AssemblyError Text) :
    Keeps bytes edit ↔ (edit.bind Source.assemble).map Program.bytes = .ok bytes := by
  constructor
  · rintro ⟨t, program, rfl, hprogram, rfl⟩
    rw [Except.bind, hprogram]
    rfl
  · intro h
    rcases exists_of_map_eq_ok h with ⟨program, hbind, hbytes⟩
    rcases exists_of_bind_eq_ok hbind with ⟨t, hedit, hprogram⟩
    exact ⟨t, program, hedit, hprogram, hbytes⟩

instance (bytes : List UInt8) (edit : Except AssemblyError Text) : Decidable (Keeps bytes edit) :=
  decidable_of_iff _ (keeps_iff bytes edit).symm

/-! ## Reading a line on its own -/

theorem lines_of_lineContext? {number : Nat} {src : Text} {front behind : List Text} {line : Text}
    (h : lineContext? number src = some (front, line, behind)) :
    lines src = front ++ line :: behind := by
  cases number with
  | zero => exact nomatch h
  | succ index =>
      rw [lineContext?] at h
      split at h
      · exact nomatch h
      · rename_i first rest hdrop
        cases h
        rw [← hdrop, List.take_append_drop]

section

variable {src : Text} {program : Program} (h : Source.assemble src = .ok program)
  {front behind : List Text} {line : Text}

include h

theorem exists_read_alone (hlines : lines src = front ++ line :: behind)
    (hreads : ReadsAlone front line behind) :
    ∃ found, Statement.read (stripComments (dropStamp line)) = .ok found := by
  by_cases hcovered : Covered (hashes (front.map dropStamp).flatten)
      (dropStamp line ++ joinRows (behind.map dropStamp))
  · exact hreads hcovered
  · -- Outside of comments the line reads alone as it does in the source.
    rcases exists_of_map_eq_ok h with ⟨placed, hplaced, _⟩
    rw [Source.statements_eq_placeLines, hlines, Source.placeLines, List.map_append,
      List.map_cons] at hplaced
    have hline : '\n' ∉ line := newline_not_mem_lines (t := src) (by
      rw [hlines]
      exact List.mem_append_right front List.mem_cons_self)
    have hcode := List.mem_of_getElem?
      (getElem?_rowCodes 0 (front.map dropStamp) (dropStamp line) (behind.map dropStamp))
    rw [Nat.zero_add, uncomment_eq_stripComments (newline_not_mem_dropStamp hline) hcovered]
      at hcode
    exact Source.exists_read_of_placeRows_eq_ok hplaced hcode

theorem lineBytes_eq_bytesAlone (hlines : lines src = front ++ line :: behind)
    (hreads : ReadsAlone front line behind) (number : Nat) :
    lineBytes number line = .ok (bytesAlone line) := by
  rcases exists_read_alone h hlines hreads with ⟨found, hfound⟩
  rw [lineBytes, Source.placeRow, hfound, bytesAlone, Statement.bytesOn_of_read hfound]
  cases found <;> rfl

end

/-! ## Replacing lines -/

-- Lines that stand apart have the bytes that they have alone, unless they are
-- covered.
theorem flatMap_bytesOn_bared (before : Nat) (later : Text) (ls : List Text) :
    ((ls.map dropStamp).map (bared before later)).flatMap Statement.bytesOn
      = if Covered before later then [] else ls.flatMap bytesAlone := by
  rw [List.flatMap_map, List.flatMap_map]
  by_cases hcovered : Covered before later
  · rw [if_pos hcovered]
    refine List.flatMap_eq_nil_iff.mpr fun l _ => ?_
    rw [bared, if_pos hcovered]
    rfl
  · rw [if_neg hcovered]
    refine List.flatMap_congr fun l _ => ?_
    rw [bared, if_neg hcovered, bytesAlone]

theorem exists_read_bared {ls : List Text}
    (hread : ∀ l ∈ ls, ∃ found, Statement.read (stripComments (dropStamp l)) = .ok found)
    (before : Nat) (later : Text) :
    ∀ code ∈ (ls.map dropStamp).map (bared before later),
      ∃ found, Statement.read code = .ok found := by
  intro code hcode
  rcases List.mem_map.mp hcode with ⟨r, hr, rfl⟩
  rcases List.mem_map.mp hr with ⟨l, hl, rfl⟩
  rw [bared]
  split
  · exact ⟨none, rfl⟩
  · exact hread l hl

/-- Lines that stand apart may give way to others that do and have the same
    bytes. -/
theorem exists_placeLines_replace {front edited edited' behind : List Text} {placed : List Placed}
    (h : Source.placeLines (front ++ (edited ++ behind)) = .ok placed)
    (hnewline : ∀ l ∈ front ++ (edited ++ behind), '\n' ∉ l) (hnewline' : ∀ l ∈ edited', '\n' ∉ l)
    (hsheltered : Sheltered (behind.map dropStamp) (hashes (front.map dropStamp).flatten)
      (edited.map dropStamp))
    (hsheltered' : Sheltered (behind.map dropStamp) (hashes (front.map dropStamp).flatten)
      (edited'.map dropStamp))
    (hread : ∀ l ∈ edited', ∃ found, Statement.read (stripComments (dropStamp l)) = .ok found)
    (hbytes : edited'.flatMap bytesAlone = edited.flatMap bytesAlone) :
    ∃ placed', Source.placeLines (front ++ (edited' ++ behind)) = .ok placed' ∧
      (Program.ofStatements placed').bytes = (Program.ofStatements placed).bytes := by
  rw [List.forall_mem_append, List.forall_mem_append] at hnewline
  rcases exists_rowCodes_replace (newline_not_mem_map_dropStamp hnewline.1)
    (newline_not_mem_map_dropStamp hnewline.2.1) (newline_not_mem_map_dropStamp hnewline')
    hsheltered hsheltered' with ⟨codes, codes', hcodes, hcodes'⟩
  rw [Source.placeLines, List.map_append, List.map_append] at h ⊢
  rw [hcodes] at h
  rw [hcodes']
  exact Source.exists_placeRows_replace h (exists_read_bared hread _ _)
    (by rw [flatMap_bytesOn_bared, flatMap_bytesOn_bared, hbytes])

/-! ## Lines of a listing -/

-- On the line of an item there is nothing but the item.
theorem read_line {placed : Nat × Item} (hfits : placed.2.Fits) :
    Statement.read (stripComments (dropStamp (placed.2.line placed.1)))
      = .ok (some placed.2.statement) := by
  rw [Item.dropStamp_line, stripComments_of_not_mem placed.2.isPlain_cons_source.hash_not_mem,
    Item.read_cons_source hfits]

theorem flatMap_bytesAlone_written {shown : List (Nat × Item)}
    (hfits : ∀ placed ∈ shown, placed.2.Fits) :
    (Disassembly.written shown).flatMap bytesAlone = shown.flatMap (·.2.bytes) := by
  rw [Disassembly.written, List.flatMap_map]
  refine List.flatMap_congr fun placed hplaced => ?_
  rw [bytesAlone, Statement.bytesOn_of_read (read_line (hfits placed hplaced))]
  exact placed.2.bytes_statement

/-- Lines that stand apart may give way to a listing of their bytes. -/
theorem keeps_replace {src : Text} {program : Program} (h : Source.assemble src = .ok program)
    {front behind : List Text} (edited : List Text)
    (hlines : lines src = front ++ (edited ++ behind))
    (hsheltered : Sheltered (behind.map dropStamp) (hashes (front.map dropStamp).flatten)
      (edited.map dropStamp))
    {shown : List (Nat × Item)} (hfits : ∀ placed ∈ shown, placed.2.Fits)
    (hbytes : shown.flatMap (·.2.bytes) = edited.flatMap bytesAlone) :
    Keeps program.bytes
      (restamp (joinRows (front ++ Disassembly.written shown ++ behind))) := by
  rcases exists_of_map_eq_ok h with ⟨placed, hplaced, rfl⟩
  have hnewline : ∀ l ∈ front ++ (edited ++ behind), '\n' ∉ l := by
    rw [← hlines]
    exact fun l hl => newline_not_mem_lines hl
  have hshown : ∀ l ∈ Disassembly.written shown, '\n' ∉ l := Disassembly.newline_not_mem_written
  -- The listing has no hashes but in its stamps, and each of its lines can be read.
  have hhash : ∀ r ∈ (Disassembly.written shown).map dropStamp, '#' ∉ r := by
    rw [Disassembly.map_dropStamp_written]
    exact Disassembly.hash_not_mem_sources shown
  have hread : ∀ l ∈ Disassembly.written shown,
      ∃ found, Statement.read (stripComments (dropStamp l)) = .ok found := by
    intro l hl
    rcases List.mem_map.mp hl with ⟨item, hitem, rfl⟩
    exact ⟨_, read_line (hfits item hitem)⟩
  -- In the source, it may stand for the lines that it shows.
  rw [Source.statements_eq_placeLines, hlines] at hplaced
  rcases exists_placeLines_replace hplaced hnewline hshown hsheltered
    (sheltered_of_not_mem hhash _ _) hread
    ((flatMap_bytesAlone_written hfits).trans hbytes) with ⟨placed', hplaced', hsame⟩
  rw [List.forall_mem_append, List.forall_mem_append] at hnewline
  rw [List.append_assoc]
  -- A revision of the stamps changes nothing that is assembled.
  rw [← Source.statements_joinRows] at hplaced'
  · rcases restamp_of_statements hplaced' with ⟨t, ht, hkept⟩
    refine ⟨t, Program.ofStatements placed', ht, ?_, hsame⟩
    rw [Source.assemble, hkept]
    rfl
  · rw [List.forall_mem_append, List.forall_mem_append]
    exact ⟨hnewline.1, hshown, hnewline.2.2⟩

/-! ## The edits -/

theorem hashes_flatten_even {ls : List Text} (heven : ∀ l ∈ ls, hashes (dropStamp l) % 2 = 0) :
    hashes (ls.map dropStamp).flatten % 2 = 0 := by
  induction ls with
  | nil => rfl
  | cons l ls ih =>
      rw [List.forall_mem_cons] at heven
      rw [List.map_cons, List.flatten_cons, hashes_append, Nat.add_mod, heven.1, ih heven.2]

-- Behind pairs of hashes only, a line starts outside of comments.
theorem alone_of_even {front behind : List Text} {line : Text}
    (heven : ∀ l ∈ front ++ line :: behind, hashes (dropStamp l) % 2 = 0) :
    ReadsAlone front line behind ∧ StandsApart front line behind := by
  rw [List.forall_mem_append, List.forall_mem_cons] at heven
  have hfront := hashes_flatten_even heven.1
  refine ⟨fun hcovered => ?_, fun _ => Or.inl heven.2.1, fun hodd => ?_⟩
  · have := hcovered.1
    omega
  · omega

section

variable {src : Text} {program : Program} (h : Source.assemble src = .ok program) {number : Nat}

include h

theorem keeps_self : Keeps program.bytes (.ok src) :=
  ⟨src, program, rfl, h, rfl⟩

/-- A line can be shown as data. -/
theorem keeps_asData
    (hedit : ∀ front line behind, lineContext? number src = some (front, line, behind) →
      DataEditable front line behind) :
    Keeps program.bytes (asData number src) := by
  rw [asData]
  split
  · exact keeps_self h
  · rename_i front line behind hcontext
    have hlines := lines_of_lineContext? hcontext
    rcases hedit front line behind hcontext with ⟨hreads, hapart⟩
    rw [lineBytes_eq_bytesAlone h hlines hreads]
    change Keeps program.bytes (if (bytesAlone line).length < 2 then .ok src else _)
    by_cases hshort : (bytesAlone line).length < 2
    · rw [if_pos hshort]
      exact keeps_self h
    · rw [if_neg hshort]
      -- Every byte becomes an item of its own.
      have hbytes : ((bytesAlone line).zipIdx.map fun b => (b.2, Item.data b.1)).flatMap (·.2.bytes)
          = [line].flatMap bytesAlone := by
        rw [List.flatMap_map, List.flatMap_singleton]
        exact List.map_eq_flatMap.symm.trans (List.zipIdx_map_fst 0 _)
      have hfits : ∀ placed ∈ (bytesAlone line).zipIdx.map fun b => (b.2, Item.data b.1),
          placed.2.Fits := by
        intro placed hplaced
        rcases List.mem_map.mp hplaced with ⟨b, _, rfl⟩
        trivial
      have hkeeps := keeps_replace h [line] hlines
        ⟨hapart (Nat.le_of_not_lt hshort), trivial⟩ hfits hbytes
      rwa [Disassembly.written, List.map_map] at hkeeps

-- Lines that stand apart may give way to the listing of their bytes as code.
theorem keeps_lines {front behind : List Text} (edited : List Text)
    (hlines : lines src = front ++ (edited ++ behind))
    (hsheltered : Sheltered (behind.map dropStamp) (hashes (front.map dropStamp).flatten)
      (edited.map dropStamp)) :
    Keeps program.bytes
      (restamp (joinRows (front ++ Disassembly.lines (edited.flatMap bytesAlone) ++ behind))) :=
  keeps_replace h edited hlines hsheltered (fun _ hplaced => Disassembly.fits_of_mem_items hplaced)
    (Disassembly.bytes_items _)

theorem keeps_line {front behind : List Text} {line : Text}
    (hlines : lines src = front ++ line :: behind) (hapart : StandsApart front line behind) :
    Keeps program.bytes
      (restamp (joinRows (front ++ Disassembly.lines (bytesAlone line) ++ behind))) := by
  have hkeeps := keeps_lines h [line] hlines ⟨hapart, trivial⟩
  rwa [List.flatMap_singleton] at hkeeps

-- Of two lines, the second one stands behind the hashes of the first as well.
theorem keeps_pair {front behind : List Text} {line next : Text}
    (hlines : lines src = front ++ line :: next :: behind)
    (hline : StandsApart front line (next :: behind))
    (hnext : StandsApart (front ++ [line]) next behind) :
    Keeps program.bytes (restamp (joinRows
      (front ++ Disassembly.lines (bytesAlone line ++ bytesAlone next) ++ behind))) := by
  rw [StandsApart, List.map_append, List.map_singleton, List.flatten_append,
    List.flatten_singleton, hashes_append] at hnext
  have hkeeps := keeps_lines h [line, next] hlines ⟨hline, hnext, trivial⟩
  rwa [List.flatMap_cons, List.flatMap_singleton] at hkeeps

/-- A line can be shown as code. -/
theorem keeps_asCode
    (hedit : ∀ front line behind, lineContext? number src = some (front, line, behind) →
      CodeEditable front line behind) :
    Keeps program.bytes (asCode number src) := by
  rw [asCode]
  split
  · exact keeps_self h
  · rename_i front line behind hcontext
    have hlines := lines_of_lineContext? hcontext
    rcases hedit front line behind hcontext with ⟨hreads, hrest⟩
    rw [lineBytes_eq_bytesAlone h hlines hreads]
    dsimp only [bind, Except.bind]
    have hline := keeps_line h hlines
    cases hbytes : bytesAlone line with
    | nil => exact keeps_self h
    | cons b more =>
        rw [hbytes] at hrest hline
        cases more with
        | cons c more => exact hline hrest
        | nil =>
            cases behind with
            | nil => exact hline hrest
            | cons next behind =>
                -- One byte may be half of an instruction, so the next line is read too.
                have hnext : lines src = (front ++ [line]) ++ next :: behind := by
                  rw [hlines, List.append_assoc, List.singleton_append]
                rcases hrest with ⟨hreads', hapart⟩
                dsimp only
                rw [lineBytes_eq_bytesAlone h hnext hreads']
                dsimp only
                by_cases hjoin : (bytesAlone next).length = 1 ∨ (bytesAlone next).length = 2
                · have hkeeps := keeps_pair h hlines (hapart hjoin).1 (hapart hjoin).2
                  rw [hbytes] at hkeeps
                  rwa [if_pos hjoin]
                · rw [if_neg hjoin]
                  exact keeps_self h

/-- In a source whose lines have each an even number of hashes, no comment spans
    lines, and no edit changes the program. -/
theorem keeps_edits_of_even (heven : ∀ l ∈ lines src, hashes (dropStamp l) % 2 = 0) :
    Keeps program.bytes (asData number src) ∧ Keeps program.bytes (asCode number src) := by
  constructor
  · refine keeps_asData h fun front line behind hcontext => ?_
    rw [lines_of_lineContext? hcontext] at heven
    rcases alone_of_even heven with ⟨hreads, hapart⟩
    exact ⟨hreads, fun _ => hapart⟩
  · refine keeps_asCode h fun front line behind hcontext => ?_
    rw [lines_of_lineContext? hcontext] at heven
    rcases alone_of_even heven with ⟨hreads, hapart⟩
    refine ⟨hreads, ?_⟩
    split
    · trivial
    · -- The line that is read with it is the first one behind a longer front.
      rename_i next behind _
      rw [← List.singleton_append, ← List.append_assoc] at heven
      rcases alone_of_even heven with ⟨hreads', hapart'⟩
      exact ⟨hreads', fun _ => ⟨hapart, hapart'⟩⟩
    · exact hapart

/-- An edit of a line keeps the program, if the line reads alone where it has to
    and stands apart where it is taken out. -/
theorem edits_keep_program :
    ((∀ front line behind, lineContext? number src = some (front, line, behind) →
        DataEditable front line behind) → Keeps program.bytes (asData number src)) ∧
      ((∀ front line behind, lineContext? number src = some (front, line, behind) →
        CodeEditable front line behind) → Keeps program.bytes (asCode number src)) :=
  ⟨keeps_asData h, keeps_asCode h⟩

end

/-- Data on a line of its own, behind a comment that spans two others. -/
theorem edits_keep_program_spanning :
    Keeps [0x12, 0x34] (asData 3 "# two\nlines #\ndb 0x12, 0x34\n".toList) ∧
      Keeps [0x12, 0x34] (asCode 3 "# two\nlines #\ndb 0x12, 0x34\n".toList) := by
  have h : Source.assemble "# two\nlines #\ndb 0x12, 0x34\n".toList
      = .ok ⟨[0x12, 0x34], [3, 3]⟩ := by decide +kernel
  have hcontext : lineContext? 3 "# two\nlines #\ndb 0x12, 0x34\n".toList
      = some (["# two".toList, "lines #".toList], "db 0x12, 0x34".toList, []) := rfl
  have hreads : ReadsAlone ["# two".toList, "lines #".toList] "db 0x12, 0x34".toList [] :=
    fun hcovered => absurd hcovered (by decide)
  have hapart : StandsApart ["# two".toList, "lines #".toList] "db 0x12, 0x34".toList [] := by
    rw [StandsApart]
    decide
  refine ⟨(edits_keep_program h).1 ?_, (edits_keep_program h).2 ?_⟩
  · intro front line behind heq
    cases hcontext.symm.trans heq
    exact ⟨hreads, fun _ => hapart⟩
  · intro front line behind heq
    cases hcontext.symm.trans heq
    exact ⟨hreads, hapart⟩

/-- Comments that span lines are lost on an edit. A line that closes one has its
    code read from inside of the comment, and one that opens one gives away what
    the comment holds. A line inside of a comment may not be readable. -/
theorem not_keeps_across_comments :
    (Source.assemble "#\nret # db 1\n".toList = .ok ⟨[1], [2]⟩ ∧
        ¬Keeps [1] (asData 2 "#\nret # db 1\n".toList)) ∧
      (Source.assemble "ret #\nclear\n#\n".toList = .ok ⟨[0x00, 0xEE], [1, 1]⟩ ∧
        ¬Keeps [0x00, 0xEE] (asData 1 "ret #\nclear\n#\n".toList)) ∧
      (Source.assemble "# a\nnope\n#\n".toList = .ok ⟨[], []⟩ ∧
        ¬Keeps [] (asCode 2 "# a\nnope\n#\n".toList)) := by
  refine ⟨?_, ?_, ?_⟩ <;> decide +kernel

end Revision

end Chip8

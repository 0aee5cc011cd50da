import Chip8.Listing.Disassembly
import Chip8.Proofs.Encoding.Words
import Chip8.Proofs.Listing.Stamp
import Chip8.Proofs.Source.Placement

/-!
# Listings Assemble Back

The listing of a program assembles, and the bytes that come out are the
program. Nothing is asked of the program: it may be of any length, what
control reaches in it may overlap, and what is reached need not decode.

The argument does not look at what control reaches. However offsets are
classified, the items that are laid hold all bytes in order, since an
instruction is only laid where two bytes are left and has these two as its
own. What the classification decides is which items they are, and both kinds
are read back: an instruction because it was decoded and so has operands that
fit, a data byte because it is a byte.

Stamps are the only place in a listing with hashes. Once they are off, the
source has no comments, and every row of it is the assembly of one item.

## Main definitions

* `Item.statement`: The statement that an item is read back as.
* `Item.Fits`: An item whose operands fit.
* `Disassembly.written`: The lines of items.

## Theorems

* `bytes_tile`: Items hold the bytes that they were laid for.
* `forall_mem_tile`: What is true of all items that are laid.
* `codeRows_disassemble`: The code in a listing.
* `statements_disassemble`: The statements of a listing.
* `assemble_disassemble`: A listing assembles back to its program.
-/

namespace Chip8

open Text Comment

namespace Item

/-- The statement that an item is read back as. -/
def statement : Item → Statement
  | .code i => .instruction i
  | .data b => .data [b]

theorem bytes_statement (item : Item) : item.statement.bytes = item.bytes := by
  cases item <;> rfl

/-- An item whose operands fit into their places. -/
def Fits : Item → Prop
  | .code i => i.operands.Fits
  | .data _ => True

theorem read_source {item : Item} (hfits : item.Fits) :
    Statement.read item.source = .ok (some item.statement) := by
  cases item with
  | code i => exact Statement.read_instruction hfits
  | data b => exact Statement.read_data b

-- The blank in front of it makes no difference.
theorem read_cons_source {item : Item} (hfits : item.Fits) :
    Statement.read (' ' :: item.source) = .ok (some item.statement) :=
  (Statement.read_cons (by decide) _).trans (read_source hfits)

-- Behind the stamp of a listing line stand a blank and the assembly.
theorem dropStamp_line (offset : Nat) (item : Item) :
    dropStamp (item.line offset) = ' ' :: item.source :=
  dropStamp_append (isStamp_stamp offset item.bytes) _

theorem isPlain_cons_source (item : Item) : IsPlain (' ' :: item.source) :=
  IsPlain.cons (by decide) item.isPlain_source

theorem newline_not_mem_line (offset : Nat) (item : Item) : '\n' ∉ item.line offset := by
  rw [line, List.mem_append, not_or]
  exact ⟨newline_not_mem_stamp _ _, item.isPlain_cons_source.newline_not_mem⟩

end Item

namespace Disassembly

/-- Items hold the bytes that they were laid for, whatever is taken for
    code. -/
theorem bytes_tile (isCode : Nat → Bool) (laid : List (Nat × Item)) (offset : Nat)
    (bytes : List UInt8) :
    (tile isCode laid offset bytes).flatMap (·.2.bytes)
      = laid.reverse.flatMap (·.2.bytes) ++ bytes := by
  fun_induction tile isCode laid offset bytes with
  | case1 laid offset hi lo rest hcode i hdecode ih =>
      -- An instruction has the two bytes that it was decoded from.
      rw [ih, List.reverse_cons, List.flatMap_append, List.append_assoc]
      simp only [List.flatMap_cons, List.flatMap_nil, Item.bytes,
        Instruction.bytes_of_decode? hdecode, List.append_nil, List.cons_append, List.nil_append]
  | case2 laid offset hi lo rest hcode hdecode ih =>
      rw [ih, List.reverse_cons, List.reverse_cons, List.flatMap_append, List.flatMap_append,
        List.append_assoc, List.append_assoc]
      rfl
  | case3 laid offset hi lo rest hcode ih =>
      rw [ih, List.reverse_cons, List.flatMap_append, List.append_assoc]
      rfl
  | case4 laid offset b =>
      rw [List.reverse_cons, List.flatMap_append]
      rfl
  | case5 laid offset => rw [List.append_nil]

/-- What is true of data, and of every instruction that was decoded, is true of
    all items that are laid. -/
theorem forall_mem_tile {p : Item → Prop}
    (hcode : ∀ {hi lo i}, Instruction.decode? (wordOfBytes hi lo) = some i → p (.code i))
    (hdata : ∀ b, p (.data b)) {isCode : Nat → Bool} {laid : List (Nat × Item)} {offset : Nat}
    {bytes : List UInt8} (hlaid : ∀ placed ∈ laid, p placed.2) :
    ∀ placed ∈ tile isCode laid offset bytes, p placed.2 := by
  fun_induction tile isCode laid offset bytes with
  | case1 laid offset hi lo rest _ i hdecode ih =>
      exact ih (List.forall_mem_cons.mpr ⟨hcode hdecode, hlaid⟩)
  | case2 laid offset hi lo rest _ hdecode ih =>
      exact ih (List.forall_mem_cons.mpr ⟨hdata lo, List.forall_mem_cons.mpr ⟨hdata hi, hlaid⟩⟩)
  | case3 laid offset hi lo rest _ ih =>
      exact ih (List.forall_mem_cons.mpr ⟨hdata hi, hlaid⟩)
  | case4 laid offset b =>
      have hall : ∀ placed ∈ (offset, Item.data b) :: laid, p placed.2 :=
        List.forall_mem_cons.mpr ⟨hdata b, hlaid⟩
      exact fun placed hmem => hall placed (List.mem_reverse.mp hmem)
  | case5 laid offset => exact fun placed hmem => hlaid placed (List.mem_reverse.mp hmem)

theorem bytes_items (bytes : List UInt8) : (items bytes).flatMap (·.2.bytes) = bytes :=
  bytes_tile _ [] 0 bytes

-- An instruction fits because it was decoded.
theorem fits_of_mem_items {bytes : List UInt8} {placed : Nat × Item}
    (hmem : placed ∈ items bytes) : placed.2.Fits :=
  forall_mem_tile (p := Item.Fits) Instruction.fits_of_decode? (fun _ => trivial)
    (List.forall_mem_nil _) placed hmem

/-- The lines of items, wherever they are said to be. -/
def written (placed : List (Nat × Item)) : List Text :=
  placed.map fun p => p.2.line p.1

theorem newline_not_mem_written {placed : List (Nat × Item)} : ∀ l ∈ written placed, '\n' ∉ l := by
  intro l hl
  rcases List.mem_map.mp hl with ⟨p, _, rfl⟩
  exact p.2.newline_not_mem_line p.1

theorem map_dropStamp_written (placed : List (Nat × Item)) :
    (written placed).map dropStamp = placed.map (' ' :: ·.2.source) := by
  rw [written, List.map_map]
  refine List.map_congr_left fun p _ => ?_
  rw [Function.comp_apply, Item.dropStamp_line]

theorem hash_not_mem_sources (placed : List (Nat × Item)) :
    ∀ r ∈ placed.map (' ' :: ·.2.source), '#' ∉ r := by
  intro r hr
  rcases List.mem_map.mp hr with ⟨p, _, rfl⟩
  exact p.2.isPlain_cons_source.hash_not_mem

/-- The code in a listing is the assembly of its items, with a row to spare
    behind the last newline. -/
theorem codeRows_disassemble (bytes : List UInt8) :
    codeRows (disassemble bytes) = (items bytes).map (' ' :: ·.2.source) ++ [[]] := by
  have hlines : lines bytes = written (items bytes) := rfl
  have hspare : dropStamp [] = [] := rfl
  refine codeRows_of_not_mem ?_ ?_
  · rw [disassemble, hlines, rows_terminate newline_not_mem_written, List.map_append,
      map_dropStamp_written, List.map_singleton, hspare]
  · rw [List.forall_mem_append, List.forall_mem_singleton]
    exact ⟨hash_not_mem_sources _, List.not_mem_nil⟩

-- Rows with the assembly of items on them are read as the statements of these
-- items, each on its own row.
theorem placeRows_items (first : Nat) {items : List (Nat × Item)}
    (hfits : ∀ placed ∈ items, placed.2.Fits) :
    Source.placeRows first (items.map (' ' :: ·.2.source) ++ [[]])
      = .ok ((items.zipIdx first).map fun r => ⟨r.2, r.1.2.statement⟩) := by
  induction items generalizing first with
  | nil => rfl
  | cons placed items ih =>
      rw [List.forall_mem_cons] at hfits
      rw [List.map_cons, List.cons_append,
        Source.placeRows_cons_ok (Item.read_cons_source hfits.1), ih (first + 1) hfits.2]
      rfl

/-- The statements of a listing are those of its items, one on each line. -/
theorem statements_disassemble (bytes : List UInt8) :
    Source.statements (disassemble bytes)
      = .ok (((items bytes).zipIdx 1).map fun r => ⟨r.2, r.1.2.statement⟩) := by
  rw [Source.statements, codeRows_disassemble]
  exact placeRows_items 1 fun _ hmem => fits_of_mem_items hmem

/-- A listing assembles, and to the bytes of the program that it shows. -/
theorem assemble_disassemble (bytes : List UInt8) :
    ∃ program, Source.assemble (disassemble bytes) = .ok program ∧ program.bytes = bytes := by
  refine ⟨_, by rw [Source.assemble, statements_disassemble]; rfl, ?_⟩
  rw [Program.ofStatements, List.flatMap_map]
  have hbytes : ∀ r : (Nat × Item) × Nat,
      Placed.bytes ⟨r.2, r.1.2.statement⟩ = r.1.2.bytes := fun r => r.1.2.bytes_statement
  simp only [hbytes]
  -- The numbers of the lines do not matter for the bytes.
  have hitems : ((items bytes).zipIdx 1).map Prod.fst = items bytes := List.zipIdx_map_fst 1 _
  conv_rhs => rw [← bytes_items bytes, ← hitems, List.flatMap_map]

end Disassembly

end Chip8

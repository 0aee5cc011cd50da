import Chip8.Proofs.Source.Placement

/-!
# The Bytes of a Line

The line table of a program leads from every byte back to its line. Read the
other way, it tells what a line has put into the program and where that
starts. Nothing but the program is needed for this, neither the source nor its
statements.

In a program made of statements, a line has the bytes of the statements on it,
and they start behind those of all statements in front.

## Main definitions

* `Program.bytesOfLine`: What a line has put into the program.
* `Program.offsetOfLine`: Where it starts.

## Theorems

* `bytesOfLine_cons`, `bytesOfLine_eq_nil`: The bytes of a line, statement by
  statement.
* `offsetOfLine_cons_self`, `offsetOfLine_cons_of_ne`: Their offset.
* `exists_program_of_placeRows_cons`: The same, row by row.
-/

namespace Chip8

namespace Program

/-- The bytes that a line has put into a program. -/
def bytesOfLine (p : Program) (line : Nat) : List UInt8 :=
  ((p.bytes.zip p.lines).filter (·.2 = line)).map Prod.fst

/-- The offset of the first byte that a line has put into a program. -/
def offsetOfLine (p : Program) (line : Nat) : Nat :=
  p.lines.idxOf line

-- Bytes that are all on one line are found there, and nowhere else.
theorem filter_zip_replicate (bytes : List UInt8) (line n : Nat) :
    ((bytes.zip (List.replicate bytes.length line)).filter (·.2 = n)).map Prod.fst
      = if line = n then bytes else [] := by
  induction bytes with
  | nil => exact (ite_self _).symm
  | cons b bytes ih =>
      rw [List.length_cons, List.replicate_succ, List.zip_cons_cons, List.filter_cons]
      by_cases h : line = n
      · rw [if_pos h] at ih
        rw [if_pos h, if_pos (decide_eq_true h), List.map_cons, ih]
      · rw [if_neg h] at ih
        rw [if_neg h, if_neg (by simpa using h), ih]

theorem bytesOfLine_cons (p : Placed) (ps : List Placed) (line : Nat) :
    (ofStatements (p :: ps)).bytesOfLine line
      = (if p.line = line then p.bytes else []) ++ (ofStatements ps).bytesOfLine line := by
  have hlength : p.bytes.length = (List.replicate p.bytes.length p.line).length :=
    List.length_replicate.symm
  rw [bytesOfLine, bytesOfLine, ofStatements, List.flatMap_cons, List.flatMap_cons,
    List.zip_append hlength, List.filter_append, List.map_append, filter_zip_replicate]
  rfl

theorem bytesOfLine_eq_nil {ps : List Placed} {line : Nat} (h : ∀ p ∈ ps, p.line ≠ line) :
    (ofStatements ps).bytesOfLine line = [] := by
  induction ps with
  | nil => rfl
  | cons p ps ih =>
      rw [List.forall_mem_cons] at h
      rw [bytesOfLine_cons, if_neg h.1, ih h.2, List.append_nil]

theorem ofStatements_cons (p : Placed) (ps : List Placed) :
    ofStatements (p :: ps) = ⟨p.bytes ++ (ofStatements ps).bytes,
      List.replicate p.bytes.length p.line ++ (ofStatements ps).lines⟩ := by
  simp only [ofStatements, List.flatMap_cons]

theorem lines_cons (p : Placed) (ps : List Placed) :
    (ofStatements (p :: ps)).lines
      = List.replicate p.bytes.length p.line ++ (ofStatements ps).lines := by
  rw [ofStatements_cons]

theorem offsetOfLine_cons_self {p : Placed} (hbytes : p.bytes ≠ []) (ps : List Placed) :
    (ofStatements (p :: ps)).offsetOfLine p.line = 0 := by
  rw [offsetOfLine, lines_cons]
  cases hp : p.bytes with
  | nil => exact absurd hp hbytes
  | cons b bytes =>
      rw [List.length_cons, List.replicate_succ, List.cons_append]
      exact List.idxOf_cons_self

theorem offsetOfLine_cons_of_ne {p : Placed} {line : Nat} (h : p.line ≠ line)
    (ps : List Placed) :
    (ofStatements (p :: ps)).offsetOfLine line
      = p.bytes.length + (ofStatements ps).offsetOfLine line := by
  have hnone : line ∉ List.replicate p.bytes.length p.line := by
    intro hmem
    exact h (List.eq_of_mem_replicate hmem).symm
  rw [offsetOfLine, lines_cons, List.idxOf_append_of_notMem hnone, List.length_replicate,
    offsetOfLine]

end Program

/-- The first of several rows has its bytes in front of those of all others, and
    adds nothing to their lines. -/
theorem Source.exists_program_of_placeRows_cons {row : Text} {rows : List Text} {first : Nat}
    {placed : List Placed} (h : placeRows first (row :: rows) = .ok placed) :
    ∃ rest, placeRows (first + 1) rows = .ok rest ∧
      (Program.ofStatements placed).bytesOfLine first = Statement.bytesOn row ∧
      (Statement.bytesOn row ≠ [] → (Program.ofStatements placed).offsetOfLine first = 0) ∧
      ∀ line > first,
        (Program.ofStatements placed).bytesOfLine line
            = (Program.ofStatements rest).bytesOfLine line ∧
          (Program.ofStatements placed).offsetOfLine line
            = (Statement.bytesOn row).length + (Program.ofStatements rest).offsetOfLine line := by
  rcases placeRows_cons_eq_ok h with ⟨found, rest, hread, hrest, rfl⟩
  -- All other rows are further down, so none of their bytes is on this line.
  have hnone : (Program.ofStatements rest).bytesOfLine first = [] :=
    Program.bytesOfLine_eq_nil fun p hp =>
      Nat.ne_of_gt (exists_row_of_mem_placed hrest hp).1
  have hbytes := Statement.bytesOn_of_read hread
  refine ⟨rest, hrest, ?_⟩
  cases found with
  | none =>
      -- A row without a statement puts nothing in front of the others.
      have hempty : Statement.bytesOn row = [] := hbytes
      rw [hempty]
      exact ⟨hnone, fun hne => absurd rfl hne, fun line _ => ⟨rfl, (Nat.zero_add _).symm⟩⟩
  | some s =>
      have hsome : Statement.bytesOn row = s.bytes := hbytes
      rw [hsome]
      refine ⟨?_, ?_, ?_⟩
      · rw [Option.map_some, Option.toList_some, List.singleton_append,
          Program.bytesOfLine_cons, if_pos rfl, hnone, List.append_nil]
        rfl
      · intro hne
        exact Program.offsetOfLine_cons_self (p := ⟨first, s⟩) hne rest
      · intro line hline
        have hother : (Placed.mk first s).line ≠ line := Nat.ne_of_lt hline
        rw [Option.map_some, Option.toList_some, List.singleton_append,
          Program.bytesOfLine_cons, if_neg hother, Program.offsetOfLine_cons_of_ne hother]
        exact ⟨rfl, rfl⟩

end Chip8

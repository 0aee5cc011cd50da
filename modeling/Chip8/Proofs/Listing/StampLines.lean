import Chip8.Listing.Revision
import Chip8.Proofs.Source.Comment
import Chip8.Proofs.Source.Placement

/-!
# Stamping Line by Line

The statements of a source are a list of their own, and stamping walks along
this list and along the lines at the same time. As both are in the order of
the lines, there is a simpler way to put it: every row of code holds a number
of bytes, perhaps none, and every line is shown behind the stamp of the bytes
on its row, at the offset of all bytes in front of it.

## Main definitions

* `Revision.showLine`: A line, behind a stamp if there are bytes on it.
* `Revision.showLines`: All lines, with the bytes on each.
* `Revision.bareLines`, `Revision.emitted`: What is shown of a source.

## Theorems

* `stampLines_eq_showLines`: Stamping, put this way.
* `restamp_eq`: What a revision of the stamps writes.
-/

namespace Chip8

namespace Revision

/-- A line, behind the stamp of its bytes if there are any. -/
def showLine (offset : Nat) (bytes : List UInt8) (line : Text) : Text :=
  if bytes.isEmpty then line else stampLine offset bytes line

/-- Lines from an offset on, with the bytes on each of them. -/
def showLines (offset : Nat) (emitted : List (List UInt8)) : List Text → List Text
  | [] => []
  | line :: rest =>
      showLine offset (emitted.headD []) line
        :: showLines (offset + (emitted.headD []).length) emitted.tail rest

-- The next statement is placed further on: the line is kept.
theorem stampLines_skip (done : List Text) (offset number : Nat) {placed : List Placed}
    (hplaced : ∀ p ∈ placed, number < p.line) (line : Text) (rest : List Text) :
    stampLines done offset number placed (line :: rest)
      = stampLines (line :: done) offset (number + 1) placed rest := by
  cases placed with
  | nil => rw [stampLines]
  | cons p placed =>
      have hline : p.line ≠ number := Nat.ne_of_gt (hplaced p List.mem_cons_self)
      rw [stampLines, if_neg hline]

-- The next statement is placed at this line.
theorem stampLines_emit (done : List Text) (offset number : Nat) (s : Statement)
    (placed : List Placed) (line : Text) (rest : List Text) :
    stampLines done offset number (⟨number, s⟩ :: placed) (line :: rest)
      = stampLines (showLine offset s.bytes line :: done) (offset + s.bytes.length) (number + 1)
        placed rest := by
  rw [stampLines, if_pos rfl]
  rfl

/-- Lines are stamped with the bytes on their rows. -/
theorem stampLines_eq_showLines {rows : List Text} {number : Nat} {placed : List Placed}
    (h : Source.placeRows number rows = .ok placed) (done : List Text) (offset : Nat)
    (lines : List Text) :
    stampLines done offset number placed lines
      = done.reverse ++ showLines offset (rows.map Statement.bytesOn) lines := by
  induction lines generalizing rows number placed done offset with
  | nil =>
      rw [showLines, List.append_nil]
      cases placed <;> rw [stampLines]
  | cons line rest ih =>
      cases rows with
      | nil =>
          -- Lines without a row are written without bytes.
          rw [Source.placeRows_nil, Except.ok.injEq] at h
          rw [← h, stampLines_skip _ _ _ (List.forall_mem_nil _),
            ih (Source.placeRows_nil (number + 1)), List.reverse_cons, List.append_assoc]
          rfl
      | cons row rows =>
          rcases Source.placeRows_cons_eq_ok h with ⟨found, behind, hread, hbehind, rfl⟩
          cases found with
          | none =>
              -- All statements that are left stand further down.
              have hnone : Statement.bytesOn row = [] := by rw [Statement.bytesOn, hread]
              have hskip : ∀ p ∈ behind, number < p.line := fun p hp =>
                (Source.exists_row_of_mem_placed hbehind hp).1
              rw [Option.map_none, Option.toList_none, List.nil_append,
                stampLines_skip _ _ _ hskip, ih hbehind, List.map_cons, hnone,
                List.reverse_cons, List.append_assoc]
              rfl
          | some s =>
              -- The next statement stands on this line.
              have hsome : Statement.bytesOn row = s.bytes := by rw [Statement.bytesOn, hread]
              rw [Option.map_some, Option.toList_some, List.singleton_append,
                stampLines_emit, ih hbehind, List.map_cons, hsome, List.reverse_cons,
                List.append_assoc]
              rfl

/-- The lines of a source, without the stamps at their starts. -/
def bareLines (src : Text) : List Text :=
  (Text.lines src).map Comment.dropStamp

/-- The bytes on each of a number of lines. -/
def emitted (lines : List Text) : List (List UInt8) :=
  (Comment.codeRows (Text.joinRows lines)).map Statement.bytesOn

/-- What a revision of the stamps writes, if the source has no errors. -/
theorem restamp_eq (src : Text) :
    restamp src = (Source.statements (Text.joinRows (bareLines src))).map fun _ =>
      Text.terminate (showLines 0 (emitted (bareLines src)) (bareLines src)) := by
  rw [restamp, show (Text.lines src).map Comment.dropStamp = bareLines src from rfl]
  cases hplaced : Source.statements (Text.joinRows (bareLines src)) with
  | error e => rfl
  | ok placed =>
      dsimp only
      rw [stampLines_eq_showLines hplaced]
      rfl

theorem newline_not_mem_bareLines {src l : Text} (h : l ∈ bareLines src) : '\n' ∉ l := by
  rcases List.mem_map.mp h with ⟨m, hm, rfl⟩
  exact Comment.newline_not_mem_dropStamp (Text.newline_not_mem_lines hm)

end Revision

end Chip8

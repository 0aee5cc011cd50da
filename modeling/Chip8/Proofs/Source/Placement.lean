import Chip8.Assembly.Source
import Chip8.Proofs.Result
import Mathlib.Data.List.Forall2

/-!
# Statements and Their Rows

Rows of code are read from the top, and each of them adds a statement, adds
nothing, or ends the reading. These are the equations for the first row. They
turn facts about a whole source into inductions on its rows, with the number
of the first row as the only thing that changes along the way.

A row matters only through what is read from it. `placeRows_congr` says so:
two sources whose rows read alike have the same statements and the same error.

## Main definitions

* `Statement.bytesOn`: The bytes on a row of code.

## Theorems

* `placeRows_cons_ok`, `placeRows_cons_error`: The first row of a source.
* `placeRows_cons_eq_ok`: The first row of a source without errors.
* `placeRows_congr`: Rows that read alike are placed alike.
* `exists_read_of_placeRows_eq_ok`: In a source without errors, each row can
  be read.
* `exists_placeRows_iff`: Which bytes rows have.
* `exists_placeRows_replace`: Rows may give way to others.
* `exists_row_of_mem_placed`: Every statement is read from a row.
-/

namespace Chip8

/-- The bytes on a row of code, none if there is no statement on it. -/
def Statement.bytesOn (row : Text) : List UInt8 :=
  match read row with
  | .ok (some s) => s.bytes
  | _ => []

theorem Statement.bytesOn_of_read {row : Text} {found : Option Statement}
    (h : read row = .ok found) : bytesOn row = (found.map Statement.bytes).getD [] := by
  rw [bytesOn, h]
  cases found <;> rfl

namespace Source

theorem placeRows_nil (first : Nat) : placeRows first [] = .ok [] := rfl

theorem placeRows_cons_ok {row : Text} {found : Option Statement}
    (h : Statement.read row = .ok found) (first : Nat) (rows : List Text) :
    placeRows first (row :: rows)
      = (placeRows (first + 1) rows).map ((found.map (Placed.mk first)).toList ++ ·) := by
  have hrow : placeRow row first = .ok (found.map (Placed.mk first)) := by
    rw [placeRow, h]
  rw [placeRows, placeRows, List.zipIdx_cons, List.mapM_cons, hrow]
  cases (rows.zipIdx (first + 1)).mapM fun r => placeRow r.1 r.2 with
  | error e => rfl
  | ok placed =>
      cases found with
      | none => rfl
      | some s => rfl

theorem placeRows_cons_error {row : Text} {fault : AssemblyFault}
    (h : Statement.read row = .error fault) (first : Nat) (rows : List Text) :
    placeRows first (row :: rows) = .error ⟨first, fault⟩ := by
  have hrow : placeRow row first = .error ⟨first, fault⟩ := by
    rw [placeRow, h]
  rw [placeRows, List.zipIdx_cons, List.mapM_cons, hrow]
  rfl

/-- Rows that read alike are placed alike. -/
theorem placeRows_congr {rows rows' : List Text}
    (h : List.Forall₂ (fun r r' => Statement.read r = Statement.read r') rows rows')
    (first : Nat) : placeRows first rows = placeRows first rows' := by
  induction h generalizing first with
  | nil => rfl
  | @cons row row' rows rows' hrow _ ih =>
      cases hread : Statement.read row with
      | error fault =>
          rw [placeRows_cons_error hread, placeRows_cons_error (hrow ▸ hread)]
      | ok found =>
          rw [placeRows_cons_ok hread, placeRows_cons_ok (hrow ▸ hread), ih]

/-- Where rows have statements, the first row can be read, and what is read from
    it comes in front. -/
theorem placeRows_cons_eq_ok {row : Text} {rows : List Text} {first : Nat} {placed : List Placed}
    (h : placeRows first (row :: rows) = .ok placed) :
    ∃ found rest, Statement.read row = .ok found ∧ placeRows (first + 1) rows = .ok rest ∧
      placed = (found.map (Placed.mk first)).toList ++ rest := by
  cases hread : Statement.read row with
  | error fault =>
      rw [placeRows_cons_error hread] at h
      exact nomatch h
  | ok found =>
      rw [placeRows_cons_ok hread] at h
      rcases exists_of_map_eq_ok h with ⟨rest, hrest, heq⟩
      exact ⟨found, rest, rfl, hrest, heq.symm⟩

/-- In a source without errors, each row can be read. -/
theorem exists_read_of_placeRows_eq_ok {rows : List Text} {first : Nat} {placed : List Placed}
    (h : placeRows first rows = .ok placed) {row : Text} (hrow : row ∈ rows) :
    ∃ found, Statement.read row = .ok found := by
  induction rows generalizing first placed with
  | nil => exact nomatch hrow
  | cons top rows ih =>
      rcases placeRows_cons_eq_ok h with ⟨found, rest, hread, hrest, _⟩
      rcases List.mem_cons.mp hrow with rfl | hrow
      · exact ⟨found, hread⟩
      · exact ih hrest hrow

/-- Rows have statements with certain bytes if each of them can be read, and if
    these are the bytes on them. -/
theorem exists_placeRows_iff (first : Nat) (rows : List Text) (bytes : List UInt8) :
    (∃ placed, placeRows first rows = .ok placed ∧ (Program.ofStatements placed).bytes = bytes) ↔
      (∀ row ∈ rows, ∃ found, Statement.read row = .ok found) ∧
        rows.flatMap Statement.bytesOn = bytes := by
  induction rows generalizing first bytes with
  | nil =>
      refine ⟨?_, ?_⟩
      · rintro ⟨placed, hplaced, rfl⟩
        cases hplaced
        exact ⟨List.forall_mem_nil _, rfl⟩
      · rintro ⟨_, rfl⟩
        exact ⟨[], rfl, rfl⟩
  | cons row rows ih =>
      -- A row adds its own bytes in front, if it has any.
      have hbytes : ∀ found rest, Statement.read row = .ok found →
          (Program.ofStatements ((found.map (Placed.mk first)).toList ++ rest)).bytes
            = Statement.bytesOn row ++ (Program.ofStatements rest).bytes := by
        intro found rest hread
        rw [Statement.bytesOn_of_read hread]
        cases found <;> rfl
      rw [List.forall_mem_cons, List.flatMap_cons]
      refine ⟨?_, ?_⟩
      · rintro ⟨placed, hplaced, rfl⟩
        rcases placeRows_cons_eq_ok hplaced with ⟨found, rest, hread, hrest, rfl⟩
        rcases (ih (first + 1) _).mp ⟨rest, hrest, rfl⟩ with ⟨hall, heq⟩
        exact ⟨⟨⟨found, hread⟩, hall⟩, by rw [hbytes found rest hread, heq]⟩
      · rintro ⟨⟨⟨found, hread⟩, hall⟩, rfl⟩
        rcases (ih (first + 1) _).mpr ⟨hall, rfl⟩ with ⟨rest, hrest, heq⟩
        refine ⟨(found.map (Placed.mk first)).toList ++ rest, ?_, ?_⟩
        · rw [placeRows_cons_ok hread, hrest]
          rfl
        · rw [hbytes found rest hread, heq]

/-- Rows may give way to others with the same bytes. -/
theorem exists_placeRows_replace {first : Nat} {front rows rows' behind : List Text}
    {placed : List Placed} (h : placeRows first (front ++ (rows ++ behind)) = .ok placed)
    (hread : ∀ row ∈ rows', ∃ found, Statement.read row = .ok found)
    (hbytes : rows'.flatMap Statement.bytesOn = rows.flatMap Statement.bytesOn) :
    ∃ placed', placeRows first (front ++ (rows' ++ behind)) = .ok placed' ∧
      (Program.ofStatements placed').bytes = (Program.ofStatements placed).bytes := by
  rcases (exists_placeRows_iff first _ _).mp ⟨placed, h, rfl⟩ with ⟨hall, hflat⟩
  refine (exists_placeRows_iff first _ _).mpr ⟨?_, ?_⟩
  · rw [List.forall_mem_append, List.forall_mem_append] at hall ⊢
    exact ⟨hall.1, hread, hall.2.2⟩
  · rw [← hflat]
    simp only [List.flatMap_append, hbytes]

/-- A statement that has been placed was read from one of the rows, which is no
    earlier than the first. -/
theorem exists_row_of_mem_placed {rows : List Text} {first : Nat} {placed : List Placed}
    (h : placeRows first rows = .ok placed) {p : Placed} (hp : p ∈ placed) :
    first ≤ p.line ∧ ∃ row ∈ rows, Statement.read row = .ok (some p.statement) := by
  induction rows generalizing first placed with
  | nil =>
      cases h
      exact nomatch hp
  | cons top rows ih =>
      rcases placeRows_cons_eq_ok h with ⟨found, rest, hread, hrest, rfl⟩
      -- It is from the first row, or from a later one.
      rcases List.mem_append.mp hp with htop | hrows
      · cases found with
        | none => exact nomatch htop
        | some s =>
            have hp : p = ⟨first, s⟩ := List.mem_singleton.mp htop
            rw [hp]
            exact ⟨Nat.le_refl first, top, List.mem_cons_self, hread⟩
      · rcases ih hrest hrows with ⟨hline, row, hrow, hp⟩
        exact ⟨Nat.le_of_succ_le hline, row, List.mem_cons_of_mem _ hrow, hp⟩

end Source

end Chip8

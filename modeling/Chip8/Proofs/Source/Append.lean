import Chip8.Proofs.Source.Lines
import Chip8.Proofs.Source.Sheltered

/-!
# Sources Put Together

Two sources that are written one below the other make up a source. It says what
the two of them say, the second with its lines further down, if nothing runs
over the seam. Two things could. The last row of the upper source might go on
with the first row of the lower one, so the upper source has to end with its
row. And a comment might go on, so the hashes of the upper source have to come
in pairs, those of its stamps aside.

Nothing has to be asked of the lower source. In particular it may close no
comment, open one without an end or start with a stamp, all of which could
matter if a comment reached it from above.

The errors follow the same order. A fault in the upper source is found first,
wherever the lower one has its own.

## Main definitions

* `Placed.shift`, `AssemblyError.shift`: The same a number of lines further down.

## Theorems

* `exists_terminate_eq`: A text that ends with its row is made of lines.
* `placeRows_append`: Rows in front are read first, and their error counts first.
* `placeRows_shift`: Rows that are numbered from another line on.
* `rowCodes_append`: Rows with paired hashes do not reach those behind them.
* `statements_append`: The statements of two sources that are put together.
-/

namespace Chip8

open Text

namespace Text

theorem joinRows_append (ls : List Text) {rs : List Text} (hrs : rs ≠ []) :
    joinRows (ls ++ rs) = terminate ls ++ joinRows rs := by
  induction ls with
  | nil => rfl
  | cons l ls ih =>
      rw [List.cons_append, joinRows_cons l (List.append_ne_nil_of_right_ne_nil ls hrs), ih,
        terminate_cons, List.append_assoc, List.cons_append]

theorem joinRows_concat (ls : List Text) (last : Text) :
    joinRows (ls ++ [last]) = terminate ls ++ last := by
  rw [joinRows_append ls (List.cons_ne_nil last []), joinRows, List.intercalate_singleton]

/-- The rows of lines that were written above a text. -/
theorem rows_terminate_append {ls : List Text} (hls : ∀ l ∈ ls, '\n' ∉ l) (t : Text) :
    rows (terminate ls ++ t) = ls ++ rows t := by
  induction ls with
  | nil => rfl
  | cons l ls ih =>
      rw [List.forall_mem_cons] at hls
      rw [terminate_cons, List.append_assoc, List.cons_append, rows_append hls.1, ih hls.2,
        List.cons_append]

/-- A text that is empty or ends in a newline is made of lines. -/
theorem exists_terminate_eq {t : Text} (h : t = [] ∨ t.getLast? = some '\n') :
    ∃ ls, (∀ l ∈ ls, '\n' ∉ l) ∧ terminate ls = t := by
  rcases List.eq_nil_or_concat (rows t) with hnil | ⟨ls, last, hrows⟩
  · exact absurd hnil (rows_ne_nil t)
  rw [List.concat_eq_append] at hrows
  have hnewline : ∀ r ∈ ls ++ [last], '\n' ∉ r := by
    rw [← hrows]
    exact fun r hr => newline_not_mem_rows hr
  rw [List.forall_mem_append, List.forall_mem_singleton] at hnewline
  have ht : terminate ls ++ last = t := by
    rw [← joinRows_concat, ← hrows, joinRows_rows]
  refine ⟨ls, hnewline.1, ?_⟩
  -- Behind the last newline there is nothing.
  rcases List.eq_nil_or_concat last with rfl | ⟨front, c, rfl⟩
  · rwa [List.append_nil] at ht
  · rw [List.concat_eq_append] at ht hnewline
    rw [← ht, ← List.append_assoc, List.getLast?_concat] at h
    rcases h with hnil | hlast
    · exact absurd hnil (by simp)
    · rw [Option.some.inj hlast] at hnewline
      exact absurd (List.mem_append_right front List.mem_cons_self) hnewline.2

theorem count_newline_terminate {ls : List Text} (hls : ∀ l ∈ ls, '\n' ∉ l) :
    (terminate ls).count '\n' = ls.length := by
  induction ls with
  | nil => rfl
  | cons l ls ih =>
      rw [List.forall_mem_cons] at hls
      rw [terminate_cons, List.count_append, List.count_eq_zero.mpr hls.1, List.count_cons_self,
        ih hls.2, Nat.zero_add, List.length_cons]

end Text

/-! ## Further down -/

/-- A statement a number of lines further down. -/
def Placed.shift (k : Nat) (p : Placed) : Placed :=
  { p with line := p.line + k }

/-- An error a number of lines further down. -/
def AssemblyError.shift (k : Nat) (e : AssemblyError) : AssemblyError :=
  { e with line := e.line + k }

namespace Program

theorem ofStatements_append (ps qs : List Placed) :
    ofStatements (ps ++ qs) = ⟨(ofStatements ps).bytes ++ (ofStatements qs).bytes,
      (ofStatements ps).lines ++ (ofStatements qs).lines⟩ := by
  simp only [ofStatements, List.flatMap_append]

/-- Statements further down have the same bytes, and all lines of their table are
    further down. -/
theorem ofStatements_shift (k : Nat) (ps : List Placed) :
    ofStatements (ps.map (·.shift k))
      = ⟨(ofStatements ps).bytes, (ofStatements ps).lines.map (· + k)⟩ := by
  simp only [ofStatements, List.flatMap_map, List.map_flatMap, List.map_replicate]
  rfl

end Program

namespace Source

/-- Rows that are numbered from another line on have the same statements and the
    same error, as many lines further down. -/
theorem placeRows_shift (k first : Nat) (rows : List Text) :
    placeRows (first + k) rows
      = ((placeRows first rows).map (·.map (·.shift k))).mapError (·.shift k) := by
  induction rows generalizing first with
  | nil => rfl
  | cons row rows ih =>
      cases hread : Statement.read row with
      | error fault =>
          rw [placeRows_cons_error hread, placeRows_cons_error hread]
          rfl
      | ok found =>
          rw [placeRows_cons_ok hread, placeRows_cons_ok hread, Nat.add_right_comm, ih]
          cases placeRows (first + 1) rows with
          | error e => rfl
          | ok placed => cases found <;> rfl

/-- Rows in front of others are read first. If they have an error, it is the error
    of all, and otherwise their statements come first. -/
theorem placeRows_append (first : Nat) (front rows : List Text) :
    placeRows first (front ++ rows) = (do
      let ps ← placeRows first front
      let qs ← placeRows (first + front.length) rows
      return ps ++ qs) := by
  induction front generalizing first with
  | nil =>
      rw [List.nil_append, List.length_nil, Nat.add_zero]
      cases placeRows first rows <;> rfl
  | cons row front ih =>
      rw [List.cons_append]
      cases hread : Statement.read row with
      | error fault =>
          rw [placeRows_cons_error hread, placeRows_cons_error hread]
          rfl
      | ok found =>
          rw [placeRows_cons_ok hread, placeRows_cons_ok hread, ih, List.length_cons,
            Nat.add_right_comm, Nat.add_assoc]
          -- The first row can be read, so what is behind it decides.
          cases placeRows (first + 1) front with
          | error e => rfl
          | ok ps =>
              cases placeRows (first + (front.length + 1)) rows with
              | error e => rfl
              | ok qs => exact congrArg Except.ok (List.append_assoc _ _ _).symm

end Source

namespace Comment

theorem length_rowCodes (before : Nat) (rs : List Text) :
    (rowCodes before rs).length = rs.length := by
  induction rs generalizing before with
  | nil => rfl
  | cons r rs ih => rw [rowCodes, List.length_cons, List.length_cons, ih]

/-- Rows whose hashes come in pairs are read as if nothing were behind them, and do
    not reach what is. -/
theorem rowCodes_append {front rs : List Text} (hfront : ∀ r ∈ front, '\n' ∉ r)
    (heven : hashes front.flatten % 2 = 0) :
    rowCodes 0 (front ++ rs) = rowCodes 0 front ++ rowCodes 0 rs := by
  have hnone : (0 + hashes front.flatten) % 2 = 1 → ('#' ∈ joinRows rs ↔ '#' ∈ joinRows []) := by
    omega
  have hsame : rowCodes (0 + hashes front.flatten) rs = rowCodes 0 rs :=
    rowCodes_congr fun _ => by omega
  rcases exists_rowCodes_append hfront hnone with ⟨codes, hempty, hall⟩
  rw [List.append_nil, rowCodes, List.append_nil] at hempty
  rw [hall, hsame, hempty]

end Comment

namespace Source

open Comment

/-- The statements of lines that are written above a source. -/
theorem statements_terminate_append {ls : List Text} (hls : ∀ l ∈ ls, '\n' ∉ l)
    (heven : hashes (ls.map dropStamp).flatten % 2 = 0) (src : Text) :
    statements (terminate ls ++ src) = (do
      let ps ← statements (terminate ls)
      let qs ← ((statements src).map (·.map (·.shift ls.length))).mapError (·.shift ls.length)
      return ps ++ qs) := by
  have hcodes : codeRows (terminate ls ++ src)
      = rowCodes 0 (ls.map dropStamp) ++ codeRows src := by
    rw [codeRows_eq_rowCodes, codeRows_eq_rowCodes, rows_terminate_append hls, List.map_append,
      rowCodes_append (newline_not_mem_map_dropStamp hls) heven]
  have hlength : (rowCodes 0 (ls.map dropStamp)).length = ls.length := by
    rw [length_rowCodes, List.length_map]
  rw [statements, hcodes, placeRows_append, hlength, placeRows_shift, statements_terminate hls]
  rfl

/-- The statements of two sources that are put together. The upper one is empty or
    ends in a newline, and without its stamps it has an even number of hashes; the
    lower one may be any text. An error of the upper source is the error of both.
    Otherwise an error of the lower one is, as many lines further down as the upper
    source has. If neither has an error, the statements of the lower source follow
    those of the upper one, further down by as many lines, and so do the bytes and
    the line tables of the programs. -/
theorem statements_append {upper : Text} (hend : upper = [] ∨ upper.getLast? = some '\n')
    (heven : hashes ((rows upper).map dropStamp).flatten % 2 = 0) (lower : Text) :
    (∀ e, statements upper = .error e → statements (upper ++ lower) = .error e) ∧
      (∀ ps e, statements upper = .ok ps → statements lower = .error e →
        statements (upper ++ lower) = .error (e.shift (upper.count '\n'))) ∧
      (∀ ps qs, statements upper = .ok ps → statements lower = .ok qs →
        statements (upper ++ lower) = .ok (ps ++ qs.map (·.shift (upper.count '\n')))) ∧
      ∀ p q, assemble upper = .ok p → assemble lower = .ok q →
        assemble (upper ++ lower)
          = .ok ⟨p.bytes ++ q.bytes, p.lines ++ q.lines.map (· + upper.count '\n')⟩ := by
  rcases exists_terminate_eq hend with ⟨ls, hls, rfl⟩
  -- The last row of the upper source is empty, and the lower source begins on it.
  have hspare : (rows (terminate ls)).map dropStamp = ls.map dropStamp ++ [[]] := by
    rw [rows_terminate hls, List.map_append]
    rfl
  rw [hspare, List.flatten_concat, List.append_nil] at heven
  have hboth := statements_terminate_append hls heven lower
  have hjoined : ∀ ps qs, statements (terminate ls) = .ok ps → statements lower = .ok qs →
      statements (terminate ls ++ lower) = .ok (ps ++ qs.map (·.shift ls.length)) := by
    intro ps qs hupper hlower
    rw [hboth, hupper, hlower]
    rfl
  rw [count_newline_terminate hls]
  refine ⟨?_, ?_, hjoined, ?_⟩
  · intro e hupper
    rw [hboth, hupper]
    rfl
  · intro ps e hupper hlower
    rw [hboth, hupper, hlower]
    rfl
  · intro p q hupper hlower
    rcases exists_of_map_eq_ok hupper with ⟨ps, hps, rfl⟩
    rcases exists_of_map_eq_ok hlower with ⟨qs, hqs, rfl⟩
    rw [assemble, hjoined ps qs hps hqs, Except.map, Program.ofStatements_append,
      Program.ofStatements_shift]

/-- A comment that spans two lines below a stamp, and a source that opens a comment
    which is never closed. -/
theorem statements_append_spanning :
    let upper := "#@ x # ret # a\nb # clear\n".toList
    let lower := "db 1, 2 # open\nret\n".toList
    (upper = [] ∨ upper.getLast? = some '\n') ∧
      hashes ((rows upper).map dropStamp).flatten % 2 = 0 ∧
      assemble (upper ++ lower)
        = .ok ⟨[0x00, 0xEE, 0x00, 0xE0, 1, 2, 0x00, 0xEE], [1, 1, 2, 2, 3, 3, 4, 4]⟩ := by
  intro upper lower
  have hend : upper = [] ∨ upper.getLast? = some '\n' := Or.inr rfl
  have heven : hashes ((rows upper).map dropStamp).flatten % 2 = 0 := by decide +kernel
  have hupper : assemble upper = .ok ⟨[0x00, 0xEE, 0x00, 0xE0], [1, 1, 2, 2]⟩ := rfl
  have hlower : assemble lower = .ok ⟨[1, 2, 0x00, 0xEE], [1, 1, 2, 2]⟩ := rfl
  exact ⟨hend, heven, (statements_append hend heven lower).2.2.2 _ _ hupper hlower⟩

end Source

end Chip8

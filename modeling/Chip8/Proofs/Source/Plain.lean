import Chip8.Proofs.Source.Lines

/-!
# Sources Without Comments

A source in which there is no hash has neither stamps nor comments. Its lines are
its code, each is read by itself, and a statement can be traced back to the line
that it stands on. That line splits the others in two, and so it does with the
statements, so the bytes in front of the statement are those on the lines in front
of it.

## Theorems

* `hash_not_mem_lines`: No line has a hash.
* `rowCodes_of_not_mem`: Rows without hashes are code.
* `read_dropReturn`: The carriage return at the end of a line is not read.
* `placeLines_of_not_mem`: The statements of lines without hashes.
* `exists_row_of_append`: The row of a statement, between other rows.
-/

namespace Chip8

open Text

namespace Comment

theorem dropStamp_of_not_mem {r : Text} (hr : '#' ∉ r) : dropStamp r = r := by
  cases r with
  | nil => rfl
  | cons c r => exact dropStamp_of_head_ne (fun hc => hr (hc ▸ List.mem_cons_self)) r

theorem map_dropStamp_of_not_mem {rs : List Text} (hrs : ∀ r ∈ rs, '#' ∉ r) :
    rs.map dropStamp = rs :=
  (List.map_congr_left fun r hr => dropStamp_of_not_mem (hrs r hr)).trans (List.map_id rs)

theorem hash_not_mem_dropReturn {r : Text} (hr : '#' ∉ r) : '#' ∉ dropReturn r := by
  rw [dropReturn]
  split
  · exact fun h => hr (List.dropLast_subset r h)
  · exact hr

/-- No line of a source without hashes has one. -/
theorem hash_not_mem_lines {src : Text} (h : '#' ∉ src) : ∀ l ∈ lines src, '#' ∉ l := by
  have hrows : ∀ r ∈ rows src, '#' ∉ r := by
    intro r hr hhash
    rw [← joinRows_rows src] at h
    exact h ((hash_mem_joinRows (rows src)).mpr ⟨r, hr, hhash⟩)
  rcases List.eq_nil_or_concat (rows src) with hnil | ⟨ended, last, heq⟩
  · exact absurd hnil (rows_ne_nil src)
  rw [List.concat_eq_append] at heq
  rw [heq, List.forall_mem_append, List.forall_mem_singleton] at hrows
  rw [lines_of_rows heq, List.forall_mem_append]
  constructor
  · intro l hl
    rcases List.mem_map.mp hl with ⟨r, hr, rfl⟩
    exact hash_not_mem_dropReturn (hrows.1 r hr)
  · split
    · exact List.forall_mem_nil _
    · rw [List.forall_mem_singleton]
      exact hrows.2

/-- Rows without hashes are code. -/
theorem rowCodes_of_not_mem {rs : List Text} (hrs : ∀ r ∈ rs, '#' ∉ r) (before : Nat) :
    rowCodes before rs = rs := by
  induction rs generalizing before with
  | nil => rfl
  | cons r rs ih =>
      rw [List.forall_mem_cons] at hrs
      have hahead : ahead (joinRows rs) = [] := if_neg (hash_not_mem_joinRows hrs.2)
      rw [rowCodes, hahead, List.append_nil, uncomment_of_not_mem hrs.1, ih hrs.2]

end Comment

open Comment

/-- The carriage return at the end of a row is not read. -/
theorem Statement.read_dropReturn (r : Text) : read (dropReturn r) = read r := by
  by_cases hreturn : r.getLast? = some '\r'
  · conv_rhs => rw [← dropReturn_concat hreturn]
    exact (read_concat (by decide) _).symm
  · rw [dropReturn, if_neg hreturn]

namespace Source

theorem placeLines_of_not_mem {ls : List Text} (hls : ∀ l ∈ ls, '#' ∉ l) :
    placeLines ls = placeRows 1 ls := by
  rw [placeLines, map_dropStamp_of_not_mem hls, rowCodes_of_not_mem hls]

/-- A statement between others stands on a row between others, and in front of
    both are the same bytes. -/
theorem exists_row_of_append {rows : List Text} {first : Nat} {front behind : List Placed}
    {p : Placed} (h : placeRows first rows = .ok (front ++ p :: behind)) :
    ∃ above row below, rows = above ++ row :: below ∧ p.line = first + above.length ∧
      Statement.read row = .ok (some p.statement) ∧
      above.flatMap Statement.bytesOn = front.flatMap Placed.bytes := by
  induction rows generalizing first front with
  | nil => exact absurd (Except.ok.inj h).symm (List.append_ne_nil_of_right_ne_nil _ nofun)
  | cons top rows ih =>
      rcases placeRows_cons_eq_ok h with ⟨found, rest, hread, hrest, heq⟩
      have htop := Statement.bytesOn_of_read hread
      cases found with
      | none =>
          -- A blank row is above the statement, with no bytes.
          rw [Option.map_none, Option.toList_none, List.nil_append] at heq
          rw [← heq] at hrest
          rcases ih hrest with ⟨above, row, below, rfl, hline, hrow, hbytes⟩
          refine ⟨top :: above, row, below, rfl, ?_, hrow, ?_⟩
          · rw [hline, List.length_cons]
            omega
          · rw [List.flatMap_cons, htop, hbytes]
            rfl
      | some s =>
          rw [Option.map_some, Option.toList_some, List.singleton_append] at heq
          cases front with
          | nil =>
              -- The statement is the one on this row.
              cases heq
              exact ⟨[], top, rows, rfl, rfl, hread, rfl⟩
          | cons q front =>
              rw [List.cons_append, List.cons.injEq] at heq
              rcases heq with ⟨rfl, rfl⟩
              rcases ih hrest with ⟨above, row, below, rfl, hline, hrow, hbytes⟩
              refine ⟨top :: above, row, below, rfl, ?_, hrow, ?_⟩
              · rw [hline, List.length_cons]
                omega
              · rw [List.flatMap_cons, List.flatMap_cons, htop, hbytes]
                rfl

end Source

end Chip8

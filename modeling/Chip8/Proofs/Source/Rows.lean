import Chip8.Text.Basic

/-!
# Rows and Lines

A text is taken apart in two ways, and the two disagree about its end. Behind
a final newline there is one more row, an empty one, but no more line; and a
line gives up the carriage return in front of its newline, while a row keeps
it.

A text whose lines all end in newlines is where both can be compared. It is
what every writer in this library produces: its rows are the lines that were
written and an empty one, and its lines are the same lines once more, except
for a carriage return at the end of some of them.

## Theorems

* `rows_append`, `rows_of_not_mem`: The first row of a text.
* `newline_not_mem_rows`, `newline_not_mem_lines`: Neither rows nor lines have
  newlines in them.
* `joinRows_cons`: Joining rows from the left.
* `rows_terminate`: The rows of lines that were written.
* `lines_terminate`: The lines of lines that were written.
* `lines_of_rows`, `lines_joinRows`, `lines_joinRows_append`: The lines of a text
  from its rows.
* `terminate_injective`: Different lines are written differently.
-/

namespace Chip8

namespace Text

/-- What stands in front of the first newline is the first row. -/
theorem rows_append {r : Text} (hr : '\n' ∉ r) (t : Text) : rows (r ++ '\n' :: t) = r :: rows t :=
  List.splitOn_append_cons_self_of_not_mem hr t

theorem rows_of_not_mem {r : Text} (hr : '\n' ∉ r) : rows r = [r] :=
  List.splitOn_eq_singleton hr

theorem rows_ne_nil (t : Text) : rows t ≠ [] :=
  List.splitOn_ne_nil '\n' t

theorem newline_not_mem_rows {t r : Text} (h : r ∈ rows t) : '\n' ∉ r := by
  induction t generalizing r with
  | nil =>
      rw [rows, List.splitOn_nil, List.mem_singleton] at h
      rw [h]
      exact List.not_mem_nil
  | cons c t ih =>
      rw [rows, List.splitOn_cons_eq_if_modifyHead] at h
      -- A newline ends the first row, and anything else goes in front of it.
      by_cases hc : c = '\n'
      · rw [if_pos (by simpa using hc), List.mem_cons] at h
        rcases h with rfl | h
        · exact List.not_mem_nil
        · exact ih h
      · rw [if_neg (by simpa using hc)] at h
        change r ∈ (rows t).modifyHead (c :: ·) at h
        cases hrows : rows t with
        | nil => exact absurd hrows (rows_ne_nil t)
        | cons first rest =>
            rw [hrows, List.modifyHead_cons, List.mem_cons] at h
            rcases h with rfl | h
            · rw [List.mem_cons, not_or]
              exact ⟨fun heq => hc heq.symm, ih (hrows ▸ List.mem_cons_self)⟩
            · exact ih (hrows ▸ List.mem_cons_of_mem first h)

theorem joinRows_cons (r : Text) {rs : List Text} (hrs : rs ≠ []) :
    joinRows (r :: rs) = r ++ '\n' :: joinRows rs := by
  rw [joinRows, joinRows, List.intercalate_cons_of_ne_nil hrs, List.append_assoc]
  rfl

theorem terminate_cons (l : Text) (ls : List Text) :
    terminate (l :: ls) = l ++ '\n' :: terminate ls := by
  rw [terminate, List.flatMap_cons, List.append_assoc]
  rfl

/-- Lines that were written are rows, with an empty row behind the last
    newline. -/
theorem rows_terminate {ls : List Text} (hls : ∀ l ∈ ls, '\n' ∉ l) :
    rows (terminate ls) = ls ++ [[]] := by
  induction ls with
  | nil => rfl
  | cons l ls ih =>
      rw [terminate_cons, rows_append (hls l List.mem_cons_self),
        ih fun m hm => hls m (List.mem_cons_of_mem l hm), List.cons_append]

/-- Lines that were written are read back, each without a carriage return at
    its end. -/
theorem lines_terminate {ls : List Text} (hls : ∀ l ∈ ls, '\n' ∉ l) :
    lines (terminate ls) = ls.map dropReturn := by
  rw [lines, rows_terminate hls, List.dropLast_concat, List.getLast?_concat]

theorem terminate_injective {ls ms : List Text} (hls : ∀ l ∈ ls, '\n' ∉ l)
    (hms : ∀ m ∈ ms, '\n' ∉ m) (h : terminate ls = terminate ms) : ls = ms := by
  have hrows := congrArg rows h
  rw [rows_terminate hls, rows_terminate hms] at hrows
  exact List.append_cancel_right hrows

theorem newline_not_mem_dropReturn {r : Text} (hr : '\n' ∉ r) : '\n' ∉ dropReturn r := by
  rw [dropReturn]
  split
  · exact fun h => hr (List.dropLast_subset r h)
  · exact hr

theorem lines_of_rows {t : Text} {ended : List Text} {last : Text} (h : rows t = ended ++ [last]) :
    lines t = ended.map dropReturn ++ if last = [] then [] else [last] := by
  rw [lines, h, List.dropLast_concat, List.getLast?_concat]
  cases last with
  | nil => exact (List.append_nil _).symm
  | cons c last => rfl

/-- Rows that are joined are the lines of the text, if none of them is empty or
    ends in a carriage return. -/
theorem lines_joinRows {ls : List Text} (hnewline : ∀ l ∈ ls, '\n' ∉ l)
    (hline : ∀ l ∈ ls, l ≠ [] ∧ dropReturn l = l) : lines (joinRows ls) = ls := by
  rcases List.eq_nil_or_concat ls with rfl | ⟨ended, last, hls⟩
  · rfl
  rw [List.concat_eq_append] at hls
  have hrows : rows (joinRows ls) = ended ++ [last] := by
    rw [rows_joinRows ls hnewline (by simp [hls]), hls]
  rw [hls, List.forall_mem_append, List.forall_mem_singleton] at hline
  have hended : ended.map dropReturn = ended :=
    (List.map_congr_left fun l hl => (hline.1 l hl).2).trans (List.map_id ended)
  rw [lines_of_rows hrows, hended, if_neg hline.2.1, hls]

/-- Rows in front of others give up a carriage return when they are joined with
    them. -/
theorem lines_joinRows_append {front behind : List Text} (hfront : ∀ r ∈ front, '\n' ∉ r)
    (hbehind : ∀ r ∈ behind, '\n' ∉ r) (hne : behind ≠ []) :
    lines (joinRows (front ++ behind)) = front.map dropReturn ++ lines (joinRows behind) := by
  rcases List.eq_nil_or_concat behind with hnil | ⟨ended, last, heq⟩
  · exact absurd hnil hne
  rw [List.concat_eq_append] at heq
  have hrows : rows (joinRows behind) = ended ++ [last] := by
    rw [rows_joinRows behind hbehind hne, heq]
  have hboth : rows (joinRows (front ++ behind)) = (front ++ ended) ++ [last] := by
    rw [rows_joinRows _ (List.forall_mem_append.mpr ⟨hfront, hbehind⟩)
      (List.append_ne_nil_of_right_ne_nil _ hne), heq, List.append_assoc]
  rw [lines_of_rows hboth, lines_of_rows hrows, List.map_append, List.append_assoc]

theorem newline_not_mem_lines {t l : Text} (h : l ∈ lines t) : '\n' ∉ l := by
  have hended : ∀ m ∈ (rows t).dropLast.map dropReturn, '\n' ∉ m := by
    intro m hm
    rcases List.mem_map.mp hm with ⟨r, hr, rfl⟩
    exact newline_not_mem_dropReturn (newline_not_mem_rows (List.dropLast_subset _ hr))
  unfold lines at h
  split at h
  · exact hended l h
  · exact hended l h
  · rename_i last _ hlast
    rcases List.mem_append.mp h with h | h
    · exact hended l h
    · rw [List.mem_singleton] at h
      rw [h]
      exact newline_not_mem_rows (List.mem_of_getLast? hlast)

end Text

end Chip8

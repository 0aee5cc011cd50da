import Chip8.Proofs.Source.Alike

/-!
# Lines Instead of Rows

A source is assembled by its rows, while a listing is revised by its lines. A
line lacks the carriage return that the row has in front of its newline, and
there is no line for the empty row behind a final newline.

Neither of these makes a difference to the statements of a source, so they can
as well be read from its lines. The same goes for lines that are put together
again: whether newlines are put between them or behind them, it is these lines
that the statements are read from.

## Main definitions

* `Source.placeLines`: The statements that stand on lines.

## Theorems

* `dropStamp_concat`: A stamp does not reach to the end of its row.
* `statements_eq_placeLines`: Statements are read from the lines of a source.
* `statements_joinRows`, `statements_terminate`: The same for lines that have
  been put together.
-/

namespace Chip8

open Text

namespace Comment

/-- What stands at the end of a row is not part of its stamp, unless it is a
    hash. -/
theorem dropStamp_concat {c : Char} (hc : c ≠ '#') (r : Text) :
    dropStamp (r ++ [c]) = dropStamp r ++ [c] := by
  rcases dropStamp_eq_self_or r with hsame | ⟨s, hs, heq⟩
  · rcases dropStamp_eq_self_or (r ++ [c]) with hsame' | ⟨s, hs, heq⟩
    · rw [hsame, hsame']
    · -- The stamp ends in a hash, so the row would start with it as well.
      have hdrop := dropStamp_append hs
      rcases hs with ⟨d, body, _, _, rfl⟩
      rcases List.eq_nil_or_concat (dropStamp (r ++ [c])) with hnil | ⟨t, e, ht⟩
      · have hlast := congrArg List.getLast? heq
        rw [hnil, List.append_nil, List.getLast?_concat] at hlast
        have hhash : ('#' :: '@' :: d :: (body ++ ['#'])).getLast? = some '#' :=
          List.getLast?_concat (l := '#' :: '@' :: d :: body)
        exact absurd (Option.some.inj (hlast.trans hhash)) hc
      · rw [ht, List.concat_eq_append, ← List.append_assoc] at heq
        have hr := (List.append_inj' heq rfl).1
        rw [hr, hdrop] at hsame
        have hlength := congrArg List.length hsame
        rw [List.length_append, List.length_cons] at hlength
        omega
  · conv_lhs => rw [heq, List.append_assoc, dropStamp_append hs]

theorem dropReturn_concat {r : Text} (h : r.getLast? = some '\r') : dropReturn r ++ ['\r'] = r := by
  rw [dropReturn, if_pos h]
  exact List.dropLast_append_getLast? _ h

-- The carriage return at the end of a row may be dropped.
theorem alike_dropReturn {r : Text} (hr : '\n' ∉ r) (before : Nat) :
    Alike before (dropStamp r) (dropStamp (dropReturn r)) := by
  by_cases hreturn : r.getLast? = some '\r'
  · have hstamp : dropStamp r = dropStamp (dropReturn r) ++ ['\r'] := by
      conv_lhs => rw [← dropReturn_concat hreturn]
      exact dropStamp_concat (by decide) _
    rw [hstamp]
    exact (Alike.concat_return before
      (newline_not_mem_dropStamp (newline_not_mem_dropReturn hr))).symm
  · rw [dropReturn, if_neg hreturn]
    exact .refl before _

/-- The carriage returns at the ends of rows may be dropped, whatever rows come
    behind them. -/
theorem allAlike_dropReturn {rs : List Text} (hrs : ∀ r ∈ rs, '\n' ∉ r) (before : Nat)
    (later : List Text) :
    AllAlike before (rs.map dropStamp ++ later) ((rs.map dropReturn).map dropStamp ++ later) := by
  induction rs generalizing before with
  | nil => exact .refl before later
  | cons r rs ih =>
      rw [List.forall_mem_cons] at hrs
      exact .cons (alike_dropReturn hrs.1 before) (ih hrs.2 _)

/-- An empty row at the end adds an empty row of code. -/
theorem rowCodes_concat_nil (before : Nat) (rs : List Text) :
    rowCodes before (rs ++ [[]]) = rowCodes before rs ++ [[]] := by
  induction rs generalizing before with
  | nil =>
      have hnone : uncomment before [] = [] := uncomment_of_not_mem List.not_mem_nil before
      rw [List.nil_append, rowCodes, rowCodes, List.nil_append]
      exact congrArg (· :: []) hnone
  | cons r rs ih =>
      -- An empty row closes no comment, so the rows above do not see it.
      have hahead : ahead (joinRows (rs ++ [[]])) = ahead (joinRows rs) := by
        refine if_congr ?_ rfl rfl
        simp only [hash_mem_joinRows, List.mem_append, List.mem_singleton, or_and_right, exists_or,
          exists_eq_left, List.not_mem_nil, or_false]
      rw [List.cons_append, rowCodes, rowCodes, hahead, ih, List.cons_append]

end Comment

namespace Source

open Comment

-- An empty row at the end adds no statement.
theorem placeRows_concat_nil (first : Nat) (rows : List Text) :
    placeRows first (rows ++ [[]]) = placeRows first rows := by
  induction rows generalizing first with
  | nil => rfl
  | cons row rows ih =>
      rw [List.cons_append]
      cases hread : Statement.read row with
      | error fault => rw [placeRows_cons_error hread, placeRows_cons_error hread]
      | ok found => rw [placeRows_cons_ok hread, placeRows_cons_ok hread, ih]

/-- The statements that stand on lines, once stamps and comments are taken off
    them. -/
def placeLines (ls : List Text) : Except AssemblyError (List Placed) :=
  placeRows 1 (rowCodes 0 (ls.map dropStamp))

theorem placeLines_concat_nil (ls : List Text) : placeLines (ls ++ [[]]) = placeLines ls := by
  have hspare : dropStamp [] = [] := rfl
  rw [placeLines, List.map_append, List.map_singleton, hspare, rowCodes_concat_nil,
    placeRows_concat_nil, placeLines]

theorem statements_eq_placeLines_rows (src : Text) : statements src = placeLines (rows src) := by
  rw [statements, codeRows_eq_rowCodes, placeLines]

/-- The statements of a source are those on its lines. -/
theorem statements_eq_placeLines (src : Text) : statements src = placeLines (lines src) := by
  rcases List.eq_nil_or_concat (rows src) with hnil | ⟨ended, last, hrows⟩
  · exact absurd hnil (rows_ne_nil src)
  rw [List.concat_eq_append] at hrows
  have hended : ∀ r ∈ ended, '\n' ∉ r := fun r hr =>
    newline_not_mem_rows (hrows ▸ List.mem_append_left [last] hr)
  -- Lines have lost the carriage returns that rows still have. No statement depends on them.
  have hreturn : placeLines (ended ++ [last]) = placeLines (ended.map dropReturn ++ [last]) := by
    have halike := allAlike_dropReturn hended 0 [dropStamp last]
    have hnewline : ∀ r ∈ ended.map dropStamp ++ [dropStamp last], '\n' ∉ r := by
      have hall : ∀ r ∈ (rows src).map dropStamp, '\n' ∉ r :=
        newline_not_mem_map_dropStamp fun _ hr => newline_not_mem_rows hr
      rwa [hrows, List.map_append, List.map_singleton] at hall
    rw [placeLines, placeLines, List.map_append, List.map_append, List.map_singleton]
    exact (placeRows_congr (halike.read_rowCodes hnewline rfl) 1).symm
  rw [statements_eq_placeLines_rows, hrows, hreturn, lines_of_rows hrows]
  -- What is left is the last row. It is no line if it is empty.
  split
  · rename_i hlast
    rw [hlast, placeLines_concat_nil, List.append_nil]
  · rfl

/-- Lines with newlines between them have the statements of these lines. -/
theorem statements_joinRows {ls : List Text} (hls : ∀ l ∈ ls, '\n' ∉ l) :
    statements (joinRows ls) = placeLines ls := by
  by_cases hnil : ls = []
  · rw [hnil]
    rfl
  · rw [statements_eq_placeLines_rows, rows_joinRows ls hls hnil]

/-- Lines with newlines behind them have the statements of these lines. -/
theorem statements_terminate {ls : List Text} (hls : ∀ l ∈ ls, '\n' ∉ l) :
    statements (terminate ls) = placeLines ls := by
  rw [statements_eq_placeLines_rows, rows_terminate hls, placeLines_concat_nil]

end Source

end Chip8

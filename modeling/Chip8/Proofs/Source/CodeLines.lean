import Chip8.Proofs.Notation.Emission
import Chip8.Proofs.Source.Append

/-!
# The Code on a Line

A line is named by its number, counted from one, and it means two things: a row
of the source, as its reader sees it, and a row of code, which is what the
assembler reads. Between the two, stamps come off, rows are joined, comments are
removed from the whole text, and what is left is cut into rows again. A number
means the same line on both sides if this loses no row and adds none.

It does not, and what is left of a row consists of characters of that row, in
their order. Of the other rows it depends on how many hashes there are in front
and on whether there is one behind.

## Main definitions

* `Source.codeOnLine?`: The code on a line of a source.

## Theorems

* `length_codeRows`: There are as many rows of code as rows.
* `codeOnLine?_of_rows`: What the code of a row is.
* `exists_codeOnLine?_iff`: The lines of a source.
* `exists_rows_of_codeOnLine?`: Which row the code of a line is from.
-/

namespace Chip8

open Text

namespace Comment

-- No hash is kept, as each of them starts a comment or ends one.
theorem hash_not_mem_strip (place : Place) (t : Text) : '#' ∉ strip [] place t := by
  induction t generalizing place with
  | nil => cases place <;> exact List.not_mem_nil
  | cons c t ih =>
      -- A character that is kept is no hash, and neither is any behind it.
      have hkeep : ∀ place', c ≠ '#' → '#' ∉ strip [c] place' t := by
        intro place' hc
        rw [strip_eq_append]
        exact List.not_mem_cons_of_ne_of_not_mem (Ne.symm hc) (ih place')
      cases place <;> simp only [strip] <;> split
      · exact ih _
      · exact hkeep _ ‹_›
      · exact ih _
      · split
        · exact hkeep _ ‹_›
        · exact ih _
      · rename_i hnewline
        exact hkeep _ (hnewline ▸ by decide)
      · exact ih _

theorem uncomment_sublist (before : Nat) (r later : Text) :
    (uncomment before (r ++ ahead later)).Sublist r := by
  have hsub := strip_sublist (entry before (r ++ ahead later)) (r ++ ahead later)
  rcases List.sublist_append_iff.mp hsub with ⟨kept, rest, heq, hkept, hrest⟩
  -- The hash that was put behind the row is not kept.
  have hnone : rest = [] := by
    have hhash := hash_not_mem_strip (entry before (r ++ ahead later)) (r ++ ahead later)
    rw [heq, List.mem_append, not_or] at hhash
    unfold ahead at hrest
    split at hrest
    · rcases List.sublist_singleton.mp hrest with hnil | hahead
      · exact hnil
      · exact absurd (hahead ▸ List.mem_cons_self) hhash.2
    · exact List.sublist_nil.mp hrest
  rw [uncomment, heq, hnone, List.append_nil]
  exact hkept

/-- There are as many rows of code as there are rows. -/
theorem length_codeRows (src : Text) : (codeRows src).length = (rows src).length := by
  rw [codeRows_eq_rowCodes, length_rowCodes, List.length_map]

end Comment

namespace Source

open Comment

/-- The code on a line of a source, which is what is left of it without its stamp
    and without the comments of the whole text. Lines are counted from one. -/
def codeOnLine? (src : Text) : Nat → Option Text
  | 0 => none
  | index + 1 => (codeRows src)[index]?

variable {src : Text}

/-- The code of a row. -/
theorem codeOnLine?_of_rows {above below : List Text} {row : Text}
    (h : rows src = above ++ row :: below) :
    codeOnLine? src (above.length + 1)
      = some (uncomment (hashes (above.map dropStamp).flatten)
          (dropStamp row ++ ahead (joinRows (below.map dropStamp)))) := by
  have hcode := getElem?_rowCodes 0 (above.map dropStamp) (dropStamp row) (below.map dropStamp)
  rw [List.length_map, Nat.zero_add] at hcode
  rw [codeOnLine?, codeRows_eq_rowCodes, h, List.map_append, List.map_cons]
  exact hcode

-- A list is cut around one of its items.
theorem eq_take_append_cons_drop {α : Type} {items : List α} {k : Nat} {a : α}
    (h : items[k]? = some a) :
    items = items.take k ++ a :: items.drop (k + 1) ∧ (items.take k).length = k := by
  rcases List.getElem?_eq_some_iff.mp h with ⟨hlt, rfl⟩
  rw [← List.drop_eq_getElem_cons hlt, List.take_append_drop]
  exact ⟨rfl, List.length_take_of_le (Nat.le_of_lt hlt)⟩

/-- A line has code if and only if there is a row with its number. -/
theorem exists_codeOnLine?_iff (n : Nat) :
    (∃ code, codeOnLine? src n = some code) ↔ 1 ≤ n ∧ n ≤ (rows src).length := by
  cases n with
  | zero => exact iff_of_false nofun nofun
  | succ index =>
      rw [← length_codeRows, codeOnLine?, ← Option.isSome_iff_exists, isSome_getElem?]
      omega

/-- The code on a line is from the row with the number of the line, and what is left
    of that row is in its order. -/
theorem exists_rows_of_codeOnLine? {n : Nat} {code : Text} (h : codeOnLine? src n = some code) :
    ∃ above row below, rows src = above ++ row :: below ∧ above.length + 1 = n ∧
      code.Sublist row := by
  rcases (exists_codeOnLine?_iff n).mp ⟨code, h⟩ with ⟨hlow, hhigh⟩
  have hrow : (rows src)[n - 1]? = some (rows src)[n - 1] := List.getElem?_eq_getElem (by omega)
  rcases eq_take_append_cons_drop hrow with ⟨hrows, hlength⟩
  have hcode := codeOnLine?_of_rows hrows
  rw [hlength, Nat.sub_add_cancel hlow, h] at hcode
  refine ⟨_, _, _, hrows, by rw [hlength, Nat.sub_add_cancel hlow], ?_⟩
  rw [Option.some.inj hcode]
  exact (uncomment_sublist _ _ _).trans (dropStamp_sublist _)

end Source

end Chip8

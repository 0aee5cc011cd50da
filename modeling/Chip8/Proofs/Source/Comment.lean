import Chip8.Assembly.Comment
import Chip8.Proofs.Source.Rows
import Mathlib.Data.List.TakeWhile

/-!
# Stamps and Comments

What is taken off a source before it is read: stamps at the starts of its
lines, and then the comments of the whole text.

A stamp is recognised by its form alone, whatever stands in it, and it comes
off its line as a whole. A line gives up one stamp at a time; what was behind
it may start with another one.

A text without hashes has no comments, and stripping leaves it as it is.
Hashes that are part of a stamp do not count, as stamps go first. A listing
has no others, so its code can be read off line by line.

## Main definitions

* `IsStamp`: A text of the form of a stamp.

## Theorems

* `dropStamp_append`: A stamp comes off the text behind it.
* `dropStamp_eq_self_or`: A line that gives up something started with a stamp.
* `strip_code`, `stripComments_of_not_mem`: Text without hashes is kept.
* `codeRows_of_not_mem`: The code of a source whose hashes are all in stamps.
-/

namespace Chip8

namespace Comment

open Text

/-- A text of the form of a stamp: its marker, something without hashes, and
    the closing hash. -/
def IsStamp (s : Text) : Prop :=
  ∃ c body, c ≠ '#' ∧ '#' ∉ body ∧ s = '#' :: '@' :: c :: (body ++ ['#'])

theorem dropWhile_hash {body : Text} (hbody : '#' ∉ body) (rest : Text) :
    (body ++ '#' :: rest).dropWhile (· ≠ '#') = '#' :: rest := by
  induction body with
  | nil => rfl
  | cons c body ih =>
      rw [List.mem_cons, not_or] at hbody
      rw [List.cons_append, List.dropWhile_cons, if_pos (by simpa using Ne.symm hbody.1)]
      exact ih hbody.2

/-- A stamp comes off the text behind it. -/
theorem dropStamp_append {s : Text} (hs : IsStamp s) (t : Text) : dropStamp (s ++ t) = t := by
  rcases hs with ⟨c, body, hc, hbody, rfl⟩
  have hdrop : (body ++ ['#'] ++ t).dropWhile (· ≠ '#') = '#' :: t := by
    rw [List.append_assoc]
    exact dropWhile_hash hbody t
  simp only [List.cons_append, dropStamp, if_neg hc]
  rw [hdrop]

/-- A line that gives up anything started with a stamp. -/
theorem dropStamp_eq_self_or (line : Text) :
    dropStamp line = line ∨ ∃ s, IsStamp s ∧ line = s ++ dropStamp line := by
  unfold dropStamp
  split
  · rename_i c rest
    split
    · exact Or.inl rfl
    · rename_i hc
      split
      · rename_i first code hcode
        -- The text up to the closing hash is the stamp.
        have hfirst : first = '#' := by
          have h := List.head?_dropWhile_not (· ≠ '#') rest
          rw [hcode] at h
          simpa using h
        have hbody : '#' ∉ rest.takeWhile (· ≠ '#') := by
          intro hmem
          simpa using List.mem_takeWhile_imp hmem
        refine Or.inr ⟨'#' :: '@' :: c :: (rest.takeWhile (· ≠ '#') ++ ['#']),
          ⟨c, _, hc, hbody, rfl⟩, ?_⟩
        have hrest := List.takeWhile_append_dropWhile (p := (· ≠ '#')) (l := rest)
        rw [hcode, hfirst] at hrest
        simp only [List.cons_append, List.append_assoc, List.nil_append, hrest]
      · exact Or.inl rfl
  · exact Or.inl rfl

-- A line that does not start with a hash has no stamp to give up.
theorem dropStamp_of_head_ne {c : Char} (hc : c ≠ '#') (t : Text) :
    dropStamp (c :: t) = c :: t := by
  unfold dropStamp
  split
  · rename_i heq
    exact absurd (List.cons.inj heq).1 hc
  · rfl

/-- Outside of comments, text without hashes is kept. -/
theorem strip_code {r : Text} (hr : '#' ∉ r) (rest : Text) :
    strip [] .code (r ++ rest) = r ++ strip [] .code rest := by
  induction r with
  | nil => rfl
  | cons c r ih =>
      rw [List.mem_cons, not_or] at hr
      rw [List.cons_append, strip, if_neg (Ne.symm hr.1), strip_eq_append, ih hr.2]
      rfl

theorem stripComments_of_not_mem {t : Text} (ht : '#' ∉ t) : stripComments t = t := by
  have h := strip_code ht []
  rw [List.append_nil] at h
  rw [stripComments, h, strip, List.reverse_nil, List.append_nil]

theorem hash_mem_joinRows_cons (r : Text) (rs : List Text) :
    '#' ∈ joinRows (r :: rs) ↔ '#' ∈ r ∨ '#' ∈ joinRows rs := by
  cases rs with
  | nil =>
      rw [joinRows, joinRows, List.intercalate_singleton, List.intercalate_nil]
      exact (or_iff_left List.not_mem_nil).symm
  | cons q rs =>
      have hnewline : '#' ∈ '\n' :: joinRows (q :: rs) ↔ '#' ∈ joinRows (q :: rs) := by
        rw [List.mem_cons, or_iff_right (by decide)]
      rw [joinRows_cons r (List.cons_ne_nil q rs), List.mem_append, hnewline]

theorem hash_mem_joinRows (rs : List Text) : '#' ∈ joinRows rs ↔ ∃ r ∈ rs, '#' ∈ r := by
  induction rs with
  | nil => exact iff_of_false List.not_mem_nil fun ⟨_, hr, _⟩ => nomatch hr
  | cons r rs ih => simp only [hash_mem_joinRows_cons, ih, List.mem_cons, exists_eq_or_imp]

theorem hash_not_mem_joinRows {rs : List Text} (hrs : ∀ r ∈ rs, '#' ∉ r) : '#' ∉ joinRows rs := by
  rw [hash_mem_joinRows]
  rintro ⟨r, hr, hhash⟩
  exact hrs r hr hhash

theorem dropStamp_sublist (line : Text) : (dropStamp line).Sublist line := by
  rcases dropStamp_eq_self_or line with hsame | ⟨s, _, heq⟩
  · simp only [hsame, List.Sublist.refl]
  · have hsub := List.sublist_append_right s (dropStamp line)
    rwa [← heq] at hsub

theorem newline_not_mem_dropStamp {line : Text} (h : '\n' ∉ line) : '\n' ∉ dropStamp line :=
  fun hmem => h ((dropStamp_sublist line).subset hmem)

theorem newline_not_mem_map_dropStamp {ls : List Text} (hls : ∀ l ∈ ls, '\n' ∉ l) :
    ∀ r ∈ ls.map dropStamp, '\n' ∉ r := by
  intro r hr
  rcases List.mem_map.mp hr with ⟨l, hl, rfl⟩
  exact newline_not_mem_dropStamp (hls l hl)

/-- In a source whose hashes all belong to stamps, the code of a row is what
    stands behind its stamp. -/
theorem codeRows_of_not_mem {src : Text} {rs : List Text} (hrows : (rows src).map dropStamp = rs)
    (hrs : ∀ r ∈ rs, '#' ∉ r) : codeRows src = rs := by
  have hnewline : ∀ r ∈ rs, '\n' ∉ r := by
    rw [← hrows]
    exact newline_not_mem_map_dropStamp fun _ hr => newline_not_mem_rows hr
  have hne : rs ≠ [] := by
    rintro rfl
    exact rows_ne_nil src (List.map_eq_nil_iff.mp hrows)
  rw [codeRows, hrows, stripComments_of_not_mem (hash_not_mem_joinRows hrs)]
  exact rows_joinRows rs hnewline hne

end Comment

end Chip8

import Chip8.Text.Basic
import Mathlib.Data.List.TakeWhile

/-!
# The Words of a Line

A line falls into words at its separators, and how many of these stand between
two words makes no difference. The lemmas here read a line from the left: a
separator in front of it is passed over, and a word ends at the separator
behind it or at the end of the line. Together they determine the words of any
line that is given as words and separators.

## Main definitions

* `Text.IsWord`: Something that a line can hold as one word.

## Theorems

* `tokens_cons`: A separator in front of a line does not count.
* `tokens_append_cons`: A separator in the middle of a line divides its words.
* `tokens_word_append`, `tokens_word`: The first word of a line.
* `exists_tokens_cons`: A line that starts with a word has one.
-/

namespace Chip8

namespace Text

/-- A text that is not empty and has no separators in it. -/
def IsWord (w : Text) : Prop :=
  w ≠ [] ∧ ∀ c ∈ w, isSeparator c = false

instance (w : Text) : Decidable (IsWord w) :=
  have : Decidable (∀ c ∈ w, isSeparator c = false) := List.decidableBAll _ w
  inferInstanceAs (Decidable (_ ∧ _))

theorem tokens_nil : tokens [] = [] := by
  rw [tokens, List.splitOnP_nil]
  rfl

/-- A separator in front of a line does not count. -/
theorem tokens_cons {c : Char} (hc : isSeparator c = true) (line : Text) :
    tokens (c :: line) = tokens line := by
  rw [tokens, List.splitOnP_cons_eq_if_modifyHead, if_pos hc, List.filter_cons]
  rfl

/-- The words on both sides of a separator do not depend on each other. -/
theorem tokens_append_cons {c : Char} (hc : isSeparator c = true) (front behind : Text) :
    tokens (front ++ c :: behind) = tokens front ++ tokens behind := by
  rw [tokens, List.splitOnP_append_cons _ _ hc, List.filter_append]
  rfl

/-- A word in front of a separator is the first word of its line. -/
theorem tokens_word_append {w : Text} (hw : IsWord w) {c : Char} (hc : isSeparator c = true)
    (line : Text) : tokens (w ++ c :: line) = w :: tokens line := by
  rw [tokens, List.splitOnP_append_cons_of_forall_mem hw.2 c hc, List.filter_cons, if_pos]
  · rfl
  · simpa using hw.1

/-- A word alone on its line is its only word. -/
theorem tokens_word {w : Text} (hw : IsWord w) : tokens w = [w] := by
  rw [tokens, List.splitOnP_eq_singleton hw.2, List.filter_cons, if_pos]
  · rfl
  · simpa using hw.1

/-- A line that does not start with a separator starts with a word. -/
theorem exists_tokens_cons {c : Char} (hc : isSeparator c = false) (line : Text) :
    ∃ w ws, tokens (c :: line) = (c :: w) :: ws := by
  -- The first word ends at the first separator, if there is one.
  have hsplit := List.takeWhile_append_dropWhile (p := (!isSeparator ·)) (l := line)
  have hword : IsWord (c :: line.takeWhile (!isSeparator ·)) := by
    refine ⟨List.cons_ne_nil _ _, List.forall_mem_cons.mpr ⟨hc, ?_⟩⟩
    intro d hd
    simpa using List.mem_takeWhile_imp hd
  rw [← hsplit]
  cases hrest : line.dropWhile (!isSeparator ·) with
  | nil =>
      rw [List.append_nil]
      exact ⟨_, [], tokens_word hword⟩
  | cons d rest =>
      have hd : isSeparator d = true := by
        have h := List.head?_dropWhile_not (!isSeparator ·) line
        rw [hrest] at h
        simpa using h
      exact ⟨_, _, tokens_word_append hword hd rest⟩

theorem IsWord.append {v w : Text} (hv : IsWord v) (hw : ∀ c ∈ w, isSeparator c = false) :
    IsWord (v ++ w) := by
  refine ⟨List.append_ne_nil_of_left_ne_nil hv.1 w, ?_⟩
  intro c hc
  rcases List.mem_append.mp hc with h | h
  · exact hv.2 c h
  · exact hw c h

end Text

end Chip8

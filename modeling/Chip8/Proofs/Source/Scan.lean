import Chip8.Proofs.Source.Comment

/-!
# Comments Row by Row

A scan for comments runs over a whole text, and a comment that is open at the
end of a row goes on in the next one. To tell what is left of a single row,
two things have to be known about the text around it: whether the number of
hashes in front of it is odd, and whether there is a hash behind it. When the
number is odd, the row starts inside of a comment, unless no hash is left that
could close it. Then the comment has ended with the row it was opened on.

The hash behind a row matters only for a comment that is opened on the row
itself. It decides whether that comment has an end, and for this any hash will
do: a row that is scanned with a single hash behind it comes out as it does
with the rest of the text.

## Main definitions

* `hashes`: The number of hashes in a text.
* `entry`: Where a scan stands in front of a text.
* `uncomment`: A text without its comments, behind a number of hashes.
* `ahead`: A hash that stands for those of a text.
* `rowCodes`: What is left of each of the rows of a text.

## Theorems

* `uncomment_row`: Scanning the first row of a text.
* `rows_uncomment`: Scanning a text row by row.
* `codeRows_eq_rowCodes`: The code of a source, row by row.
-/

namespace Chip8

namespace Comment

open Text

/-- The number of hashes in a text. -/
def hashes (t : Text) : Nat :=
  t.count '#'

/-- Where a scan stands in front of a text, with a number of hashes behind
    it. -/
def entry (before : Nat) (t : Text) : Place :=
  if before % 2 = 1 ∧ '#' ∈ t then .paired else .code

/-- A text without its comments, when a number of hashes stand in front of
    it. -/
def uncomment (before : Nat) (t : Text) : Text :=
  strip [] (entry before t) t

/-- A hash, if there is one in the text, that stands for all of them. -/
def ahead (t : Text) : Text :=
  if '#' ∈ t then ['#'] else []

/-- What is left of rows without comments, when a number of hashes stand in
    front of the first. -/
def rowCodes (before : Nat) : List Text → List Text
  | [] => []
  | r :: rs => uncomment before (r ++ ahead (joinRows rs)) :: rowCodes (before + hashes r) rs

/-! ## One character -/

theorem hashes_cons_hash (t : Text) : hashes ('#' :: t) = hashes t + 1 :=
  List.count_cons_self

theorem hashes_cons_of_ne {c : Char} (hc : c ≠ '#') (t : Text) : hashes (c :: t) = hashes t :=
  List.count_cons_of_ne hc

theorem hashes_append (t t' : Text) : hashes (t ++ t') = hashes t + hashes t' :=
  List.count_append

theorem hashes_eq_zero_iff {t : Text} : hashes t = 0 ↔ '#' ∉ t :=
  List.count_eq_zero

theorem strip_code_hash (t : Text) :
    strip [] .code ('#' :: t) = strip [] (if '#' ∈ t then .paired else .lone) t := by
  rw [strip, if_pos rfl]
  congr 1
  exact if_congr List.contains_iff_mem rfl rfl

theorem strip_code_cons {c : Char} (hc : c ≠ '#') (t : Text) :
    strip [] .code (c :: t) = c :: strip [] .code t :=
  strip_code (List.not_mem_cons_of_ne_of_not_mem hc.symm List.not_mem_nil) t

theorem strip_paired_hash (t : Text) : strip [] .paired ('#' :: t) = strip [] .code t := by
  rw [strip, if_pos rfl]

theorem strip_paired_cons {c : Char} (hc : c ≠ '#') (hnewline : c ≠ '\n') (t : Text) :
    strip [] .paired (c :: t) = strip [] .paired t := by
  rw [strip, if_neg hc, if_neg hnewline]

theorem strip_paired_newline (t : Text) :
    strip [] .paired ('\n' :: t) = '\n' :: strip [] .paired t := by
  rw [strip, if_neg (by decide), if_pos rfl, strip_eq_append]
  rfl

-- Behind the last hash of a text, the rest of its row is dropped.
theorem strip_lone_row {r : Text} (hr : '\n' ∉ r) (later : Text) :
    strip [] .lone (r ++ '\n' :: later) = '\n' :: strip [] .code later := by
  induction r with
  | nil =>
      rw [List.nil_append, strip, if_pos rfl, strip_eq_append]
      rfl
  | cons c r ih =>
      rw [List.mem_cons, not_or] at hr
      rw [List.cons_append, strip, if_neg (Ne.symm hr.1), ih hr.2]

theorem strip_lone {r : Text} (hr : '\n' ∉ r) : strip [] .lone r = [] := by
  induction r with
  | nil => rfl
  | cons c r ih =>
      rw [List.mem_cons, not_or] at hr
      rw [strip, if_neg (Ne.symm hr.1), ih hr.2]

theorem strip_ahead (place : Place) (t : Text) : strip [] place (ahead t) = [] := by
  unfold ahead
  split
  · cases place <;> rfl
  · cases place <;> rfl

/-! ## One row -/

theorem uncomment_congr {before before' : Nat} (h : before % 2 = before' % 2) (t : Text) :
    uncomment before t = uncomment before' t := by
  rw [uncomment, uncomment, entry, entry, h]

theorem uncomment_paired {before : Nat} {t : Text} (h : before % 2 = 1 ∧ '#' ∈ t) :
    uncomment before t = strip [] .paired t := by
  rw [uncomment, entry, if_pos h]

theorem uncomment_code {before : Nat} {t : Text} (h : ¬(before % 2 = 1 ∧ '#' ∈ t)) :
    uncomment before t = strip [] .code t := by
  rw [uncomment, entry, if_neg h]

theorem uncomment_of_not_mem {t : Text} (ht : '#' ∉ t) (before : Nat) : uncomment before t = t := by
  rw [uncomment_code fun h => ht h.2]
  exact stripComments_of_not_mem ht

theorem hash_mem_append_ahead {r later : Text} :
    '#' ∈ r ++ ahead later ↔ '#' ∈ r ++ '\n' :: later := by
  have hahead : '#' ∈ ahead later ↔ '#' ∈ later := by
    unfold ahead
    split
    · rename_i h
      exact iff_of_true List.mem_cons_self h
    · rename_i h
      exact iff_of_false List.not_mem_nil h
  have hnewline : '#' ∈ '\n' :: later ↔ '#' ∈ later := by
    rw [List.mem_cons, or_iff_right (by decide)]
  rw [List.mem_append, List.mem_append, hahead, hnewline]

-- The scan of a row, from outside of comments and from inside of one that is
-- closed later.
theorem strip_row {r : Text} (hr : '\n' ∉ r) (later : Text) :
    strip [] .code (r ++ '\n' :: later)
        = strip [] .code (r ++ ahead later) ++ '\n' :: uncomment (hashes r) later ∧
      ('#' ∈ r ++ '\n' :: later → strip [] .paired (r ++ '\n' :: later)
        = strip [] .paired (r ++ ahead later) ++ '\n' :: uncomment (hashes r + 1) later) := by
  induction r with
  | nil =>
      rw [List.nil_append, List.nil_append, strip_ahead, strip_ahead]
      refine ⟨strip_code_cons (by decide) later, ?_⟩
      intro hhash
      have hlater : '#' ∈ later := (List.mem_cons.mp hhash).resolve_left (by decide)
      rw [strip_paired_newline, uncomment_paired ⟨rfl, hlater⟩]
      rfl
  | cons c r ih =>
      rw [List.mem_cons, not_or] at hr
      rcases ih hr.2 with ⟨hcode, hpaired⟩
      by_cases hc : c = '#'
      · rw [hc, List.cons_append, List.cons_append, hashes_cons_hash]
        constructor
        · rw [strip_code_hash, strip_code_hash]
          by_cases hhash : '#' ∈ r ++ '\n' :: later
          · rw [if_pos hhash, if_pos (hash_mem_append_ahead.mpr hhash), hpaired hhash]
          · -- Nothing closes this comment, and it ends with the row.
            rw [if_neg hhash, if_neg fun h => hhash (hash_mem_append_ahead.mp h)]
            have hlater : '#' ∉ later := by
              intro h
              exact hhash (List.mem_append_right r (List.mem_cons_of_mem _ h))
            have hahead : ahead later = [] := if_neg hlater
            rw [strip_lone_row hr.2, hahead, List.append_nil, strip_lone hr.2,
              uncomment_of_not_mem hlater, List.nil_append]
            congr 1
            exact stripComments_of_not_mem hlater
        · intro _
          rw [strip_paired_hash, strip_paired_hash, hcode]
          congr 2
          exact uncomment_congr (by omega) later
      · rw [List.cons_append, List.cons_append, hashes_cons_of_ne hc]
        constructor
        · rw [strip_code_cons hc, strip_code_cons hc, hcode, List.cons_append]
        · intro hhash
          rw [strip_paired_cons hc (Ne.symm hr.1), strip_paired_cons hc (Ne.symm hr.1),
            hpaired ((List.mem_cons.mp hhash).resolve_left (Ne.symm hc))]

/-- Scanning the first row of a text. -/
theorem uncomment_row {r : Text} (hr : '\n' ∉ r) (before : Nat) (later : Text) :
    uncomment before (r ++ '\n' :: later)
      = uncomment before (r ++ ahead later) ++ '\n' :: uncomment (before + hashes r) later := by
  rcases strip_row hr later with ⟨hcode, hpaired⟩
  -- Whether the row starts inside of a comment is decided by the whole text, and a single hash
  -- stands for all rows below.
  by_cases hentry : before % 2 = 1 ∧ '#' ∈ r ++ '\n' :: later
  · have hentry' := And.intro hentry.1 (hash_mem_append_ahead.mpr hentry.2)
    rw [uncomment_paired hentry, hpaired hentry.2, uncomment_paired hentry']
    congr 2
    exact uncomment_congr (by omega) later
  · have hentry' : ¬(before % 2 = 1 ∧ '#' ∈ r ++ ahead later) := by
      rw [hash_mem_append_ahead]
      exact hentry
    rw [uncomment_code hentry, hcode, uncomment_code hentry']
    congr 2
    -- Without a hash further on, it does not matter how many there have been.
    by_cases hlater : '#' ∈ later
    · have hmem : '#' ∈ r ++ '\n' :: later :=
        List.mem_append_right r (List.mem_cons_of_mem _ hlater)
      have heven : ¬before % 2 = 1 := fun h => hentry ⟨h, hmem⟩
      exact uncomment_congr (by omega) later
    · rw [uncomment_of_not_mem hlater, uncomment_of_not_mem hlater]

/-! ## All rows -/

-- What is kept is kept in order.
theorem strip_sublist (place : Place) (t : Text) : (strip [] place t).Sublist t := by
  induction t generalizing place with
  | nil => cases place <;> exact List.nil_sublist _
  | cons c t ih =>
      have hkeep : ∀ place', (strip [c] place' t).Sublist (c :: t) := by
        intro place'
        rw [strip_eq_append]
        exact (ih place').cons_cons c
      -- At each place, a character is kept or it is dropped.
      cases place <;> simp only [strip] <;> split
      · exact (ih _).cons c
      · exact hkeep _
      · exact (ih _).cons c
      · split
        · exact hkeep _
        · exact (ih _).cons c
      · exact hkeep _
      · exact (ih _).cons c

theorem newline_not_mem_uncomment {r : Text} (hr : '\n' ∉ r) (before : Nat) (later : Text) :
    '\n' ∉ uncomment before (r ++ ahead later) := by
  intro h
  rcases List.mem_append.mp ((strip_sublist _ _).subset h) with h | h
  · exact hr h
  · unfold ahead at h
    split at h
    · exact absurd (List.mem_singleton.mp h) (by decide)
    · exact nomatch h

/-- Scanning a text row by row. -/
theorem rows_uncomment {rs : List Text} (hrs : ∀ r ∈ rs, '\n' ∉ r) (hne : rs ≠ [])
    (before : Nat) : rows (uncomment before (joinRows rs)) = rowCodes before rs := by
  induction rs generalizing before with
  | nil => exact absurd rfl hne
  | cons r rs ih =>
      have hr := hrs r List.mem_cons_self
      by_cases hnil : rs = []
      · -- Nothing is behind the last row.
        have hlone := newline_not_mem_uncomment hr before []
        have hahead : ahead [] = [] := rfl
        rw [hahead, List.append_nil] at hlone
        rw [hnil, joinRows, List.intercalate_singleton, rows_of_not_mem hlone, rowCodes, rowCodes,
          joinRows, List.intercalate_nil, hahead, List.append_nil]
      · rw [joinRows_cons r hnil, uncomment_row hr, rows_append (newline_not_mem_uncomment hr _ _),
          ih (fun q hq => hrs q (List.mem_cons_of_mem r hq)) hnil, rowCodes]

/-- The code of a source, row by row. -/
theorem codeRows_eq_rowCodes (src : Text) :
    codeRows src = rowCodes 0 ((rows src).map dropStamp) := by
  have hnewline : ∀ r ∈ (rows src).map dropStamp, '\n' ∉ r :=
    newline_not_mem_map_dropStamp fun _ hr => newline_not_mem_rows hr
  exact rows_uncomment hnewline (fun h => rows_ne_nil src (List.map_eq_nil_iff.mp h)) 0

end Comment

end Chip8

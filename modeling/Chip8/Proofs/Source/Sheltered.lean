import Chip8.Proofs.Source.Alike

/-!
# Rows That Can Be Taken Out

A row that is edited is taken out of its source, and other rows are put in its
place. What is around it should not notice, but a hash that goes with the row
may have been the end of a comment that was opened before, or the start of one
that goes on behind.

A row is sheltered if no comment runs over either of its ends. Outside of
comments, it opens and closes all of its own, or nothing behind it could close
the last one. Inside of a comment it has no hash. Such a row is either wholly
covered by a comment or reads as it does alone, and so does each row without
hashes that is put in its place. The rows around stay as they were.

## Main definitions

* `Covered`: A place inside of a comment that is closed later.
* `Apart`: A row over whose ends no comment runs.
* `bared`: What is left of such a row.
* `Sheltered`: The same for several rows in the middle of a source.

## Theorems

* `uncomment_of_apart`: A row over whose ends no comment runs reads as it does
  alone, unless it is covered.
* `exists_rowCodes_append`: Rows in front of others, and what they see of them.
* `getElem?_rowCodes`: What is left of a row among others.
* `rowCodes_of_sheltered`: Sheltered rows leave those behind them as they are.
* `exists_rowCodes_replace`: Sheltered rows can replace each other.
-/

namespace Chip8

namespace Comment

open Text

/-- A place inside of a comment, behind a number of hashes and in front of a
    text that closes it. -/
def Covered (before : Nat) (later : Text) : Prop :=
  before % 2 = 1 ∧ '#' ∈ later

instance (before : Nat) (later : Text) : Decidable (Covered before later) :=
  inferInstanceAs (Decidable (_ ∧ _))

/-- A row over whose ends no comment runs, behind a number of hashes and in
    front of a text. -/
def Apart (before : Nat) (r later : Text) : Prop :=
  (before % 2 = 0 → hashes r % 2 = 0 ∨ '#' ∉ later) ∧ (before % 2 = 1 → '#' ∉ r)

instance (before : Nat) (r later : Text) : Decidable (Apart before r later) :=
  inferInstanceAs (Decidable (_ ∧ _))

/-- What is left of a row at a place that may be covered, if no comment runs over
    its ends. -/
def bared (before : Nat) (later r : Text) : Text :=
  if Covered before later then [] else stripComments r

/-! ## One row -/

theorem apart_of_not_mem {r : Text} (hr : '#' ∉ r) (before : Nat) (later : Text) :
    Apart before r later :=
  ⟨fun _ => Or.inl (by rw [hashes_eq_zero_iff.mpr hr]), fun _ => hr⟩

/-- A row that starts outside of comments reads as it does alone. -/
theorem uncomment_eq_stripComments {before : Nat} {r later : Text} (hr : '\n' ∉ r)
    (h : ¬Covered before (r ++ later)) : uncomment before (r ++ ahead later) = stripComments r := by
  have hentry : ¬(before % 2 = 1 ∧ '#' ∈ r ++ ahead later) := by
    rw [hash_mem_append_ahead]
    simpa [Covered] using h
  rw [uncomment_code hentry, (strip_append_ahead hr later).1, stripComments]

/-- A row over whose ends no comment runs reads as it does alone, unless it is
    covered. -/
theorem uncomment_of_apart {before : Nat} {r later : Text} (h : Apart before r later)
    (hr : '\n' ∉ r) : uncomment before (r ++ ahead later) = bared before later r := by
  rw [bared]
  split
  · rename_i hcovered
    -- Inside of a comment, the row has no hash to close it.
    have hhash := h.2 hcovered.1
    have hahead : ahead later = ['#'] := if_pos hcovered.2
    rw [hahead, uncomment_paired ⟨hcovered.1, List.mem_append_right r List.mem_cons_self⟩,
      strip_paired_append hhash hr]
    rfl
  · rename_i hcovered
    refine uncomment_eq_stripComments hr ?_
    rintro ⟨hodd, hhash⟩
    exact (List.mem_append.mp hhash).elim (h.2 hodd) fun hlater => hcovered ⟨hodd, hlater⟩

-- If there is a hash behind such a row, it is inside of a comment on both of its
-- sides or on neither.
theorem Apart.add_hashes_mod {before : Nat} {r later : Text} (h : Apart before r later)
    (hlater : '#' ∈ later) : (before + hashes r) % 2 = before % 2 := by
  rcases Nat.mod_two_eq_zero_or_one before with heven | hodd
  · have := (h.1 heven).resolve_right fun hnone => hnone hlater
    omega
  · rw [hashes_eq_zero_iff.mpr (h.2 hodd), Nat.add_zero]

/-! ## Several rows -/

theorem hash_mem_joinRows_append (rs rs' : List Text) :
    '#' ∈ joinRows (rs ++ rs') ↔ '#' ∈ joinRows rs ∨ '#' ∈ joinRows rs' := by
  simp only [hash_mem_joinRows, List.mem_append, or_and_right, exists_or]

theorem hashes_flatten_eq_zero {rs : List Text} (h : '#' ∉ joinRows rs) :
    hashes rs.flatten = 0 := by
  refine hashes_eq_zero_iff.mpr fun hhash => h ?_
  rcases List.mem_flatten.mp hhash with ⟨r, hr, hmem⟩
  exact (hash_mem_joinRows rs).mpr ⟨r, hr, hmem⟩

/-- Rows in front of others see of them only whether there is a hash, and that
    only if a comment may be open in between. -/
theorem exists_rowCodes_append {before : Nat} {front rs rs' : List Text}
    (hfront : ∀ r ∈ front, '\n' ∉ r)
    (h : (before + hashes front.flatten) % 2 = 1 → ('#' ∈ joinRows rs' ↔ '#' ∈ joinRows rs)) :
    ∃ codes,
      rowCodes before (front ++ rs) = codes ++ rowCodes (before + hashes front.flatten) rs ∧
      rowCodes before (front ++ rs') = codes ++ rowCodes (before + hashes front.flatten) rs' := by
  induction front generalizing before with
  | nil => exact ⟨[], rfl, rfl⟩
  | cons r front ih =>
      rw [List.forall_mem_cons] at hfront
      have hcount : before + hashes (r :: front).flatten
          = before + hashes r + hashes front.flatten := by
        rw [List.flatten_cons, hashes_append, Nat.add_assoc]
      rw [hcount] at h ⊢
      rcases ih hfront.2 h with ⟨codes, hcodes, hcodes'⟩
      -- A row in front sees a hash further on, unless it is in between already.
      have hrow : uncomment before (r ++ ahead (joinRows (front ++ rs')))
          = uncomment before (r ++ ahead (joinRows (front ++ rs))) := by
        refine uncomment_append_congr hfront.1 fun hodd hr => ?_
        rw [hash_mem_joinRows_append, hash_mem_joinRows_append]
        by_cases hhash : '#' ∈ joinRows front
        · exact iff_of_true (Or.inl hhash) (Or.inl hhash)
        · rw [or_iff_right hhash, or_iff_right hhash]
          refine h ?_
          rwa [hashes_eq_zero_iff.mpr hr, hashes_flatten_eq_zero hhash]
      refine ⟨uncomment before (r ++ ahead (joinRows (front ++ rs))) :: codes, ?_, ?_⟩
      · rw [List.cons_append, rowCodes, hcodes, List.cons_append]
      · rw [List.cons_append, rowCodes, hrow, hcodes', List.cons_append]

/-- What is left of a row is found at its place. -/
theorem getElem?_rowCodes (before : Nat) (front : List Text) (r : Text) (behind : List Text) :
    (rowCodes before (front ++ r :: behind))[front.length]?
      = some (uncomment (before + hashes front.flatten) (r ++ ahead (joinRows behind))) := by
  induction front generalizing before with
  | nil => rfl
  | cons q front ih =>
      have hcount : before + hashes (q :: front).flatten
          = before + hashes q + hashes front.flatten := by
        rw [List.flatten_cons, hashes_append, Nat.add_assoc]
      rw [hcount, List.cons_append, rowCodes, List.length_cons, List.getElem?_cons_succ]
      exact ih _

-- The number of hashes in front of rows matters only if the rows hold a hash.
theorem rowCodes_congr {before before' : Nat} {rs : List Text}
    (h : '#' ∈ joinRows rs → before' % 2 = before % 2) :
    rowCodes before' rs = rowCodes before rs := by
  induction rs generalizing before before' with
  | nil => rfl
  | cons r rs ih =>
      rw [hash_mem_joinRows_cons] at h
      have hrest : rowCodes (before' + hashes r) rs = rowCodes (before + hashes r) rs := by
        refine ih fun hhash => ?_
        have := h (Or.inr hhash)
        omega
      rw [rowCodes, rowCodes, hrest]
      congr 1
      by_cases hhash : '#' ∈ r ++ ahead (joinRows rs)
      · refine uncomment_congr (h ?_) _
        rw [hash_mem_append_ahead, List.mem_append, List.mem_cons,
          or_iff_right (a := '#' = '\n') (by decide)] at hhash
        exact hhash
      · rw [uncomment_of_not_mem hhash, uncomment_of_not_mem hhash]

/-- Rows in front of others, over whose ends no comment runs. -/
def Sheltered (behind : List Text) : Nat → List Text → Prop
  | _, [] => True
  | before, r :: rs =>
      Apart before r (joinRows (rs ++ behind)) ∧ Sheltered behind (before + hashes r) rs

theorem sheltered_of_not_mem {rs : List Text} (hrs : ∀ r ∈ rs, '#' ∉ r) (behind : List Text)
    (before : Nat) : Sheltered behind before rs := by
  induction rs generalizing before with
  | nil => trivial
  | cons r rs ih =>
      rw [List.forall_mem_cons] at hrs
      exact ⟨apart_of_not_mem hrs.1 _ _, ih hrs.2 _⟩

-- Inside of a comment, sheltered rows have no hashes.
theorem hash_not_mem_of_sheltered {before : Nat} {rs behind : List Text}
    (h : Sheltered behind before rs) (hodd : before % 2 = 1) : '#' ∉ joinRows rs := by
  induction rs generalizing before with
  | nil => exact List.not_mem_nil
  | cons r rs ih =>
      have hr := h.1.2 hodd
      rw [hash_mem_joinRows_cons, not_or]
      exact ⟨hr, ih h.2 (by rw [hashes_eq_zero_iff.mpr hr]; exact hodd)⟩

theorem hash_mem_append_of_sheltered {before : Nat} {rs behind : List Text}
    (h : Sheltered behind before rs) (hodd : before % 2 = 1) :
    '#' ∈ joinRows (rs ++ behind) ↔ '#' ∈ joinRows behind := by
  rw [hash_mem_joinRows_append, or_iff_right (hash_not_mem_of_sheltered h hodd)]

/-- Sheltered rows are covered by a comment or read as they do alone, and the
    rows behind them do not depend on them. -/
theorem rowCodes_of_sheltered {before : Nat} {rs behind : List Text}
    (h : Sheltered behind before rs) (hrs : ∀ r ∈ rs, '\n' ∉ r) :
    rowCodes before (rs ++ behind)
      = rs.map (bared before (joinRows behind)) ++ rowCodes before behind := by
  induction rs generalizing before with
  | nil => rfl
  | cons r rs ih =>
      rw [List.forall_mem_cons] at hrs
      -- Whether rows are covered is the same in front of this one and behind it.
      have hlater : Covered before (joinRows (rs ++ behind)) ↔
          Covered before (joinRows behind) := by
        refine and_congr_right fun hodd => hash_mem_append_of_sheltered h.2 ?_
        rw [hashes_eq_zero_iff.mpr (h.1.2 hodd)]
        exact hodd
      have hmod : '#' ∈ joinRows behind → (before + hashes r) % 2 = before % 2 := fun hhash =>
        h.1.add_hashes_mod ((hash_mem_joinRows_append rs behind).mpr (Or.inr hhash))
      have hcovered : Covered (before + hashes r) (joinRows behind)
          ↔ Covered before (joinRows behind) :=
        and_congr_left fun hhash => by rw [hmod hhash]
      have hbared : ∀ t, bared (before + hashes r) (joinRows behind) t
          = bared before (joinRows behind) t := fun t => if_congr hcovered rfl rfl
      rw [List.cons_append, rowCodes, uncomment_of_apart h.1 hrs.1, ih h.2 hrs.2,
        rowCodes_congr hmod, List.map_cons, List.cons_append]
      congr 1
      · exact if_congr hlater rfl rfl
      · rw [List.map_congr_left fun t _ => hbared t]

/-- Sheltered rows can replace each other. The code in front of them and behind
    them stays as it is, and both are covered or neither. -/
theorem exists_rowCodes_replace {front rs rs' behind : List Text}
    (hfront : ∀ r ∈ front, '\n' ∉ r) (hrs : ∀ r ∈ rs, '\n' ∉ r) (hrs' : ∀ r ∈ rs', '\n' ∉ r)
    (h : Sheltered behind (hashes front.flatten) rs)
    (h' : Sheltered behind (hashes front.flatten) rs') :
    ∃ codes codes',
      rowCodes 0 (front ++ (rs ++ behind))
        = codes ++ (rs.map (bared (hashes front.flatten) (joinRows behind)) ++ codes') ∧
      rowCodes 0 (front ++ (rs' ++ behind))
        = codes ++ (rs'.map (bared (hashes front.flatten) (joinRows behind)) ++ codes') := by
  have hhash : (0 + hashes front.flatten) % 2 = 1 →
      ('#' ∈ joinRows (rs' ++ behind) ↔ '#' ∈ joinRows (rs ++ behind)) := by
    intro hodd
    rw [Nat.zero_add] at hodd
    rw [hash_mem_append_of_sheltered h hodd, hash_mem_append_of_sheltered h' hodd]
  rcases exists_rowCodes_append hfront hhash with ⟨codes, hcodes, hcodes'⟩
  refine ⟨codes, rowCodes (hashes front.flatten) behind, ?_, ?_⟩
  · rw [hcodes, Nat.zero_add, rowCodes_of_sheltered h hrs]
  · rw [hcodes', Nat.zero_add, rowCodes_of_sheltered h' hrs']

end Comment

end Chip8

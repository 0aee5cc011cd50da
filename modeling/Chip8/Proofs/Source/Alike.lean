import Chip8.Proofs.Notation.Statement
import Chip8.Proofs.Source.Placement
import Chip8.Proofs.Source.Scan

/-!
# Rows That Read Alike

A source can be changed in many ways without changing what it says: a blank in
front of a row, a carriage return at its end, a stamp taken off or put on
where the row starts outside of comments. Each of these concerns a single row,
but whether it is harmless is not a question about the row alone, because
comments run on from row to row.

Three things make two rows interchangeable behind a number of hashes. They
hold an odd or an even number of hashes alike, so that all rows behind them
start where they did. Inside of a comment, they both close it or both leave it
open, so that a comment in front of them ends where it did. And the same
statement is read from them, whatever comes behind.

## Main definitions

* `Alike`: Rows that can stand for each other.
* `AllAlike`: The same for all rows of a source.

## Theorems

* `uncomment_append_congr`: When a row depends on what is behind it.
* `Alike.blank`, `Alike.stamp`, `Alike.dropStamp`, `Alike.concat_return`: Harmless
  changes.
* `AllAlike.read_rowCodes`: Rows that are alike have the same statements.
* `exists_read_stamp_eq_error`: A stamp inside of a comment is an error.
-/

namespace Chip8

namespace Comment

open Text

/-- Rows behind a number of hashes that can stand for each other. -/
structure Alike (before : Nat) (r r' : Text) : Prop where
  hashes_mod : hashes r' % 2 = hashes r % 2
  hash_mem_iff : before % 2 = 1 → ('#' ∈ r' ↔ '#' ∈ r)
  read_eq : ∀ later, Statement.read (uncomment before (r' ++ ahead later))
    = Statement.read (uncomment before (r ++ ahead later))

/-- Rows, the first of them behind a number of hashes, and as many others that
    can stand for them. -/
inductive AllAlike : Nat → List Text → List Text → Prop where
  | nil {before : Nat} : AllAlike before [] []
  | cons {before : Nat} {r r' : Text} {rs rs' : List Text} (hrow : Alike before r r')
      (hrows : AllAlike (before + hashes r) rs rs') : AllAlike before (r :: rs) (r' :: rs')

namespace Alike

variable {before : Nat} {r r' r'' : Text}

theorem refl (before : Nat) (r : Text) : Alike before r r :=
  ⟨rfl, fun _ => Iff.rfl, fun _ => rfl⟩

theorem symm (h : Alike before r r') : Alike before r' r :=
  ⟨h.hashes_mod.symm, fun hodd => (h.hash_mem_iff hodd).symm, fun later => (h.read_eq later).symm⟩

theorem trans (h : Alike before r r') (h' : Alike before r' r'') : Alike before r r'' :=
  ⟨h'.hashes_mod.trans h.hashes_mod,
    fun hodd => (h'.hash_mem_iff hodd).trans (h.hash_mem_iff hodd),
    fun later => (h'.read_eq later).trans (h.read_eq later)⟩

end Alike

/-! ## What is behind a row -/

-- Inside of a comment, everything is dropped up to the next hash.
theorem strip_paired_append {r : Text} (hr : '#' ∉ r) (hnewline : '\n' ∉ r) (t : Text) :
    strip [] .paired (r ++ '#' :: t) = strip [] .code t := by
  induction r with
  | nil => exact strip_paired_hash t
  | cons c r ih =>
      rw [List.mem_cons, not_or] at hr hnewline
      rw [List.cons_append, strip_paired_cons (Ne.symm hr.1) (Ne.symm hnewline.1),
        ih hr.2 hnewline.2]

-- A comment that is opened on a row takes the rest of the row, whether it is
-- closed later or not.
theorem strip_append_ahead {r : Text} (hr : '\n' ∉ r) (later : Text) :
    strip [] .code (r ++ ahead later) = strip [] .code r ∧
      ('#' ∈ r → strip [] .paired (r ++ ahead later) = strip [] .paired r) := by
  by_cases hlater : '#' ∈ later
  · have hahead : ahead later = ['#'] := if_pos hlater
    rw [hahead]
    -- A hash behind the row closes what is open at its end, and takes nothing away that the end of
    -- the row would not.
    induction r with
    | nil => exact ⟨rfl, fun h => nomatch h⟩
    | cons c r ih =>
        rw [List.mem_cons, not_or] at hr
        rcases ih hr.2 with ⟨hcode, hpaired⟩
        by_cases hc : c = '#'
        · rw [hc, List.cons_append, strip_paired_hash, strip_paired_hash]
          refine ⟨?_, fun _ => hcode⟩
          rw [strip_code_hash, strip_code_hash,
            if_pos (List.mem_append_right r List.mem_cons_self)]
          -- The hash opens a comment. It is the last of the row or it is not.
          by_cases hmem : '#' ∈ r
          · rw [if_pos hmem, hpaired hmem]
          · rw [if_neg hmem, strip_paired_append hmem hr.2, strip_lone hr.2]
            rfl
        · rw [List.cons_append, strip_code_cons hc, strip_code_cons hc,
            strip_paired_cons hc (Ne.symm hr.1), strip_paired_cons hc (Ne.symm hr.1), hcode,
            List.mem_cons, or_iff_right (Ne.symm hc)]
          exact ⟨rfl, hpaired⟩
  · have hahead : ahead later = [] := if_neg hlater
    rw [hahead, List.append_nil]
    exact ⟨rfl, fun _ => rfl⟩

-- A row depends on what is behind it only if it starts behind an odd number of
-- hashes and has none itself.
theorem uncomment_append_ahead {r : Text} (hr : '\n' ∉ r) {before : Nat}
    (h : before % 2 = 1 → '#' ∈ r) (later : Text) :
    uncomment before (r ++ ahead later) = uncomment before r := by
  rcases strip_append_ahead hr later with ⟨hcode, hpaired⟩
  by_cases hodd : before % 2 = 1
  · have hmem := h hodd
    rw [uncomment_paired ⟨hodd, List.mem_append_left _ hmem⟩, uncomment_paired ⟨hodd, hmem⟩,
      hpaired hmem]
  · rw [uncomment_code fun h => hodd h.1, uncomment_code fun h => hodd h.1, hcode]

theorem uncomment_append_congr {r : Text} (hr : '\n' ∉ r) {before : Nat} {later later' : Text}
    (hlater : before % 2 = 1 → '#' ∉ r → ('#' ∈ later' ↔ '#' ∈ later)) :
    uncomment before (r ++ ahead later') = uncomment before (r ++ ahead later) := by
  by_cases h : before % 2 = 1 ∧ '#' ∉ r
  · have hahead : ahead later' = ahead later := if_congr (hlater h.1 h.2) rfl rfl
    rw [hahead]
  · rw [not_and_not_right] at h
    rw [uncomment_append_ahead hr h, uncomment_append_ahead hr h]

/-! ## Harmless changes -/

-- A blank in front of a row makes no difference to its statement.
theorem read_uncomment_blank (before : Nat) (t : Text) :
    Statement.read (uncomment before (' ' :: t)) = Statement.read (uncomment before t) := by
  have hmem : '#' ∈ ' ' :: t ↔ '#' ∈ t := by
    rw [List.mem_cons, or_iff_right (by decide)]
  by_cases hentry : before % 2 = 1 ∧ '#' ∈ t
  · rw [uncomment_paired hentry, uncomment_paired (by rwa [hmem]),
      strip_paired_cons (by decide) (by decide)]
  · rw [uncomment_code hentry, uncomment_code (by rwa [hmem]), strip_code_cons (by decide)]
    exact Statement.read_cons (by decide) _

/-- A blank may be put in front of a row. -/
theorem Alike.blank (before : Nat) (r : Text) : Alike before r (' ' :: r) := by
  refine ⟨?_, ?_, ?_⟩
  · rw [hashes_cons_of_ne (by decide)]
  · intro _
    rw [List.mem_cons, or_iff_right (by decide)]
  · intro later
    rw [List.cons_append, read_uncomment_blank]

theorem hashes_of_isStamp {s : Text} (hs : IsStamp s) : hashes s = 2 := by
  rcases hs with ⟨c, body, hc, hbody, rfl⟩
  rw [hashes_cons_hash, hashes_cons_of_ne (by decide), hashes_cons_of_ne hc, hashes_append,
    hashes_eq_zero_iff.mpr hbody]
  rfl

-- Outside of comments, a stamp is a comment.
theorem strip_code_stamp {s : Text} (hs : IsStamp s) (hnewline : '\n' ∉ s) (t : Text) :
    strip [] .code (s ++ t) = strip [] .code t := by
  rcases hs with ⟨c, body, hc, hbody, rfl⟩
  have hinside : '#' ∉ '@' :: c :: body := by
    simp only [List.mem_cons, not_or]
    exact ⟨by decide, hc.symm, hbody⟩
  have hrow : '\n' ∉ '@' :: c :: body := by
    intro h
    exact hnewline (List.mem_cons_of_mem _ (List.mem_append_left ['#'] h))
  have heq : '#' :: '@' :: c :: (body ++ ['#']) ++ t = '#' :: ('@' :: c :: body ++ '#' :: t) := by
    simp only [List.cons_append, List.append_assoc, List.nil_append]
  rw [heq, strip_code_hash, if_pos (List.mem_append_right _ List.mem_cons_self),
    strip_paired_append hinside hrow]

/-- Outside of comments, a stamp may be put in front of a row. -/
theorem Alike.stamp {before : Nat} (heven : before % 2 = 0) {s : Text} (hs : IsStamp s)
    (hnewline : '\n' ∉ s) (r : Text) : Alike before r (s ++ r) := by
  refine ⟨?_, ?_, ?_⟩
  · rw [hashes_append, hashes_of_isStamp hs, Nat.add_mod_left]
  · intro hodd
    omega
  · intro later
    rw [uncomment_code fun h => by omega, uncomment_code fun h => by omega, List.append_assoc,
      strip_code_stamp hs hnewline]

/-- A row may give up its stamp, if it starts outside of comments. -/
theorem Alike.dropStamp {before : Nat} {r : Text} (hnewline : '\n' ∉ r)
    (heven : dropStamp r ≠ r → before % 2 = 0) : Alike before r (dropStamp r) := by
  by_cases hsame : Comment.dropStamp r = r
  · rw [hsame]
    exact .refl before r
  · rcases (dropStamp_eq_self_or r).resolve_left hsame with ⟨s, hs, heq⟩
    have hstamp : '\n' ∉ s := fun h => hnewline (heq ▸ List.mem_append_left _ h)
    have halike := Alike.stamp (heven hsame) hs hstamp (Comment.dropStamp r)
    rw [← heq] at halike
    exact halike.symm

-- A carriage return at the end of a row is dropped with a comment, or else it
-- stays there.
theorem strip_concat_return {r : Text} (hr : '\n' ∉ r) (later : Text) {place : Place}
    (hplace : place ≠ .lone) :
    strip [] place (r ++ '\r' :: ahead later) = strip [] place (r ++ ahead later) ∨
      strip [] place (r ++ '\r' :: ahead later) = strip [] place (r ++ ahead later) ++ ['\r'] := by
  induction r generalizing place with
  | nil =>
      rw [List.nil_append, List.nil_append]
      cases place with
      | code =>
          rw [strip_code_cons (by decide), strip_ahead]
          exact Or.inr rfl
      | paired =>
          rw [strip_paired_cons (by decide) (by decide)]
          exact Or.inl rfl
      | lone => exact absurd rfl hplace
  | cons c r ih =>
      rw [List.mem_cons, not_or] at hr
      rw [List.cons_append, List.cons_append]
      by_cases hc : c = '#'
      · rw [hc]
        cases place with
        | code =>
            have hhash : '#' ∈ r ++ '\r' :: ahead later ↔ '#' ∈ r ++ ahead later := by
              rw [List.mem_append, List.mem_cons, or_iff_right (a := '#' = '\r') (by decide),
                List.mem_append]
            rw [strip_code_hash, strip_code_hash, if_congr hhash rfl rfl]
            split
            · exact ih hr.2 (by decide)
            · -- Nothing is left of the row.
              rename_i hnone
              have hahead : ahead later = [] := by
                refine if_neg fun h => hnone (List.mem_append_right r ?_)
                rw [ahead, if_pos h]
                exact List.mem_cons_self
              have hrow : '\n' ∉ r ++ ['\r'] := by
                rw [List.mem_append, not_or]
                exact ⟨hr.2, by decide⟩
              rw [hahead, List.append_nil, strip_lone hr.2, strip_lone hrow]
              exact Or.inl rfl
        | paired =>
            rw [strip_paired_hash, strip_paired_hash]
            exact ih hr.2 (by decide)
        | lone => exact absurd rfl hplace
      · cases place with
        | code =>
            rw [strip_code_cons hc, strip_code_cons hc, List.cons_append]
            exact (ih hr.2 (by decide)).imp (congrArg _) (congrArg _)
        | paired =>
            rw [strip_paired_cons hc (Ne.symm hr.1), strip_paired_cons hc (Ne.symm hr.1)]
            exact ih hr.2 (by decide)
        | lone => exact absurd rfl hplace

/-- A carriage return may be put at the end of a row. -/
theorem Alike.concat_return (before : Nat) {r : Text} (hr : '\n' ∉ r) :
    Alike before r (r ++ ['\r']) := by
  have hhash : ∀ t, '#' ∈ r ++ '\r' :: t ↔ '#' ∈ r ++ t := by
    intro t
    rw [List.mem_append, List.mem_cons, or_iff_right (a := '#' = '\r') (by decide),
      List.mem_append]
  refine ⟨?_, ?_, ?_⟩
  · rw [hashes_append]
    rfl
  · intro _
    rw [hhash, List.append_nil]
  · intro later
    -- The carriage return is no hash, so both rows are entered at the same place.
    have hentry : entry before (r ++ '\r' :: ahead later) = entry before (r ++ ahead later) :=
      if_congr (and_congr_right fun _ => hhash _) rfl rfl
    have hplace : entry before (r ++ ahead later) ≠ .lone := by
      unfold entry
      split <;> decide
    rw [List.append_assoc, List.singleton_append, uncomment, uncomment, hentry]
    rcases strip_concat_return hr later hplace with h | h
    · rw [h]
    · rw [h]
      exact Statement.read_concat (by decide) _

/-- A stamp inside of a comment closes the comment, and what it holds is read as
    a statement that there is not. -/
theorem exists_read_stamp_eq_error {before : Nat} (hodd : before % 2 = 1) {s : Text}
    (hs : IsStamp s) (t : Text) :
    ∃ name, Statement.read (uncomment before (s ++ t))
      = .error (.invalidMnemonic ('@' :: name)) := by
  rcases hs with ⟨c, body, _, _, rfl⟩
  rw [List.cons_append, uncomment_paired ⟨hodd, List.mem_cons_self⟩, strip_paired_hash,
    List.cons_append, strip_code_cons (by decide)]
  exact Statement.exists_read_eq_error _

-- The same for a row that starts with a stamp.
theorem exists_read_stamped_eq_error {before : Nat} (hodd : before % 2 = 1) {r : Text}
    (h : dropStamp r ≠ r) (t : Text) :
    ∃ name, Statement.read (uncomment before (r ++ t))
      = .error (.invalidMnemonic ('@' :: name)) := by
  rcases (dropStamp_eq_self_or r).resolve_left h with ⟨s, hs, heq⟩
  rw [heq, List.append_assoc]
  exact exists_read_stamp_eq_error hodd hs (dropStamp r ++ t)

/-! ## All rows -/

namespace AllAlike

variable {before before' : Nat} {rs rs' : List Text}

theorem refl (before : Nat) (rs : List Text) : AllAlike before rs rs := by
  induction rs generalizing before with
  | nil => exact .nil
  | cons r rs ih => exact .cons (.refl before r) (ih _)

-- Behind an odd number of hashes, rows that are alike have hashes alike.
theorem hash_mem_joinRows_iff (h : AllAlike before rs rs') (hodd : before % 2 = 1) :
    '#' ∈ joinRows rs' ↔ '#' ∈ joinRows rs := by
  induction h with
  | nil => rfl
  | @cons before r r' rs rs' hrow _ ih =>
      rw [hash_mem_joinRows_cons, hash_mem_joinRows_cons, hrow.hash_mem_iff hodd]
      by_cases hr : '#' ∈ r
      · exact iff_of_true (Or.inl hr) (Or.inl hr)
      · rw [or_iff_right hr, or_iff_right hr]
        exact ih (by rw [hashes_eq_zero_iff.mpr hr]; exact hodd)

/-- Rows that are alike have the same statements. The number of hashes in front
    of them may be another one, if it is odd or even alike. -/
theorem read_rowCodes (h : AllAlike before rs rs') (hnewline : ∀ r ∈ rs, '\n' ∉ r)
    (hbefore : before' % 2 = before % 2) :
    List.Forall₂ (fun code code' => Statement.read code = Statement.read code')
      (rowCodes before' rs') (rowCodes before rs) := by
  induction h generalizing before' with
  | nil => exact .nil
  | @cons before r r' rs rs' hrow hrows ih =>
      rw [List.forall_mem_cons] at hnewline
      rw [rowCodes, rowCodes, uncomment_congr hbefore]
      refine .cons ?_ (ih hnewline.2 ?_)
      · rw [hrow.read_eq, uncomment_append_congr hnewline.1 fun hodd hr =>
          hrows.hash_mem_joinRows_iff (by rwa [hashes_eq_zero_iff.mpr hr])]
      · -- The count goes on from numbers that are odd or even alike.
        have := hrow.hashes_mod
        omega

end AllAlike

end Comment

end Chip8

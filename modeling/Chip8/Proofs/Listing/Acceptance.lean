import Chip8.Proofs.Listing.StampLines
import Chip8.Proofs.Source.Lines

/-!
# What Is Accepted

To revise the stamps of a source, the source has to be assembled, and one would
expect that it is refused exactly when the assembler refuses it. The revision
does not assemble the text as it is, though. It takes a stamp off each line,
and what it hands to the assembler gives up another one there.

For most second stamps this comes to the same. Outside of comments a stamp is a
comment, and whether a comment is there makes no difference. Inside of a comment
it does: the stamp closes the comment, and then its text is code, which no
assembler accepts. A revision that drops the stamp does not see this fault. It
may accept the line, or refuse it for another reason. It may even stop at an
earlier line, when the stamp has been the only thing that closed a comment that
is opened there.

But this is all that can happen. Unless the two agree, the assembler is the one
that refuses the source, and it does so at a second stamp inside of a comment.

## Main definitions

* `BuriedStamp`: A row that starts with a stamp inside of a comment.
* `StoppedByStamp`: Rows whose first error is such a stamp.

## Theorems

* `stoppedByStamp_of_closed`: A comment that is closed by stamps only.
* `placeRows_dropStamp_or`: Rows with and without their stamps read alike, or
  one of them is stopped by a stamp.
* `restamp_accepts_or`: A revision and the assembler agree, unless the assembler
  is stopped by a stamp.
-/

namespace Chip8

open Text Comment

namespace Comment

/-- The row at a place starts with a stamp, with an odd number of hashes in
    front of it. The first row has a number of hashes in front of it already. -/
def BuriedStamp (before : Nat) (rs : List Text) (n : Nat) : Prop :=
  ∃ h : n < rs.length, dropStamp rs[n] ≠ rs[n] ∧ (before + hashes (rs.take n).flatten) % 2 = 1

instance (before : Nat) (rs : List Text) (n : Nat) : Decidable (BuriedStamp before rs n) :=
  inferInstanceAs (Decidable (∃ _ : n < rs.length, _ ∧ _))

/-- Rows whose first error is a stamp inside of a comment, the text of which is
    taken for the name of an instruction. -/
def StoppedByStamp (before first : Nat) (rs : List Text) : Prop :=
  ∃ n name, BuriedStamp before rs n ∧
    Source.placeRows first (rowCodes before rs)
      = .error ⟨first + n, .invalidMnemonic ('@' :: name)⟩

variable {before before' : Nat} {r : Text} {rs : List Text}

theorem buriedStamp_zero (hodd : before % 2 = 1) (h : dropStamp r ≠ r) (rs : List Text) :
    BuriedStamp before (r :: rs) 0 :=
  ⟨Nat.zero_lt_succ _, h, hodd⟩

theorem BuriedStamp.succ {n : Nat} (h : BuriedStamp (before + hashes r) rs n) :
    BuriedStamp before (r :: rs) (n + 1) := by
  rcases h with ⟨hn, hstamped, hodd⟩
  refine ⟨Nat.succ_lt_succ hn, hstamped, ?_⟩
  rw [List.take_succ_cons, List.flatten_cons, hashes_append, ← Nat.add_assoc]
  exact hodd

/-! ## The first row -/

/-- A stamp inside of a comment stops the reading at its row. -/
theorem stoppedByStamp_here (hodd : before % 2 = 1) (h : dropStamp r ≠ r) (first : Nat)
    (rs : List Text) : StoppedByStamp before first (r :: rs) := by
  rcases exists_read_stamped_eq_error hodd h (ahead (joinRows rs)) with ⟨name, hread⟩
  refine ⟨0, name, buriedStamp_zero hodd h rs, ?_⟩
  rw [rowCodes, Source.placeRows_cons_error hread, Nat.add_zero]

/-- Where the first row can be read, it is the others that decide. -/
theorem StoppedByStamp.cons {first : Nat} {found : Option Statement}
    (hread : Statement.read (uncomment before (r ++ ahead (joinRows rs))) = .ok found)
    (h : StoppedByStamp (before + hashes r) (first + 1) rs) :
    StoppedByStamp before first (r :: rs) := by
  rcases h with ⟨n, name, hburied, herror⟩
  refine ⟨n + 1, name, hburied.succ, ?_⟩
  rw [rowCodes, Source.placeRows_cons_ok hread, herror, Nat.add_right_comm first 1 n]
  rfl

/-! ## All rows -/

theorem hash_mem_of_map_dropStamp (h : '#' ∈ joinRows (rs.map dropStamp)) : '#' ∈ joinRows rs := by
  rw [hash_mem_joinRows] at h ⊢
  rcases h with ⟨_, hmem, hhash⟩
  rcases List.mem_map.mp hmem with ⟨r, hr, rfl⟩
  exact ⟨r, hr, (dropStamp_sublist r).subset hhash⟩

-- A row without a hash inside of a comment that goes on is read as an empty one.
theorem read_uncomment_inside (hodd : before % 2 = 1) (hr : '#' ∉ r) (hnewline : '\n' ∉ r)
    {later : Text} (hlater : '#' ∈ later) :
    Statement.read (uncomment before (r ++ ahead later)) = .ok none := by
  have hahead : ahead later = ['#'] := if_pos hlater
  rw [hahead, uncomment_paired ⟨hodd, List.mem_append_right r List.mem_cons_self⟩,
    strip_paired_append hr hnewline]
  rfl

/-- A comment that is open in front of rows, and that nothing but their stamps
    could close, is closed by the first of them. -/
theorem stoppedByStamp_of_closed (hodd : before % 2 = 1) (hnewline : ∀ r ∈ rs, '\n' ∉ r)
    (hhash : '#' ∈ joinRows rs) (hnone : '#' ∉ joinRows (rs.map dropStamp)) (first : Nat) :
    StoppedByStamp before first rs := by
  induction rs generalizing before first with
  | nil => exact absurd hhash List.not_mem_nil
  | cons r rs ih =>
      rw [List.forall_mem_cons] at hnewline
      rw [hash_mem_joinRows_cons] at hhash
      rw [List.map_cons, hash_mem_joinRows_cons, not_or] at hnone
      by_cases hr : '#' ∈ r
      · -- The hash that closes the comment is in the stamp of this row.
        refine stoppedByStamp_here hodd ?_ first rs
        intro hsame
        exact hnone.1 (by rwa [hsame])
      · -- This row is all comment, and the hash is in the stamp of a later one.
        have hlater := hhash.resolve_left hr
        have hnext : (before + hashes r) % 2 = 1 := by rwa [hashes_eq_zero_iff.mpr hr]
        exact .cons (read_uncomment_inside hodd hr hnewline.1 hlater)
          (ih hnext hnewline.2 hlater hnone.2 (first + 1))

/-- Rows that give up their stamps are read as before, unless what has been read
    before ended at one of these stamps, inside of a comment. -/
theorem placeRows_dropStamp_or (hnewline : ∀ r ∈ rs, '\n' ∉ r)
    (hbefore : before' % 2 = before % 2) (first : Nat) :
    Source.placeRows first (rowCodes before' (rs.map dropStamp))
        = Source.placeRows first (rowCodes before rs) ∨
      StoppedByStamp before first rs := by
  induction rs generalizing before before' first with
  | nil => exact Or.inl rfl
  | cons r rs ih =>
      rcases List.forall_mem_cons.mp hnewline with ⟨hr, hrs⟩
      by_cases hburied : before % 2 = 1 ∧ dropStamp r ≠ r
      · exact Or.inr (stoppedByStamp_here hburied.1 hburied.2 first rs)
      have hrow : Alike before r (dropStamp r) := by
        refine .dropStamp hr fun hstamped => ?_
        exact Nat.mod_two_ne_one.mp fun hodd => hburied ⟨hodd, hstamped⟩
      by_cases hclosed : before % 2 = 1 ∧ '#' ∈ joinRows (r :: rs) ∧
          '#' ∉ joinRows ((r :: rs).map dropStamp)
      · exact Or.inr (stoppedByStamp_of_closed hclosed.1 hnewline hclosed.2.1 hclosed.2.2 first)
      -- A comment that reaches beyond the row ends behind it with and without the stamps.
      have hlater : before % 2 = 1 → '#' ∉ dropStamp r →
          ('#' ∈ joinRows (rs.map dropStamp) ↔ '#' ∈ joinRows rs) := by
        intro hodd hnone
        refine ⟨hash_mem_of_map_dropStamp, fun hhash => ?_⟩
        by_contra hgone
        refine hclosed ⟨hodd, (hash_mem_joinRows_cons r rs).mpr (Or.inr hhash), ?_⟩
        rw [List.map_cons, hash_mem_joinRows_cons, not_or]
        exact ⟨hnone, hgone⟩
      have hcode :
          Statement.read (uncomment before' (dropStamp r ++ ahead (joinRows (rs.map dropStamp))))
            = Statement.read (uncomment before (r ++ ahead (joinRows rs))) := by
        rw [uncomment_congr hbefore, ← hrow.read_eq,
          uncomment_append_congr (newline_not_mem_dropStamp hr) hlater]
      rw [List.map_cons, rowCodes, rowCodes]
      cases hread : Statement.read (uncomment before (r ++ ahead (joinRows rs))) with
      | error fault =>
          rw [Source.placeRows_cons_error hread, Source.placeRows_cons_error (hcode.trans hread)]
          exact Or.inl rfl
      | ok found =>
          have hnext : (before' + hashes (dropStamp r)) % 2 = (before + hashes r) % 2 := by
            have := hrow.hashes_mod
            omega
          rw [Source.placeRows_cons_ok hread, Source.placeRows_cons_ok (hcode.trans hread)]
          refine (ih hrs hnext (first + 1)).imp ?_ ?_
          · intro hsame
            rw [hsame]
          · intro hstopped
            exact hstopped.cons hread

end Comment

namespace Revision

/-- A revision of the stamps accepts what the assembler accepts, and refuses what
    it refuses with the same error. The one exception is a source that the
    assembler refuses at a line that still starts with a stamp when it has given
    up one, inside of a comment. -/
theorem restamp_accepts_or (src : Text) :
    (restamp src).map (fun _ => ()) = (Source.assemble src).map (fun _ => ()) ∨
      ∃ n name, BuriedStamp 0 (bareLines src) n ∧
        Source.assemble src = .error ⟨n + 1, .invalidMnemonic ('@' :: name)⟩ := by
  have hnewline : ∀ l ∈ bareLines src, '\n' ∉ l := fun l hl => newline_not_mem_bareLines hl
  have hlines : Source.statements src = Source.placeRows 1 (rowCodes 0 (bareLines src)) :=
    Source.statements_eq_placeLines src
  have hbare : Source.statements (joinRows (bareLines src))
      = Source.placeRows 1 (rowCodes 0 ((bareLines src).map dropStamp)) :=
    Source.statements_joinRows hnewline
  -- A revision assembles the lines without their stamps, which are stripped once more then.
  rcases placeRows_dropStamp_or hnewline (show 0 % 2 = 0 % 2 from rfl) 1 with
    hsame | ⟨n, name, hburied, herror⟩
  · rw [restamp_eq, Source.assemble, hbare, hsame, hlines]
    cases Source.placeRows 1 (rowCodes 0 (bareLines src)) <;> exact Or.inl rfl
  · refine Or.inr ⟨n, name, hburied, ?_⟩
    rw [Source.assemble, hlines, herror, Nat.add_comm 1 n]
    rfl

/-- A second stamp inside of a comment. It is an error to the assembler, and a
    revision does not see it. Where nothing else closes the comment, a revision
    may complain of a line that the assembler takes for a part of it. -/
theorem restamp_buried_stamp :
    BuriedStamp 0 (bareLines "#\n#@ a ##@ b #ret\n".toList) 1 ∧
      Source.assemble "#\n#@ a ##@ b #ret\n".toList = .error ⟨2, .invalidMnemonic "@".toList⟩ ∧
      restamp "#\n#@ a ##@ b #ret\n".toList
        = .ok "#\n#@ 0000 0200 : 00 EE # #@ b #ret\n".toList ∧
      Source.assemble "ret # a\nb\n#@ x ##@ y #ret".toList
        = .error ⟨3, .invalidMnemonic "@".toList⟩ ∧
      restamp "ret # a\nb\n#@ x ##@ y #ret".toList
        = .error ⟨2, .invalidMnemonic "b".toList⟩ :=
  ⟨by decide +kernel, rfl, rfl, rfl, rfl⟩

end Revision

end Chip8

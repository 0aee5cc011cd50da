import Chip8.Proofs.Listing.Stamp
import Chip8.Proofs.Listing.StampLines
import Chip8.Proofs.Source.Padding

/-!
# Revising a Listing Twice

A revision of the stamps takes a stamp off every line and puts new ones on.
What it writes has its stamps in order, and revising it once more should leave
it as it is. Whether it does is a question about single lines, and about what
is left of them when one stamp is off.

A line that still ends in a carriage return, because the source had two in
front of its newline, gives up the other one the next time. A line that still
starts with a stamp, because the source had two in a row, gives that up too,
unless it gets a new stamp and a blank in front of it. Then the old stamp is a
comment, for as long as the line starts outside of comments. In all other
cases the text is at rest: `Steady` lists these conditions, and they are both
necessary and sufficient.

## Main definitions

* `Revision.pad`: A line as it stands behind a stamp.
* `Revision.reread`: A line that was written, as it is read again.
* `Revision.Steady`: Nothing is left to do on the lines of a source.

## Theorems

* `fixed_line`: What a line that is written twice alike looks like.
* `padding_of_fixed`: The same for all lines.
* `fixed_of_steady`: Lines at rest are written twice alike.
* `restamp_eq_self_iff`: When a second revision changes nothing.
-/

namespace Chip8

open Text Comment

namespace Revision

/-- A line as it stands behind a stamp, with a blank in between. -/
def pad (line : Text) : Text :=
  match line with
  | [] => []
  | c :: _ => if isBlank c then line else ' ' :: line

/-- A line that was written, as the next revision reads it. -/
def reread (line : Text) : Text :=
  dropStamp (dropReturn line)

theorem stampLine_eq (offset : Nat) (bytes : List UInt8) (line : Text) :
    stampLine offset bytes line = stamp offset bytes ++ pad line := by
  cases line with
  | nil => rw [pad, List.append_nil]; rfl
  | cons c line =>
      simp only [stampLine, pad]
      split <;> rfl

/-! ## Padding a line -/

theorem pad_eq_or (line : Text) : pad line = line ∨ pad line = ' ' :: line := by
  unfold pad
  split
  · exact Or.inl rfl
  · split
    · exact Or.inl rfl
    · exact Or.inr rfl

theorem pad_hash (line : Text) : pad ('#' :: line) = ' ' :: '#' :: line := rfl

-- A line that has been padded starts with a blank, if with anything.
theorem pad_eq_nil_or (line : Text) :
    pad line = [] ∨ ∃ c t, isBlank c = true ∧ pad line = c :: t := by
  cases line with
  | nil => exact Or.inl rfl
  | cons c line =>
      simp only [pad]
      split
      · rename_i hc
        exact Or.inr ⟨c, line, hc, rfl⟩
      · exact Or.inr ⟨' ', c :: line, rfl, rfl⟩

theorem pad_pad (line : Text) : pad (pad line) = pad line := by
  rcases pad_eq_nil_or line with hnil | ⟨c, t, hc, hcons⟩
  · rw [hnil, pad]
  · rw [hcons]
    exact if_pos hc

theorem dropStamp_pad (line : Text) : dropStamp (pad line) = pad line := by
  rcases pad_eq_nil_or line with hnil | ⟨c, t, hc, hcons⟩
  · rw [hnil]
    rfl
  · rw [hcons]
    refine dropStamp_of_head_ne ?_ t
    rintro rfl
    exact absurd hc (by decide)

theorem newline_not_mem_pad {line : Text} (h : '\n' ∉ line) : '\n' ∉ pad line := by
  rcases pad_eq_or line with heq | heq
  · rwa [heq]
  · rw [heq]
    exact List.not_mem_cons_of_ne_of_not_mem (by decide) h

theorem getLast?_pad (line : Text) : (pad line).getLast? = line.getLast? := by
  cases line with
  | nil => rfl
  | cons c line =>
      rcases pad_eq_or (c :: line) with heq | heq
      · rw [heq]
      · rw [heq, List.getLast?_cons_cons]

-- A line that gives up a stamp gets it back as a comment, behind a blank.
theorem pad_of_stamped {line : Text} (h : dropStamp line ≠ line) :
    ∃ s, IsStamp s ∧ s ⊆ line ∧ pad line = ' ' :: (s ++ dropStamp line) := by
  rcases dropStamp_eq_self_or line with hsame | ⟨s, hs, heq⟩
  · exact absurd hsame h
  · refine ⟨s, hs, ?_, ?_⟩
    · rw [heq]
      exact List.subset_append_left s _
    · rw [← heq]
      rcases hs with ⟨c, body, _, _, rfl⟩
      rw [heq]
      exact pad_hash _

-- A line is padded in front of what it is without its stamp.
theorem padded_pad {before : Nat} {line : Text} (hnewline : '\n' ∉ line)
    (heven : dropStamp line ≠ line → before % 2 = 0) :
    Padded before (dropStamp line) (pad line) := by
  by_cases hsame : dropStamp line = line
  · rw [hsame]
    rcases pad_eq_or line with heq | heq
    · rw [heq]
      exact .same
    · rw [heq]
      exact .blank
  · rcases pad_of_stamped hsame with ⟨s, hs, hsub, heq⟩
    rw [heq]
    exact .stamp (heven hsame) hs fun h => hnewline (hsub h)

/-! ## Carriage returns -/

theorem dropReturn_of_getLast? {line : Text} (h : line.getLast? ≠ some '\r') :
    dropReturn line = line :=
  if_neg h

theorem length_dropReturn {line : Text} (h : line.getLast? = some '\r') :
    (dropReturn line).length + 1 = line.length := by
  have hne : line ≠ [] := by
    rintro rfl
    exact nomatch h
  have := List.length_pos_iff.mpr hne
  rw [dropReturn, if_pos h, List.length_dropLast]
  omega

theorem length_dropReturn_le (line : Text) : (dropReturn line).length ≤ line.length := by
  by_cases h : line.getLast? = some '\r'
  · have := length_dropReturn h
    omega
  · rw [dropReturn_of_getLast? h]

theorem length_dropStamp_le (line : Text) : (dropStamp line).length ≤ line.length := by
  rcases dropStamp_eq_self_or line with heq | ⟨s, _, heq⟩
  · rw [heq]
  · conv_rhs => rw [heq]
    rw [List.length_append]
    omega

theorem getLast?_stamp_append (offset : Nat) (bytes : List UInt8) {t : Text}
    (h : t.getLast? ≠ some '\r') : (stamp offset bytes ++ t).getLast? ≠ some '\r' := by
  by_cases hnil : t = []
  · rw [hnil, List.append_nil, getLast?_stamp]
    decide
  · rwa [List.getLast?_append_of_ne_nil _ hnil]

-- Behind a stamp, a carriage return comes off as it does without.
theorem dropReturn_append_stamp (offset : Nat) (bytes : List UInt8) (t : Text) :
    dropReturn (stamp offset bytes ++ t) = stamp offset bytes ++ dropReturn t := by
  by_cases h : t.getLast? = some '\r'
  · have hne : t ≠ [] := by
      rintro rfl
      exact nomatch h
    rw [dropReturn, dropReturn, List.getLast?_append_of_ne_nil _ hne, if_pos h, if_pos h,
      List.dropLast_append_of_ne_nil hne]
  · rw [dropReturn_of_getLast? h, dropReturn_of_getLast? (getLast?_stamp_append _ _ h)]

theorem reread_stamp (offset : Nat) (bytes : List UInt8) (t : Text) :
    reread (stamp offset bytes ++ t) = dropReturn t := by
  rw [reread, dropReturn_append_stamp, dropStamp_append (isStamp_stamp offset bytes)]

-- Padding does not make up for a carriage return.
theorem getLast?_of_pad_dropReturn {line : Text} (h : pad (dropReturn line) = line) :
    line.getLast? ≠ some '\r' := by
  intro hreturn
  have hdrop : dropReturn line = line.dropLast := if_pos hreturn
  rcases pad_eq_nil_or (dropReturn line) with hnil | ⟨c, t, hc, hcons⟩
  · rw [← h, hnil] at hreturn
    exact nomatch hreturn
  · rw [h] at hcons
    rw [hdrop, hcons] at h
    cases t with
    | nil => exact nomatch h
    | cons d t =>
        -- What is left starts with the same blank and gets no other one.
        have hshort : pad (c :: (d :: t).dropLast) = c :: (d :: t).dropLast := if_pos hc
        rw [List.dropLast_cons_cons, hshort, List.cons.injEq] at h
        have hlength := congrArg List.length h.2
        rw [List.length_dropLast, List.length_cons] at hlength
        omega

/-! ## One line -/

theorem showLine_of_ne_nil (offset : Nat) {bytes : List UInt8} (h : bytes ≠ []) (line : Text) :
    showLine offset bytes line = stamp offset bytes ++ pad line := by
  rw [showLine, if_neg (by simpa using h), stampLine_eq]

-- A line without a carriage return, as the next revision reads it.
theorem reread_showLine_of_ne_nil (offset : Nat) {bytes : List UInt8} (h : bytes ≠ [])
    {line : Text} (hreturn : line.getLast? ≠ some '\r') :
    reread (showLine offset bytes line) = pad line := by
  rw [showLine_of_ne_nil offset h, reread_stamp]
  exact dropReturn_of_getLast? (by rwa [getLast?_pad])

/-- What a line that is written twice alike looks like. It has no carriage
    return at its end. If it has bytes, it is read again as it stood behind its
    stamp. If it has none, nothing is put in front of it, and unless it gets
    bytes the second time, it has no stamp to give up. -/
theorem fixed_line {offset offset' : Nat} {bytes bytes' : List UInt8} {line : Text}
    (h : showLine offset' bytes' (reread (showLine offset bytes line))
      = showLine offset bytes line) :
    line.getLast? ≠ some '\r' ∧
      (bytes ≠ [] ∧ reread (showLine offset bytes line) = pad line ∨
        bytes = [] ∧ dropStamp (reread (showLine offset bytes line)) = dropStamp line ∧
          (bytes' = [] → dropStamp line = line)) := by
  by_cases hbytes : bytes = []
  · have hshow : showLine offset bytes line = line := by rw [hbytes]; rfl
    rw [hshow] at h ⊢
    by_cases hbytes' : bytes' = []
    · -- Nothing comes off the line, neither a carriage return nor a stamp.
      have hsame : reread line = line := by
        rw [hbytes'] at h
        exact h
      have hreturn : line.getLast? ≠ some '\r' := by
        intro hreturn
        have hshort := length_dropReturn hreturn
        have hle := length_dropStamp_le (dropReturn line)
        rw [reread] at hsame
        rw [hsame] at hle
        omega
      have hstamp : dropStamp line = line := by
        rwa [reread, dropReturn_of_getLast? hreturn] at hsame
      exact ⟨hreturn, Or.inr ⟨hbytes, by rw [hsame], fun _ => hstamp⟩⟩
    · -- The line is what the second revision writes: a stamp and a padded line.
      rw [showLine_of_ne_nil offset' hbytes'] at h
      have hread : reread line = dropReturn (pad (reread line)) := by
        conv_lhs => rw [← h]
        exact reread_stamp _ _ _
      have hpad : pad (dropReturn (pad (reread line))) = pad (reread line) := by rw [← hread]
      have hnone := getLast?_of_pad_dropReturn hpad
      have hsame : reread line = pad (reread line) := by
        conv_lhs => rw [hread]
        exact dropReturn_of_getLast? hnone
      have hreturn : line.getLast? ≠ some '\r' := by
        rw [← h]
        exact getLast?_stamp_append _ _ hnone
      have hstamp : dropStamp line = pad (reread line) := by
        conv_lhs => rw [← h]
        exact dropStamp_append (isStamp_stamp _ _) _
      refine ⟨hreturn, Or.inr ⟨hbytes, ?_, fun h => absurd h hbytes'⟩⟩
      calc dropStamp (reread line)
        _ = dropStamp (pad (reread line)) := congrArg dropStamp hsame
        _ = pad (reread line) := dropStamp_pad _
        _ = dropStamp line := hstamp.symm
  · rw [showLine_of_ne_nil offset hbytes, reread_stamp] at h
    have hbytes' : bytes' ≠ [] := by
      -- Otherwise the stamp would be lost.
      intro hnil
      rw [hnil] at h
      have hlength := congrArg List.length h
      have hle := length_dropReturn_le (pad line)
      have hpos := List.length_pos_of_mem (List.mem_of_getLast? (getLast?_stamp offset bytes))
      rw [List.length_append] at hlength
      change (dropReturn (pad line)).length = _ at hlength
      omega
    rw [showLine_of_ne_nil offset' hbytes'] at h
    have hpad : pad (dropReturn (pad line)) = pad line := by
      have hstamp := congrArg dropStamp h
      rwa [dropStamp_append (isStamp_stamp _ _), dropStamp_append (isStamp_stamp _ _)] at hstamp
    have hreturn : line.getLast? ≠ some '\r' := by
      rw [← getLast?_pad]
      exact getLast?_of_pad_dropReturn hpad
    exact ⟨hreturn, Or.inl ⟨hbytes, reread_showLine_of_ne_nil offset hbytes hreturn⟩⟩

/-! ## All lines -/

/-- Nothing is left to do on lines, the first of them behind a number of hashes
    and with the bytes on each of them: none ends in a carriage return, and
    where one still starts with a stamp, it has bytes and starts outside of
    comments. -/
def SteadyLines (before : Nat) (emitted : List (List UInt8)) (lines : List Text) : Prop :=
  ∀ n (h : n < lines.length),
    lines[n].getLast? ≠ some '\r' ∧
      (dropStamp lines[n] ≠ lines[n] →
        emitted.getD n [] ≠ [] ∧ (before + hashes ((lines.take n).flatMap dropStamp)) % 2 = 0)

instance (before : Nat) (emitted : List (List UInt8)) (lines : List Text) :
    Decidable (SteadyLines before emitted lines) :=
  inferInstanceAs (Decidable (∀ n (_ : n < lines.length), _ ∧ _))

theorem steadyLines_nil (before : Nat) (emitted : List (List UInt8)) :
    SteadyLines before emitted [] :=
  fun _ h => absurd h (Nat.not_lt_zero _)

theorem steadyLines_cons {before : Nat} {emitted : List (List UInt8)} {line : Text}
    {rest : List Text} :
    SteadyLines before emitted (line :: rest) ↔
      (line.getLast? ≠ some '\r' ∧
        (dropStamp line ≠ line → emitted.headD [] ≠ [] ∧ before % 2 = 0)) ∧
      SteadyLines (before + hashes (dropStamp line)) emitted.tail rest := by
  -- The bytes of a line are looked up by its number, so the numbers of the rest shift by one.
  have hhead : emitted.getD 0 [] = emitted.headD [] := by cases emitted <;> rfl
  have htail : ∀ n, emitted.getD (n + 1) [] = emitted.tail.getD n [] := by
    intro n
    cases emitted <;> rfl
  have hcount : ∀ n, before + hashes (((line :: rest).take (n + 1)).flatMap dropStamp)
      = before + hashes (dropStamp line) + hashes ((rest.take n).flatMap dropStamp) := by
    intro n
    rw [List.take_succ_cons, List.flatMap_cons, hashes_append, Nat.add_assoc]
  constructor
  · intro h
    refine ⟨hhead ▸ h 0 (Nat.zero_lt_succ _), ?_⟩
    intro n hn
    have hline := h (n + 1) (Nat.succ_lt_succ hn)
    rwa [htail, hcount] at hline
  · rintro ⟨hline, hrest⟩ n hn
    cases n with
    | zero => exact hhead.symm ▸ hline
    | succ n =>
        rw [htail, hcount]
        exact hrest n (Nat.lt_of_succ_lt_succ hn)

/-- Lines that are written twice alike are padded in between, if all of the
    rows can be read the second time. If moreover the bytes on them are the same
    both times, nothing was left to do. -/
theorem padding_of_fixed {before before' offset offset' : Nat}
    {emitted emitted' : List (List UInt8)} {lines : List Text}
    (hbefore : before' % 2 = before % 2) (hnewline : ∀ l ∈ lines, '\n' ∉ l)
    (hfixed : showLines offset' emitted' ((showLines offset emitted lines).map reread)
      = showLines offset emitted lines)
    (hread : ∀ code ∈ rowCodes before'
        (((showLines offset emitted lines).map reread).map dropStamp),
      ∃ found, Statement.read code = .ok found) :
    Padding before (lines.map dropStamp)
        (((showLines offset emitted lines).map reread).map dropStamp) ∧
      (emitted' = emitted → SteadyLines before emitted lines) := by
  induction lines generalizing before before' offset offset' emitted emitted' with
  | nil => exact ⟨.nil, fun _ => steadyLines_nil _ _⟩
  | cons line rest ih =>
      rw [showLines, List.map_cons, showLines, List.cons.injEq] at hfixed
      rw [showLines, List.map_cons, List.map_cons, rowCodes, List.forall_mem_cons] at hread
      rcases fixed_line hfixed.1 with ⟨hreturn, hline⟩
      -- A stamp that comes to light does so outside of comments.
      have heven : emitted.headD [] ≠ [] → dropStamp line ≠ line → before % 2 = 0 := by
        intro hbytes hstamped
        rcases hread.1 with ⟨found, hfound⟩
        rcases pad_of_stamped hstamped with ⟨s, hs, _, hpad⟩
        rw [reread_showLine_of_ne_nil offset hbytes hreturn, dropStamp_pad, hpad,
          List.cons_append, List.append_assoc, read_uncomment_blank] at hfound
        refine Nat.mod_two_ne_one.mp fun hodd => ?_
        rcases exists_read_stamp_eq_error (hbefore.trans hodd) hs _ with ⟨name, hfault⟩
        rw [hfault] at hfound
        cases hfound
      have hrow : Padded before (dropStamp line)
          (dropStamp (reread (showLine offset (emitted.headD []) line))) := by
        rcases hline with ⟨hbytes, hpad⟩ | ⟨_, hsame, _⟩
        · rw [hpad, dropStamp_pad]
          exact padded_pad (hnewline line List.mem_cons_self) (heven hbytes)
        · rw [hsame]
          exact .same
      have hnext : (before'
          + hashes (dropStamp (reread (showLine offset (emitted.headD []) line)))) % 2
            = (before + hashes (dropStamp line)) % 2 := by
        have := hrow.alike.hashes_mod
        omega
      rcases ih hnext (fun l hl => hnewline l (List.mem_cons_of_mem line hl)) hfixed.2 hread.2
        with ⟨hrows, hsteady⟩
      refine ⟨.cons hrow hrows, ?_⟩
      rintro rfl
      refine steadyLines_cons.mpr ⟨⟨hreturn, ?_⟩, hsteady rfl⟩
      intro hstamped
      rcases hline with ⟨hbytes, _⟩ | ⟨hnone, _, hbare⟩
      · exact ⟨hbytes, heven hbytes hstamped⟩
      · exact absurd (hbare hnone) hstamped

/-- Lines on which nothing is left to do are padded and then written alike. -/
theorem fixed_of_steady {before : Nat} {emitted : List (List UInt8)} {lines : List Text}
    (hnewline : ∀ l ∈ lines, '\n' ∉ l) (h : SteadyLines before emitted lines) (offset : Nat) :
    Padding before (lines.map dropStamp)
        (((showLines offset emitted lines).map reread).map dropStamp) ∧
      showLines offset emitted ((showLines offset emitted lines).map reread)
        = showLines offset emitted lines := by
  induction lines generalizing before offset emitted with
  | nil => exact ⟨.nil, rfl⟩
  | cons line rest ih =>
      rcases steadyLines_cons.mp h with ⟨⟨hreturn, hstamp⟩, hrest⟩
      rcases ih (fun l hl => hnewline l (List.mem_cons_of_mem line hl)) hrest
        (offset + (emitted.headD []).length) with ⟨hrows, hfixed⟩
      rw [showLines, List.map_cons, List.map_cons, List.map_cons, showLines, hfixed]
      by_cases hbytes : emitted.headD [] = []
      · -- Without bytes a line is written as it is, and it has nothing to give up.
        have hbare : dropStamp line = line := by
          by_cases hsame : dropStamp line = line
          · exact hsame
          · exact absurd hbytes (hstamp hsame).1
        have hline : reread (showLine offset (emitted.headD []) line) = line := by
          rw [hbytes]
          change dropStamp (dropReturn line) = line
          rw [dropReturn_of_getLast? hreturn, hbare]
        rw [hline]
        exact ⟨.cons .same hrows, rfl⟩
      · -- With bytes it is stamped again, and padding it once more changes nothing.
        have hline := reread_showLine_of_ne_nil offset hbytes hreturn
        rw [hline, dropStamp_pad, showLine_of_ne_nil offset hbytes,
          showLine_of_ne_nil offset hbytes, pad_pad]
        have hrow := padded_pad (hnewline line List.mem_cons_self) fun hne => (hstamp hne).2
        exact ⟨.cons hrow hrows, rfl⟩

/-! ## Whole sources -/

theorem newline_not_mem_showLines {lines : List Text} (hlines : ∀ l ∈ lines, '\n' ∉ l)
    (offset : Nat) (emitted : List (List UInt8)) :
    ∀ l ∈ showLines offset emitted lines, '\n' ∉ l := by
  induction lines generalizing offset emitted with
  | nil => exact List.forall_mem_nil _
  | cons line rest ih =>
      rw [List.forall_mem_cons] at hlines
      rw [showLines, List.forall_mem_cons]
      refine ⟨?_, ih hlines.2 _ _⟩
      by_cases hbytes : emitted.headD [] = []
      · rw [hbytes]
        exact hlines.1
      · rw [showLine_of_ne_nil offset hbytes, List.mem_append, not_or]
        exact ⟨newline_not_mem_stamp _ _, newline_not_mem_pad hlines.1⟩

theorem showLines_ne_nil {lines : List Text} (hne : lines ≠ []) (offset : Nat)
    (emitted : List (List UInt8)) : showLines offset emitted lines ≠ [] := by
  cases lines with
  | nil => exact absurd rfl hne
  | cons line rest => exact List.cons_ne_nil _ _

theorem bareLines_terminate {lines : List Text} (hlines : ∀ l ∈ lines, '\n' ∉ l) :
    bareLines (terminate lines) = lines.map reread := by
  rw [bareLines, lines_terminate hlines, List.map_map]
  rfl

theorem codeRows_joinRows {lines : List Text} (hlines : ∀ l ∈ lines, '\n' ∉ l)
    (hne : lines ≠ []) : codeRows (joinRows lines) = rowCodes 0 (lines.map dropStamp) := by
  rw [codeRows_eq_rowCodes, rows_joinRows lines hlines hne]

-- Where lines are padded only, their rows of code read alike.
theorem read_codeRows_of_padding {lines lines' : List Text} (hlines : ∀ l ∈ lines, '\n' ∉ l)
    (hne : lines ≠ []) (hlines' : ∀ l ∈ lines', '\n' ∉ l) (hne' : lines' ≠ [])
    (hpadding : Padding 0 (lines.map dropStamp) (lines'.map dropStamp)) :
    List.Forall₂ (fun code code' => Statement.read code = Statement.read code')
      (codeRows (joinRows lines')) (codeRows (joinRows lines)) := by
  rw [codeRows_joinRows hlines hne, codeRows_joinRows hlines' hne']
  exact hpadding.allAlike.read_rowCodes (newline_not_mem_map_dropStamp hlines) rfl

-- Rows that read alike hold the same bytes.
theorem emitted_congr {lines lines' : List Text}
    (h : List.Forall₂ (fun code code' => Statement.read code = Statement.read code')
      (codeRows (joinRows lines)) (codeRows (joinRows lines'))) :
    emitted lines = emitted lines' := by
  have hbytes : ∀ code code', Statement.read code = Statement.read code' →
      Statement.bytesOn code = Statement.bytesOn code' := by
    intro code code' hread
    rw [Statement.bytesOn, hread, Statement.bytesOn]
  have hmap := List.forall₂_map_left_iff.mpr (List.forall₂_map_right_iff.mpr (h.imp hbytes))
  rwa [List.forall₂_eq_eq_eq] at hmap

/-- Nothing is left to do on the lines of a source once its stamps have been
    revised. -/
def Steady (src : Text) : Prop :=
  SteadyLines 0 (emitted (bareLines src)) (bareLines src)

instance (src : Text) : Decidable (Steady src) :=
  inferInstanceAs (Decidable (SteadyLines _ _ _))

/-- A second revision of the stamps changes nothing if and only if the first
    one has left nothing to do. -/
theorem restamp_eq_self_iff {src t : Text} (h : restamp src = .ok t) :
    restamp t = .ok t ↔ Steady src := by
  rw [restamp_eq] at h
  rcases exists_of_map_eq_ok h with ⟨placed, hplaced, ht⟩
  have hlines : ∀ l ∈ bareLines src, '\n' ∉ l := fun l hl => newline_not_mem_bareLines hl
  by_cases hnil : bareLines src = []
  · -- An empty text has no lines, and stays empty.
    rw [hnil] at ht
    rw [Steady, hnil, ← ht]
    exact iff_of_true rfl (steadyLines_nil _ _)
  have hwritten := newline_not_mem_showLines hlines 0 (emitted (bareLines src))
  have hbare : bareLines t
      = (showLines 0 (emitted (bareLines src)) (bareLines src)).map reread := by
    rw [← ht, bareLines_terminate hwritten]
  have hbareLines : ∀ l ∈ bareLines t, '\n' ∉ l := fun l hl => newline_not_mem_bareLines hl
  have hbareNil : bareLines t ≠ [] := by
    rw [hbare, ne_eq, List.map_eq_nil_iff]
    exact showLines_ne_nil hnil _ _
  have halike := read_codeRows_of_padding hlines hnil hbareLines hbareNil
  rw [restamp_eq]
  constructor
  · -- That the second revision finds no error rules out stamps inside of comments.
    intro hsame
    rcases exists_of_map_eq_ok hsame with ⟨placed', hplaced', ht'⟩
    have hfixed : showLines 0 (emitted (bareLines t))
        ((showLines 0 (emitted (bareLines src)) (bareLines src)).map reread)
          = showLines 0 (emitted (bareLines src)) (bareLines src) := by
      rw [← hbare]
      exact terminate_injective (newline_not_mem_showLines hbareLines _ _) hwritten
        (ht'.trans ht.symm)
    have hread : ∀ code ∈ rowCodes 0 ((bareLines t).map dropStamp),
        ∃ found, Statement.read code = .ok found := by
      rw [← codeRows_joinRows hbareLines hbareNil]
      exact fun code hcode => Source.exists_read_of_placeRows_eq_ok hplaced' hcode
    rw [hbare] at hread
    rcases padding_of_fixed rfl hlines hfixed hread with ⟨hpadding, hsteady⟩
    rw [← hbare] at hpadding
    exact hsteady (emitted_congr (halike hpadding))
  · intro hsteady
    rcases fixed_of_steady hlines hsteady 0 with ⟨hpadding, hfixed⟩
    rw [← hbare] at hpadding hfixed
    have hplaced' : Source.statements (joinRows (bareLines t)) = .ok placed :=
      (Source.placeRows_congr (halike hpadding) 1).trans hplaced
    rw [hplaced', emitted_congr (halike hpadding), hfixed, ← ht]
    rfl

/-- A line with two stamps in a row. The second one stays as a comment, and the
    text is at rest. -/
theorem restamp_two_stamps :
    restamp "#@ 0000 0200 : 60 01 # #@ b #li v0, 1\n".toList
      = .ok "#@ 0000 0200 : 60 01 # #@ b #li v0, 1\n".toList :=
  (restamp_eq_self_iff (show restamp "#@ a ##@ b #li v0, 1".toList
    = .ok "#@ 0000 0200 : 60 01 # #@ b #li v0, 1\n".toList from rfl)).mpr (by decide +kernel)

/-- On a line without bytes, two stamps in a row take two revisions. -/
theorem restamp_two_stamps_no_bytes :
    restamp "#@ a ##@ b #\n".toList = .ok "#@ b #\n".toList ∧
      restamp "#@ b #\n".toList = .ok "\n".toList ∧
      "#@ b #\n".toList ≠ "\n".toList :=
  ⟨rfl, rfl, by decide⟩

end Revision

end Chip8

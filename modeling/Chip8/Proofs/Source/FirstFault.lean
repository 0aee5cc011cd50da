import Chip8.Proofs.Source.CodeLines
import Chip8.Report
import Chip8.Text.Utf8
import Mathlib.Data.List.DropRight
import Mathlib.Order.Bounds.Defs

/-!
# Errors Point at Their Line

The line of an assembly error is found in the code, and it is looked up in the
source. The code is what is left when stamps and comments are gone, and it is
cut into rows once more before any of them is read; the label of a report is
counted out over the source as it was written, in bytes. The two have nothing in
common but the number.

The number is that of the first line whose code is not well formed: all lines
above it are blank or have statements on them. The label covers exactly the row
of the source that has this number. In front of it are the rows above with their
newlines, and carriage returns at the end of the row are left out, however many
there are. This holds for every source, with characters of any width and with
comments that run over many lines.

## Main definitions

* `Text.trimReturns`: A row without the carriage returns at its end.

## Theorems

* `size_toUtf8`, `toUtf8_append`: The bytes of texts.
* `extract_toUtf8`: The bytes of a text in the middle of others.
* `lineSpan_of_rows`: Where a row lies.
* `exists_of_placeRows_eq_error`, `placeRows_eq_error`: The row that ends the
  reading.
* `isLeast_line`: The line of an error.
* `assemble_eq_error`: The error of the first line that cannot be read.
* `assemble_error_first`: Where an assembly error points to.
-/

namespace Chip8

open Text

namespace Text

/-! ## Bytes -/

theorem byteLength_eq_sum (t : Text) : byteLength t = (t.map Char.utf8Size).sum := by
  rw [List.sum_eq_foldl, List.foldl_map]
  rfl

theorem byteLength_append (t t' : Text) : byteLength (t ++ t') = byteLength t + byteLength t' := by
  rw [byteLength_eq_sum, byteLength_eq_sum, byteLength_eq_sum, List.map_append, List.sum_append]

theorem toUtf8_append (t t' : Text) : toUtf8 (t ++ t') = toUtf8 t ++ toUtf8 t' :=
  List.utf8Encode_append

/-- A text has as many bytes as its characters together. -/
theorem size_toUtf8 (t : Text) : (toUtf8 t).size = byteLength t := by
  rw [byteLength_eq_sum]
  change t.utf8Encode.size = _
  induction t with
  | nil => rfl
  | cons c t ih =>
      rw [List.utf8Encode_cons, ByteArray.size_append, List.utf8Encode_singleton,
        List.size_toByteArray, String.length_utf8EncodeChar, ih, List.map_cons, List.sum_cons]

/-- The bytes of a text are cut out of those of a longer one. -/
theorem extract_toUtf8 (front t behind : Text) :
    (toUtf8 (front ++ (t ++ behind))).extract (toUtf8 front).size
      ((toUtf8 front).size + (toUtf8 t).size) = toUtf8 t := by
  rw [← List.append_assoc, toUtf8_append, toUtf8_append, ByteArray.extract_append,
    ByteArray.extract_append_eq_right rfl rfl, ByteArray.size_append, Nat.sub_self,
    Nat.sub_eq_zero_of_le (Nat.le_add_right _ _), ByteArray.extract_same, ByteArray.append_empty]

/-- Rows with their newlines, as a label counts them. -/
theorem foldl_byteLength (ls : List Text) (n : Nat) :
    ls.foldl (fun n r => n + byteLength r + 1) n = n + byteLength (terminate ls) := by
  induction ls generalizing n with
  | nil => rfl
  | cons l ls ih =>
      have hnewline : byteLength ['\n'] = 1 := rfl
      rw [List.foldl_cons, ih, terminate_cons, List.append_cons, byteLength_append,
        byteLength_append, hnewline]
      omega

/-- A row without the carriage returns at its end. -/
def trimReturns (r : Text) : Text :=
  r.rdropWhile (· == '\r')

theorem exists_trimReturns_append (r : Text) :
    ∃ k, r = trimReturns r ++ List.replicate k '\r' ∧ (trimReturns r).getLast? ≠ some '\r' := by
  refine ⟨(r.rtakeWhile (· == '\r')).length, ?_, ?_⟩
  · have hall : ∀ c ∈ r.rtakeWhile (· == '\r'), c = '\r' :=
      fun c hc => by simpa using List.mem_rtakeWhile_imp hc
    rw [← List.eq_replicate_of_mem hall]
    exact (List.rdropWhile_append_rtakeWhile (p := (· == '\r'))).symm
  · intro hlast
    rcases List.mem_getLast?_eq_getLast hlast with ⟨hne, heq⟩
    exact List.rdropWhile_last_not _ r hne (heq ▸ rfl)

end Text

/-- A row lies behind the rows above and their newlines. -/
theorem lineSpan_of_rows {src row : Text} {above below : List Text}
    (h : rows src = above ++ row :: below) :
    lineSpan src (above.length + 1)
      = ((toUtf8 (terminate above)).size, (toUtf8 (trimReturns row)).size) := by
  have hrow : (rows src)[above.length]? = some row := by
    rw [h, List.getElem?_append_right (Nat.le_refl _), Nat.sub_self, List.getElem?_cons_zero]
  rw [lineSpan]
  simp only [hrow]
  rw [h, List.take_left, foldl_byteLength, Nat.zero_add, size_toUtf8, size_toUtf8]
  rfl

-- A source is cut there.
theorem exists_append_of_rows {src row : Text} {above below : List Text}
    (h : rows src = above ++ row :: below) :
    ∃ behind, src = terminate above ++ (trimReturns row ++ behind) := by
  rcases exists_trimReturns_append row with ⟨k, hrow, _⟩
  have hsrc : src = terminate above ++ joinRows (row :: below) := by
    rw [← joinRows_append above (List.cons_ne_nil row below), ← h, joinRows_rows]
  -- Whether or not there are rows below, this one comes first.
  have hfirst : ∃ rest, joinRows (row :: below) = row ++ rest := by
    cases below with
    | nil => exact ⟨[], by rw [joinRows, List.intercalate_singleton, List.append_nil]⟩
    | cons next below => exact ⟨_, joinRows_cons row (List.cons_ne_nil next below)⟩
  rcases hfirst with ⟨rest, hrest⟩
  refine ⟨List.replicate k '\r' ++ rest, ?_⟩
  rw [hsrc, hrest, ← List.append_assoc (trimReturns row), ← hrow]

namespace Source

/-- Rows that cannot all be read have a first one that cannot. Its fault and its
    number make up the error. -/
theorem exists_of_placeRows_eq_error {rows : List Text} {first : Nat} {e : AssemblyError}
    (h : placeRows first rows = .error e) :
    ∃ front row behind, rows = front ++ row :: behind ∧
      (∀ r ∈ front, ∃ found, Statement.read r = .ok found) ∧
      Statement.read row = .error e.fault ∧ e.line = first + front.length := by
  induction rows generalizing first with
  | nil => exact nomatch h
  | cons row rows ih =>
      cases hread : Statement.read row with
      | error fault =>
          rw [placeRows_cons_error hread] at h
          cases h
          exact ⟨[], row, rows, rfl, List.forall_mem_nil _, hread, rfl⟩
      | ok found =>
          rw [placeRows_cons_ok hread] at h
          rcases ih (eq_error_of_map_eq_error h) with
            ⟨front, faulty, behind, rfl, hfront, hfault, hline⟩
          refine ⟨row :: front, faulty, behind, rfl, ?_, hfault, ?_⟩
          · exact List.forall_mem_cons.mpr ⟨⟨found, hread⟩, hfront⟩
          · rw [hline, List.length_cons, Nat.add_right_comm, Nat.add_assoc]

/-- A row that cannot be read ends the reading if all rows in front of it can be. -/
theorem placeRows_eq_error {front : List Text} {row : Text} {fault : AssemblyFault}
    (hfront : ∀ r ∈ front, ∃ found, Statement.read r = .ok found)
    (hread : Statement.read row = .error fault) (first : Nat) (behind : List Text) :
    placeRows first (front ++ row :: behind) = .error ⟨first + front.length, fault⟩ := by
  induction front generalizing first with
  | nil => exact placeRows_cons_error hread first behind
  | cons r front ih =>
      rcases hfront r List.mem_cons_self with ⟨found, hfound⟩
      rw [List.cons_append, placeRows_cons_ok hfound,
        ih fun m hm => hfront m (List.mem_cons_of_mem r hm), List.length_cons, Nat.add_right_comm,
        Nat.add_assoc]
      rfl

/-- The line of an assembly error is the first one that is not well formed. -/
theorem isLeast_line {src : Text} {e : AssemblyError} (h : assemble src = .error e) :
    IsLeast {n | ∃ code, codeOnLine? src n = some code ∧ ¬Statement.WellFormed code} e.line := by
  rcases exists_of_placeRows_eq_error (eq_error_of_map_eq_error h) with
    ⟨front, faulty, behind, hcodes, hfront, hfault, hline⟩
  rw [Nat.add_comm] at hline
  refine ⟨⟨faulty, ?_, ?_⟩, ?_⟩
  · rw [hline, codeOnLine?, hcodes, List.getElem?_append_right (Nat.le_refl _), Nat.sub_self,
      List.getElem?_cons_zero]
  · intro hcode
    rcases Statement.wellFormed_iff.mp hcode with ⟨found, hread⟩
    rw [hfault] at hread
    cases hread
  · -- The lines above can be read.
    rintro n ⟨code, hcode, hnone⟩
    refine Nat.le_of_not_lt fun hlt => hnone ?_
    cases n with
    | zero => cases hcode
    | succ index =>
        rw [codeOnLine?, hcodes, List.getElem?_append_left (by omega)] at hcode
        exact Statement.wellFormed_iff.mpr (hfront code (List.mem_of_getElem? hcode))

/-- The first line that is not well formed makes the error of its source. -/
theorem assemble_eq_error {src code : Text} {line : Nat} {fault : AssemblyFault}
    (hcode : codeOnLine? src line = some code)
    (habove : ∀ n < line, ∀ above, codeOnLine? src n = some above → Statement.WellFormed above)
    (hread : Statement.read code = .error fault) : assemble src = .error ⟨line, fault⟩ := by
  cases line with
  | zero => cases hcode
  | succ index =>
      rw [codeOnLine?] at hcode
      rcases eq_take_append_cons_drop hcode with ⟨hcodes, hlength⟩
      -- Lines above are rows in front, and a line that is well formed can be read.
      have hfront : ∀ r ∈ (Comment.codeRows src).take index,
          ∃ found, Statement.read r = .ok found := by
        intro r hr
        rcases List.mem_take_iff_getElem.mp hr with ⟨k, hk, rfl⟩
        refine Statement.wellFormed_iff.mp (habove (k + 1) (by omega) _ ?_)
        exact List.getElem?_eq_getElem (by omega)
      rw [assemble, statements, hcodes, placeRows_eq_error hfront hread, hlength, Nat.add_comm]
      rfl

/-- Where an assembly error points to. Its line is the first one whose code, which
    is what is left of it without stamps and without the comments of the whole
    text, is neither blank nor a statement. The one label of its report lies inside
    of the source. It starts behind the bytes of all lines above and their newlines,
    and it covers the bytes of the line, the one that the code is from, without the
    carriage returns at its end. -/
theorem assemble_error_first {src : Text} {e : AssemblyError} (h : assemble src = .error e) :
    IsLeast {n | ∃ code, codeOnLine? src n = some code ∧ ¬Statement.WellFormed code} e.line ∧
      ∃ label, (e.report src).labels = [label] ∧
        label.offset + label.length ≤ (toUtf8 src).size ∧
        ∃ above row below code, rows src = above ++ row :: below ∧ above.length + 1 = e.line ∧
          codeOnLine? src e.line = some code ∧ code.Sublist row ∧
          label.offset = (toUtf8 (terminate above)).size ∧
          (toUtf8 src).extract label.offset (label.offset + label.length)
            = toUtf8 (trimReturns row) := by
  have hleast := isLeast_line h
  rcases hleast.1 with ⟨code, hcode, _⟩
  rcases exists_rows_of_codeOnLine? hcode with ⟨above, row, below, hrows, hline, hsub⟩
  rcases exists_append_of_rows hrows with ⟨behind, hsrc⟩
  -- The label is counted out over the rows of the source, of which the code is one.
  have hspan := lineSpan_of_rows hrows
  rw [hline] at hspan
  have hlabels : (e.report src).labels = [⟨(toUtf8 (terminate above)).size,
      (toUtf8 (trimReturns row)).size, e.fault.guidance.2.2⟩] := by
    rw [AssemblyError.report, hspan]
  refine ⟨hleast, _, hlabels, ?_, above, row, below, code, hrows, hline, hcode, hsub, rfl, ?_⟩
  · rw [hsrc, toUtf8_append, toUtf8_append, ByteArray.size_append, ByteArray.size_append]
    dsimp only
    omega
  · rw [hsrc]
    exact extract_toUtf8 _ _ _

/-- A stamp, a comment over two lines, and a faulty line behind them, with wide
    characters and carriage returns all over. -/
theorem assemble_error_first_spanning :
    let src := "#@ é # ret # ü\r\nö # clear\r\ndéjà 1\r\r\nret".toList
    let e : AssemblyError := ⟨3, .invalidMnemonic "déjà".toList⟩
    assemble src = .error e ∧
      IsLeast {n | ∃ code, codeOnLine? src n = some code ∧ ¬Statement.WellFormed code} 3 ∧
      (toUtf8 src).extract 30 (30 + 8) = toUtf8 "déjà 1".toList := by
  intro src e
  have herror : assemble src = .error e := by decide +kernel
  have hlabel : (e.report src).labels = [⟨30, 8, "unknown instruction"⟩] := by decide +kernel
  have hfaulty : (rows src)[2]? = some "déjà 1\r\r".toList := by decide +kernel
  have htrim : trimReturns "déjà 1\r\r".toList = "déjà 1".toList := by decide
  rcases assemble_error_first herror with
    ⟨hleast, label, hlabels, _, above, row, below, _, hrows, hline, _, _, _, hbytes⟩
  rw [hlabel] at hlabels
  cases hlabels
  -- There are two rows above the label, so it covers the third.
  have htwo : above.length = 2 := Nat.succ.inj hline
  rw [hrows, ← htwo, List.getElem?_append_right (Nat.le_refl _), Nat.sub_self,
    List.getElem?_cons_zero] at hfaulty
  rw [Option.some.inj hfaulty, htrim] at hbytes
  exact ⟨herror, hleast, hbytes⟩

end Source

end Chip8

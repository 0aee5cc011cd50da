import Chip8.Proofs.Source.CodeLines
import Chip8.Proofs.Source.Pattern

/-!
# Hashes in Pairs

What a comment covers is a matter of counting. The hashes of a text are numbered
from the left. One with an odd number opens a comment, and the comment reaches
to the next hash and includes it. The last hash may have an odd number too; then
its comment reaches to the end of the row. All other characters are kept, and so
are newlines wherever they stand.

So every character has its fate at the place where it stands, and a text without
its comments is what is left of it place by place. Nothing moves from one row to
another: a row of the result consists of the characters of the same row of the
text that no comment covers.

The scan does not count. It looks ahead at each hash, and it never goes back.
That it comes to the same is shown comment by comment, as for the pattern.

## Main definitions

* `comments`: The places of the comments of a text.
* `InComment`: A comment covers a place.
* `uncovered`: A text without what its comments cover, newlines apart.
* `numberedRows`: The rows of a text, with the places of their characters.

## Theorems

* `comments_opens`: The first comment of a text, and those behind it.
* `uncovered_opens`: What is left up to the end of the first comment.
* `stripComments_eq_uncovered`: The scan leaves what no comment covers.
* `rows_uncovered`: What is left of each row.
* `stripComments_pairs_hashes`: Text without comments.
-/

namespace Chip8

open Text

/-! ## Lists in pieces -/

section

variable {α β : Type}

/-- Items are dropped before or after a list is cut, if none of the dropped ones is
    a place to cut. -/
theorem splitOnP_filter {cut keep : α → Bool} (l : List α)
    (hcut : ∀ a, cut a = true → keep a = true) :
    (l.filter keep).splitOnP cut = (l.splitOnP cut).map (List.filter keep) := by
  induction l with
  | nil => rfl
  | cons a l ih =>
      rw [List.splitOnP_cons_eq_if_modifyHead]
      cases hpieces : l.splitOnP cut with
      | nil => exact absurd hpieces (List.splitOnP_ne_nil cut l)
      | cons first pieces =>
          rw [hpieces] at ih
          cases hkeep : keep a with
          | true =>
              -- An item that is kept goes to the first piece, unless it ends it.
              rw [List.filter_cons_of_pos hkeep, List.splitOnP_cons_eq_if_modifyHead, ih]
              split
              · rfl
              · rw [List.map_cons, List.modifyHead_cons, List.modifyHead_cons, List.map_cons,
                  List.filter_cons_of_pos hkeep]
          | false =>
              -- An item that is dropped is no place to cut.
              have hnone : ¬cut a = true := fun h => by
                rw [hcut a h] at hkeep
                exact Bool.noConfusion hkeep
              rw [List.filter_cons_of_neg (Bool.eq_false_iff.mp hkeep), ih, if_neg hnone,
                List.modifyHead_cons, List.map_cons, List.map_cons,
                List.filter_cons_of_neg (Bool.eq_false_iff.mp hkeep)]

theorem splitOnP_map (f : α → β) (cut : β → Bool) (l : List α) :
    (l.map f).splitOnP cut = (l.splitOnP (cut ∘ f)).map (List.map f) := by
  induction l with
  | nil => rfl
  | cons a l ih =>
      rw [List.map_cons, List.splitOnP_cons_eq_if_modifyHead, List.splitOnP_cons_eq_if_modifyHead,
        ih]
      cases hpieces : l.splitOnP (cut ∘ f) with
      | nil => exact absurd hpieces (List.splitOnP_ne_nil _ l)
      | cons first pieces =>
          rw [Function.comp_apply]
          split <;> rfl

end

namespace Comment

/-! ## Places -/

/-- The place where the row of another place ends. -/
def rowEnd (t : Text) (k : Nat) : Nat :=
  k + ((t.drop k).takeWhile (· ≠ '\n')).length

/-- The comments that begin and end at some hashes of a text, as places where they
    begin and places right behind them. The last hash may be without another. -/
def pairUp (t : Text) : List Nat → List (Nat × Nat)
  | [] => []
  | [start] => [(start, rowEnd t start)]
  | start :: stop :: later => (start, stop + 1) :: pairUp t later

/-- The comments of a text: its hashes, from the left, in pairs. -/
def comments (t : Text) : List (Nat × Nat) :=
  pairUp t (t.idxsOf '#')

/-- A place in a text that one of its comments covers. -/
def InComment (t : Text) (k : Nat) : Prop :=
  ∃ c ∈ comments t, c.1 ≤ k ∧ k < c.2

instance (t : Text) (k : Nat) : Decidable (InComment t k) :=
  inferInstanceAs (Decidable (∃ c ∈ comments t, c.1 ≤ k ∧ k < c.2))

/-- What is left of a text whose comments go, but for their newlines. -/
def uncovered (t : Text) : Text :=
  (t.zipIdx.filter fun x => x.1 = '\n' ∨ ¬InComment t x.2).map Prod.fst

/-- The rows of a text, each character with its place in the text. -/
def numberedRows (t : Text) : List (List (Char × Nat)) :=
  t.zipIdx.splitOnP (·.1 == '\n')

/-- Two comments that are closed and one that is not. -/
example : comments "a#b\n#c##d#\ne".toList = [(1, 5), (6, 8), (9, 10)] := by decide

/-- The same comment behind a number of characters. -/
def shift (n : Nat) (c : Nat × Nat) : Nat × Nat :=
  (c.1 + n, c.2 + n)

theorem idxsOf_hash_of_not_mem {t : Text} (ht : '#' ∉ t) (start : Nat) :
    t.idxsOf '#' start = [] := by
  rw [List.idxsOf_eq_nil_iff]
  intro c hc
  rw [beq_eq_false_iff_ne]
  rintro rfl
  exact ht hc

theorem comments_of_not_mem {t : Text} (ht : '#' ∉ t) : comments t = [] := by
  rw [comments, idxsOf_hash_of_not_mem ht]
  rfl

theorem rowEnd_append (front t : Text) (k : Nat) :
    rowEnd (front ++ t) (k + front.length) = rowEnd t k + front.length := by
  rw [rowEnd, rowEnd, Nat.add_comm k, List.drop_length_add_append, Nat.add_comm front.length k,
    Nat.add_right_comm]

theorem pairUp_append (front t : Text) (ks : List Nat) :
    pairUp (front ++ t) (ks.map (· + front.length)) = (pairUp t ks).map (shift front.length) := by
  induction ks using pairUp.induct with
  | case1 => rfl
  | case2 start =>
      rw [List.map_singleton, pairUp, rowEnd_append]
      rfl
  | case3 start stop later ih =>
      rw [List.map_cons, List.map_cons, pairUp, ih, Nat.add_right_comm]
      rfl

/-- The first comment of a text is in front of all others, and these are the comments
    of the rest. -/
theorem comments_opens {front comment rest : Text} (hfront : '#' ∉ front)
    (h : Opens comment rest) :
    comments (front ++ comment ++ rest)
      = (front.length, (front ++ comment).length)
        :: (comments rest).map (shift (front ++ comment).length) := by
  have hlater : rest.idxsOf '#' (front ++ comment).length
      = (rest.idxsOf '#').map (· + (front ++ comment).length) := List.idxsOf_start
  rw [comments, comments, ← pairUp_append, ← hlater, List.idxsOf_append, List.idxsOf_append,
    idxsOf_hash_of_not_mem hfront, List.nil_append, Nat.zero_add, Nat.zero_add]
  cases h with
  | @paired body hbody rest =>
      -- The first two hashes make a pair.
      have hpair : ('#' :: (body ++ ['#'])).idxsOf '#' front.length
          = [front.length, front.length + 1 + body.length] := by
        rw [List.idxsOf_cons, if_pos (by decide), List.idxsOf_append, idxsOf_hash_of_not_mem hbody]
        rfl
      rw [hpair]
      simp only [List.cons_append, List.nil_append, pairUp, List.length_append, List.length_cons,
        List.length_nil]
      congr 2
      omega
  | @lone body rest hbody hnewline hrest hend =>
      -- The only hash is without another, so its comment ends with the row.
      have hlone : ('#' :: body).idxsOf '#' front.length = [front.length] := by
        rw [List.idxsOf_cons, if_pos (by decide), idxsOf_hash_of_not_mem hbody]
      have hrow : rowEnd (front ++ '#' :: body ++ rest) front.length
          = (front ++ '#' :: body).length := by
        have hnone : rest.takeWhile (· ≠ '\n') = [] := by
          cases rest with
          | nil => rfl
          | cons c rest => rw [List.takeWhile_cons, if_neg (by simpa using hend c rfl)]
        have hall : ∀ c ∈ '#' :: body, decide (c ≠ '\n') = true := by
          intro c hc
          rw [decide_eq_true_iff]
          rintro rfl
          exact List.not_mem_cons_of_ne_of_not_mem (by decide) hnewline hc
        rw [rowEnd, List.append_assoc, List.drop_left, List.takeWhile_append_of_pos hall, hnone,
          List.append_nil, List.length_append]
      rw [hlone, idxsOf_hash_of_not_mem hrest, List.append_nil]
      exact congrArg (fun stop => [(front.length, stop)]) hrow

/-! ## What is left -/

section

variable {front comment rest : Text} (hfront : '#' ∉ front) (h : Opens comment rest)

include hfront h

-- Up to its end, there is only the first comment.
theorem inComment_iff_of_lt {k : Nat} (hk : k < (front ++ comment).length) :
    InComment (front ++ comment ++ rest) k ↔ front.length ≤ k := by
  rw [InComment, comments_opens hfront h]
  constructor
  · rintro ⟨c, hc, hstart, _⟩
    rcases List.mem_cons.mp hc with rfl | hc
    · exact hstart
    · -- The others begin behind it.
      rcases List.mem_map.mp hc with ⟨d, _, rfl⟩
      have hbehind : d.1 + (front ++ comment).length ≤ k := hstart
      omega
  · exact fun hstart => ⟨_, List.mem_cons_self, hstart, hk⟩

-- Behind its end, there are only the others.
theorem inComment_add_iff (k : Nat) :
    InComment (front ++ comment ++ rest) (k + (front ++ comment).length) ↔ InComment rest k := by
  rw [InComment, comments_opens hfront h]
  constructor
  · rintro ⟨c, hc, hstart, hstop⟩
    rcases List.mem_cons.mp hc with rfl | hc
    · exact absurd hstop (by dsimp only; omega)
    · rcases List.mem_map.mp hc with ⟨d, hd, rfl⟩
      exact ⟨d, hd, Nat.le_of_add_le_add_right hstart, Nat.lt_of_add_lt_add_right hstop⟩
  · rintro ⟨d, hd, hstart, hstop⟩
    exact ⟨_, List.mem_cons_of_mem _ (List.mem_map_of_mem hd), Nat.add_le_add_right hstart _,
      Nat.add_lt_add_right hstop _⟩

/-- What is left of a text up to the end of its first comment, and behind it. -/
theorem uncovered_opens :
    uncovered (front ++ comment ++ rest) = front ++ (newlines comment ++ uncovered rest) := by
  -- In front of the comment, all is kept.
  have hkept : front.zipIdx.filter
      (fun x => x.1 = '\n' ∨ ¬InComment (front ++ comment ++ rest) x.2) = front.zipIdx := by
    rw [List.filter_eq_self]
    intro x hx
    have hlt := List.snd_lt_of_mem_zipIdx hx
    have hin : x.2 < (front ++ comment).length := by
      rw [List.length_append]
      omega
    rw [decide_eq_true_iff, inComment_iff_of_lt hfront h hin]
    exact Or.inr (Nat.not_le_of_lt hlt)
  -- In the comment, newlines are.
  have hcovered : (comment.zipIdx front.length).filter
        (fun x => x.1 = '\n' ∨ ¬InComment (front ++ comment ++ rest) x.2)
      = (comment.zipIdx front.length).filter ((· == '\n') ∘ Prod.fst) := by
    refine List.filter_congr fun x hx => ?_
    have hin : x.2 < (front ++ comment).length := by
      rw [List.length_append]
      exact List.snd_lt_add_of_mem_zipIdx hx
    have hstart := (inComment_iff_of_lt hfront h hin).mpr (List.le_snd_of_mem_zipIdx hx)
    exact decide_eq_decide.mpr (or_iff_left fun hout => hout hstart)
  -- Behind it, the places are those of the rest, further on.
  have hlater : (rest.zipIdx (front ++ comment).length).filter
        (fun x => x.1 = '\n' ∨ ¬InComment (front ++ comment ++ rest) x.2)
      = (rest.zipIdx.filter fun x => x.1 = '\n' ∨ ¬InComment rest x.2).map
        (Prod.map id (· + (front ++ comment).length)) := by
    have hshift : rest.zipIdx (front ++ comment).length
        = rest.zipIdx.map (Prod.map id (· + (front ++ comment).length)) :=
      (List.map_snd_add_zipIdx_eq_zipIdx (k := 0)).symm
    rw [hshift, List.filter_map]
    congr 1
    refine List.filter_congr fun x _ => ?_
    simp only [Function.comp_apply, Prod.map_fst, Prod.map_snd, id_eq,
      inComment_add_iff hfront h x.2]
  rw [uncovered, List.zipIdx_append, List.zipIdx_append, Nat.zero_add, Nat.zero_add,
    List.filter_append, List.filter_append, hkept, hcovered, hlater, List.map_append,
    List.map_append, List.zipIdx_map_fst, ← List.filter_map, List.zipIdx_map_fst, List.filter_beq,
    List.append_assoc, List.map_map]
  rfl

end

theorem uncovered_of_not_mem {t : Text} (ht : '#' ∉ t) : uncovered t = t := by
  have hnone : ∀ k, ¬InComment t k := by
    rintro k ⟨c, hc, _⟩
    rw [comments_of_not_mem ht] at hc
    exact nomatch hc
  have hkept : (t.zipIdx.filter fun x => x.1 = '\n' ∨ ¬InComment t x.2) = t.zipIdx :=
    List.filter_eq_self.mpr fun x _ => decide_eq_true (Or.inr (hnone x.2))
  rw [uncovered, hkept, List.zipIdx_map_fst]

/-- The scan leaves what no comment covers. -/
theorem stripComments_eq_uncovered (t : Text) : stripComments t = uncovered t := by
  induction t using induction_comments with
  | plain t ht => rw [stripComments_of_not_mem ht, uncovered_of_not_mem ht]
  | comment front comment rest hfront hopens ih =>
      rw [stripComments_opens hfront hopens, ih, ← uncovered_opens hfront hopens,
        List.append_assoc]

theorem count_newline_stripComments (t : Text) : (stripComments t).count '\n' = t.count '\n' := by
  induction t using induction_comments with
  | plain t ht => rw [stripComments_of_not_mem ht]
  | comment front comment rest hfront hopens ih =>
      rw [stripComments_opens hfront hopens, List.count_append, List.count_append,
        List.count_append, List.count_append, ih, newlines, List.count_replicate_self]

/-! ## Row by row -/

/-- Rows with places are rows. -/
theorem map_fst_numberedRows (t : Text) :
    (numberedRows t).map (List.map Prod.fst) = rows t := by
  have hrows : rows t = (t.zipIdx.map Prod.fst).splitOnP (· == '\n') := by
    rw [List.zipIdx_map_fst]
    rfl
  rw [hrows, splitOnP_map]
  rfl

theorem ne_newline_of_mem_numberedRows {t : Text} {row : List (Char × Nat)}
    (hrow : row ∈ numberedRows t) {x : Char × Nat} (hx : x ∈ row) : x.1 ≠ '\n' := by
  have hmem : row.map Prod.fst ∈ rows t := by
    rw [← map_fst_numberedRows]
    exact List.mem_map_of_mem hrow
  intro hnewline
  exact newline_not_mem_rows hmem (hnewline ▸ List.mem_map_of_mem hx)

/-- What is left of each row are its characters that no comment covers. -/
theorem rows_uncovered (t : Text) :
    rows (uncovered t) = (numberedRows t).map fun row =>
      (row.filter fun x => ¬InComment t x.2).map Prod.fst := by
  have hrows : rows (uncovered t) = (uncovered t).splitOnP (· == '\n') := rfl
  rw [hrows, uncovered, splitOnP_map, splitOnP_filter _ fun x hx => ?_, List.map_map]
  · refine List.map_congr_left fun row hrow => ?_
    rw [Function.comp_apply]
    congr 1
    refine List.filter_congr fun x hx => decide_eq_decide.mpr ?_
    exact or_iff_right (ne_newline_of_mem_numberedRows hrow hx)
  · exact decide_eq_true (Or.inl (eq_of_beq hx))

/-- A text without its comments has no hashes, and as many newlines as before. It is
    what is left of the text, newlines apart, when its hashes are numbered from the
    left, and everything goes from each odd one to the next, or to the end of the row
    where there is no next. It is also what results when all matches of the pattern
    of a comment are replaced by the newlines in them. Each of its rows consists of
    the characters of the same row of the text that no comment covers. -/
theorem stripComments_pairs_hashes (t : Text) :
    '#' ∉ stripComments t ∧
      (stripComments t).count '\n' = t.count '\n' ∧
      stripComments t = uncovered t ∧
      (∀ u, pattern.Replaced newlines t u ↔ u = stripComments t) ∧
      (numberedRows t).map (List.map Prod.fst) = rows t ∧
      rows (stripComments t) = (numberedRows t).map fun row =>
        (row.filter fun x => ¬InComment t x.2).map Prod.fst := by
  refine ⟨hash_not_mem_strip .code t, count_newline_stripComments t, stripComments_eq_uncovered t,
    replaced_iff t, map_fst_numberedRows t, ?_⟩
  rw [stripComments_eq_uncovered]
  exact rows_uncovered t

end Comment

end Chip8

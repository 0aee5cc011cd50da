import Chip8.Proofs.Source.Scan

/-!
# Comments as a Pattern

Comments may also be described by what they look like. A pattern describes
them: a hash, anything that is no hash, and another hash; or else a hash and
what is left of its row. All matches of the pattern are replaced, each by the
newlines in it, and this is a way to take comments out of a text that knows
nothing of a scan.

A pattern may match a text in more than one way. The ways come in an order of
preference: the first of two alternatives goes before the second, and of a row
of characters more go before fewer. Only the most preferred way counts. Of the
two forms of a comment, the one with a closing hash is preferred, however far
away that hash is, and the other is for a hash that is the last of its text.

What the pattern finds and what the scan removes is the same. Both go from the
left, and at a hash either of them has a choice that the rest of the text
decides.

## Main definitions

* `Pattern`: Patterns of characters.
* `Pattern.rests`: What a pattern leaves of a text, in order of preference.
* `Pattern.Replaced`: A text with all matches replaced.
* `Comment.pattern`: The pattern of a comment.
* `Comment.Opens`: A comment at the beginning of a text.

## Theorems

* `Replaced.unique`: There is one way to replace all matches.
* `induction_comments`: A text, comment by comment.
* `stripComments_opens`: The scan removes the first comment of a text.
* `rest?_pattern`: The pattern matches the first comment of a text.
* `replaced_iff`: Replacing all matches is stripping comments.
-/

namespace Chip8

open Text

/-! ## Patterns -/

/-- A pattern of characters. -/
inductive Pattern where
  /-- One character of a class. -/
  | one (p : Char → Bool)
  /-- Any number of characters of a class, and as many of them as possible. -/
  | many (p : Char → Bool)
  /-- One pattern, and behind it another. -/
  | next (front behind : Pattern)
  /-- One pattern, or else another. -/
  | orElse (preferred other : Pattern)

namespace Pattern

/-- What is left of a text behind any number of characters of a class, more of
    them before fewer. -/
def restsMany (p : Char → Bool) : Text → List Text
  | [] => [[]]
  | c :: t => if p c then restsMany p t ++ [c :: t] else [c :: t]

/-- What is left of a text when its beginning has been matched, for each way to
    match it, in order of preference. -/
def rests : Pattern → Text → List Text
  | .one _, [] => []
  | .one p, c :: t => if p c then [t] else []
  | .many p, t => restsMany p t
  | .next front behind, t => (front.rests t).flatMap behind.rests
  | .orElse preferred other, t => preferred.rests t ++ other.rests t

/-- What is left of a text behind the match at its beginning, if there is one. -/
def rest? (p : Pattern) (t : Text) : Option Text :=
  (p.rests t).head?

/-- All matches of a pattern in a text have been replaced, from the left, and the
    search for the next has gone on behind each of them. Patterns that match
    nothing at all are left out. -/
inductive Replaced (p : Pattern) (f : Text → Text) : Text → Text → Prop where
  | done : p.rest? [] = none → Replaced p f [] []
  | keep {c : Char} {t u : Text} (hnone : p.rest? (c :: t) = none) (hrest : Replaced p f t u) :
      Replaced p f (c :: t) (c :: u)
  | swap {t found rest u : Text} (ht : t = found ++ rest) (hne : found ≠ [])
      (hfound : p.rest? t = some rest) (hrest : Replaced p f rest u) :
      Replaced p f t (f found ++ u)

/-- There is one way to replace all matches. -/
theorem Replaced.unique {p : Pattern} {f : Text → Text} {t u v : Text} (hu : Replaced p f t u)
    (hv : Replaced p f t v) : u = v := by
  induction hu generalizing v with
  | done hnone =>
      cases hv with
      | done => rfl
      | swap _ _ hfound => exact nomatch hnone.symm.trans hfound
  | keep hnone _ ih =>
      cases hv with
      | keep _ hrest => rw [ih hrest]
      | swap _ _ hfound => exact nomatch hnone.symm.trans hfound
  | @swap t found rest u ht _ hfound _ ih =>
      cases hv with
      | done hnone => exact nomatch hnone.symm.trans hfound
      | keep hnone => exact nomatch hnone.symm.trans hfound
      | @swap _ found' rest' u' ht' _ hfound' hrest' =>
          -- The match is what is in front of the rest.
          have hrest : rest = rest' := Option.some.inj (hfound.symm.trans hfound')
          subst hrest
          have hsame : found = found' := List.append_cancel_right (ht.symm.trans ht')
          rw [hsame, ih hrest']

theorem head?_restsMany {p : Char → Bool} {t rest : Text} (ht : ∀ c ∈ t, p c = true)
    (hrest : ∀ c ∈ rest.head?, p c = false) : (restsMany p (t ++ rest)).head? = some rest := by
  induction t with
  | nil =>
      cases rest with
      | nil => rfl
      | cons c rest =>
          rw [List.nil_append, restsMany, hrest c rfl]
          rfl
  | cons c t ih =>
      rw [List.forall_mem_cons] at ht
      rw [List.cons_append, restsMany, ht.1, if_pos rfl, List.head?_append, ih ht.2]
      rfl

end Pattern

/-! ## The pattern of a comment -/

namespace Comment

/-- A hash, anything that is no hash, and a hash; or else a hash and the rest of
    its row. -/
def pattern : Pattern :=
  .orElse
    (.next (.one (· == '#')) (.next (.many (· != '#')) (.one (· == '#'))))
    (.next (.one (· == '#')) (.many (· != '\n')))

/-- The newlines in a text. -/
def newlines (t : Text) : Text :=
  List.replicate (t.count '\n') '\n'

/-- A text is a comment, in front of another text: it ends at the next hash, or it
    is the rest of a row and no hash comes behind it. -/
inductive Opens : Text → Text → Prop where
  | paired {body : Text} (hbody : '#' ∉ body) (rest : Text) :
      Opens ('#' :: (body ++ ['#'])) rest
  | lone {body rest : Text} (hbody : '#' ∉ body) (hnewline : '\n' ∉ body) (hrest : '#' ∉ rest)
      (hend : ∀ c ∈ rest.head?, c = '\n') : Opens ('#' :: body) rest

-- The first hash of a text opens a comment.
theorem exists_opens (t : Text) :
    ∃ comment rest, '#' :: t = comment ++ rest ∧ Opens comment rest := by
  by_cases ht : '#' ∈ t
  · -- It is closed by the next hash.
    rcases List.eq_append_cons_of_mem ht with ⟨body, rest, heq, hbody⟩
    refine ⟨_, rest, ?_, .paired hbody rest⟩
    rw [heq, List.cons_append, List.append_assoc]
    rfl
  · -- Without another hash, it goes to the end of the row.
    have hparts := List.takeWhile_append_dropWhile (p := (· ≠ '\n')) (l := t)
    refine ⟨'#' :: t.takeWhile (· ≠ '\n'), t.dropWhile (· ≠ '\n'), ?_, .lone ?_ ?_ ?_ ?_⟩
    · rw [List.cons_append, hparts]
    · exact fun h => ht ((List.takeWhile_sublist _).subset h)
    · exact fun h => by simpa using List.mem_takeWhile_imp h
    · exact fun h => ht ((List.dropWhile_sublist _).subset h)
    · intro c hc
      have hhead := List.head?_dropWhile_not (· ≠ '\n') t
      rw [hc] at hhead
      simpa using hhead

/-- Induction on the comments of a text. -/
theorem induction_comments {motive : Text → Prop} (plain : ∀ t, '#' ∉ t → motive t)
    (comment : ∀ front comment rest, '#' ∉ front → Opens comment rest → motive rest →
      motive (front ++ (comment ++ rest))) (t : Text) : motive t := by
  induction hlength : t.length using Nat.strong_induction_on generalizing t with
  | _ n ih =>
      by_cases ht : '#' ∈ t
      · rcases List.eq_append_cons_of_mem ht with ⟨front, behind, heq, hfront⟩
        rcases exists_opens behind with ⟨first, rest, hbehind, hopens⟩
        rw [hbehind] at heq
        -- A comment has its hash at least, so what is behind it is shorter.
        have hshort : rest.length < n := by
          have hfirst : 0 < first.length := by cases hopens <;> exact Nat.succ_pos _
          rw [← hlength, heq, List.length_append, List.length_append]
          omega
        rw [heq]
        exact comment front first rest hfront hopens (ih _ hshort rest rfl)
      · exact plain t ht

/-! ## Scan and pattern -/

-- Of a comment that is closed, its newlines are kept.
theorem strip_paired_body {body : Text} (hbody : '#' ∉ body) (rest : Text) :
    strip [] .paired (body ++ '#' :: rest) = newlines body ++ strip [] .code rest := by
  induction body with
  | nil => exact strip_paired_hash rest
  | cons c body ih =>
      rw [List.mem_cons, not_or] at hbody
      rw [List.cons_append]
      by_cases hc : c = '\n'
      · rw [hc, strip_paired_newline, ih hbody.2, newlines, newlines, List.count_cons_self,
          List.replicate_succ, List.cons_append]
      · rw [strip_paired_cons (Ne.symm hbody.1) hc, ih hbody.2, newlines, newlines,
          List.count_cons_of_ne hc]

theorem newlines_append (t t' : Text) : newlines (t ++ t') = newlines t ++ newlines t' := by
  rw [newlines, newlines, newlines, List.count_append, List.replicate_append_replicate]

/-- The first comment of a text is removed but for its newlines, and the scan goes
    on behind it as from the start. -/
theorem stripComments_opens {front comment rest : Text} (hfront : '#' ∉ front)
    (h : Opens comment rest) :
    stripComments (front ++ (comment ++ rest))
      = front ++ (newlines comment ++ stripComments rest) := by
  rw [stripComments, strip_code hfront]
  congr 1
  cases h with
  | @paired body hbody rest =>
      -- The scan sees the hash that closes the comment, and skips up to it.
      have hhash : '#' ∈ body ++ '#' :: rest := List.mem_append_right _ List.mem_cons_self
      have hnewlines : newlines ('#' :: (body ++ ['#'])) = newlines body := by
        rw [← List.singleton_append, newlines_append, newlines_append]
        exact List.append_nil _
      rw [List.cons_append, List.append_assoc, List.singleton_append, strip_code_hash, if_pos hhash,
        strip_paired_body hbody, hnewlines]
      rfl
  | @lone body rest hbody hnewline hrest hend =>
      -- The scan sees no other hash, and skips up to the end of the row.
      have hhash : '#' ∉ body ++ rest := List.not_mem_append hbody hrest
      have hnewlines : newlines ('#' :: body) = [] := by
        rw [newlines, List.count_cons_of_ne (by decide), List.count_eq_zero_of_not_mem hnewline]
        rfl
      rw [List.cons_append, strip_code_hash, if_neg hhash, hnewlines, List.nil_append]
      cases rest with
      | nil => rw [List.append_nil, strip_lone hnewline]; rfl
      | cons c rest =>
          rw [hend c rfl, strip_lone_row hnewline]
          exact (strip_code_cons (by decide) rest).symm

-- The preferred form, where there is a hash to close the comment.
theorem flatMap_restsMany {body : Text} (hbody : '#' ∉ body) (rest : Text) :
    (Pattern.restsMany (· != '#') (body ++ '#' :: rest)).flatMap (Pattern.one (· == '#')).rests
      = [rest] := by
  induction body with
  | nil => rfl
  | cons c body ih =>
      rw [List.mem_cons, not_or] at hbody
      have hc : (c == '#') = false := by simpa using Ne.symm hbody.1
      have hmore : (c != '#') = true := by simpa using Ne.symm hbody.1
      rw [List.cons_append, Pattern.restsMany, hmore, if_pos rfl, List.flatMap_append, ih hbody.2,
        List.flatMap_singleton, Pattern.rests, hc]
      rfl

-- And where there is none.
theorem flatMap_restsMany_eq_nil {t : Text} (ht : '#' ∉ t) :
    (Pattern.restsMany (· != '#') t).flatMap (Pattern.one (· == '#')).rests = [] := by
  induction t with
  | nil => rfl
  | cons c t ih =>
      rw [List.mem_cons, not_or] at ht
      have hc : (c == '#') = false := by simpa using Ne.symm ht.1
      have hmore : (c != '#') = true := by simpa using Ne.symm ht.1
      rw [Pattern.restsMany, hmore, if_pos rfl, List.flatMap_append, ih ht.2,
        List.flatMap_singleton, Pattern.rests, hc]
      rfl

theorem rests_pattern_hash (t : Text) :
    pattern.rests ('#' :: t)
      = (Pattern.restsMany (· != '#') t).flatMap (Pattern.one (· == '#')).rests
        ++ Pattern.restsMany (· != '\n') t := by
  simp only [pattern, Pattern.rests, BEq.rfl, if_true, List.flatMap_singleton]

/-- The pattern matches a comment at the beginning of a text. -/
theorem rest?_pattern {comment rest : Text} (h : Opens comment rest) :
    pattern.rest? (comment ++ rest) = some rest := by
  cases h with
  | @paired body hbody rest =>
      rw [Pattern.rest?, List.cons_append, List.append_assoc, List.singleton_append,
        rests_pattern_hash, flatMap_restsMany hbody]
      rfl
  | @lone body rest hbody hnewline hrest hend =>
      -- The first form does not match, and the second takes as much as it can.
      rw [Pattern.rest?, List.cons_append, rests_pattern_hash,
        flatMap_restsMany_eq_nil (List.not_mem_append hbody hrest), List.nil_append]
      refine Pattern.head?_restsMany (fun c hc => ?_) fun c hc => ?_
      · exact bne_iff_ne.mpr fun heq => hnewline (heq ▸ hc)
      · rw [hend c hc]
        rfl

-- Without a hash at the beginning of a text, there is no comment.
theorem rest?_pattern_of_ne {c : Char} (hc : c ≠ '#') (t : Text) :
    pattern.rest? (c :: t) = none := by
  have hclass : (c == '#') = false := by simpa using hc
  simp only [Pattern.rest?, pattern, Pattern.rests, hclass, Bool.false_eq_true, if_false,
    List.flatMap_nil, List.append_nil, List.head?_nil]

theorem replaced_append {front t u : Text} (hfront : '#' ∉ front)
    (h : pattern.Replaced newlines t u) : pattern.Replaced newlines (front ++ t) (front ++ u) := by
  induction front with
  | nil => exact h
  | cons c front ih =>
      rw [List.mem_cons, not_or] at hfront
      exact .keep (rest?_pattern_of_ne (Ne.symm hfront.1) _) (ih hfront.2)

theorem replaced_stripComments (t : Text) : pattern.Replaced newlines t (stripComments t) := by
  induction t using induction_comments with
  | plain t ht =>
      have h := replaced_append ht (.done rfl)
      rw [List.append_nil] at h
      rwa [stripComments_of_not_mem ht]
  | comment front comment rest hfront hopens ih =>
      rw [stripComments_opens hfront hopens]
      have hne : comment ≠ [] := by cases hopens <;> exact List.cons_ne_nil _ _
      exact replaced_append hfront (.swap rfl hne (rest?_pattern hopens) ih)

/-- Replacing all comments by their newlines is stripping them. -/
theorem replaced_iff (t u : Text) : pattern.Replaced newlines t u ↔ u = stripComments t := by
  constructor
  · exact fun h => h.unique (replaced_stripComments t)
  · rintro rfl
    exact replaced_stripComments t

end Comment

end Chip8

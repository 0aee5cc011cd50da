/-!
# Results and Errors

Readers return a result or an error, and they are chained: the first error
ends the chain. The lemmas here take a chain that has led to a result apart
into its links, each with a result of its own.

## Main definitions

* `error?`: The error in place of a result, if there is one.

## Theorems

* `exists_of_bind_eq_ok`: A chain with a result has a result at its first
  link.
* `exists_of_map_eq_ok`: A result behind a function comes from a result in
  front of it.
* `eq_error_of_map_eq_error`: An error behind a function is an error in front of
  it.
* `eq_of_fst_eq`: A known result beside what it leaves behind.
* `error?_mapM`: The first error of a row of readings.
-/

namespace Chip8

variable {ε α β γ : Type}

/-- The error in place of a result, if there is one. -/
def error? : Except ε α → Option ε
  | .ok _ => none
  | .error e => some e

theorem eq_error_of_error? {result : Except ε α} {e : ε} (h : error? result = some e) :
    result = .error e := by
  cases result with
  | ok a => exact nomatch h
  | error e' => exact congrArg Except.error (Option.some.inj h)

theorem exists_of_bind_eq_ok {first : Except ε α} {next : α → Except ε β} {b : β}
    (h : first >>= next = .ok b) : ∃ a, first = .ok a ∧ next a = .ok b := by
  cases first with
  | error e => exact nomatch h
  | ok a => exact ⟨a, rfl, h⟩

theorem exists_of_map_eq_ok {result : Except ε α} {f : α → β} {b : β}
    (h : result.map f = .ok b) : ∃ a, result = .ok a ∧ f a = b := by
  cases result with
  | error e => exact nomatch h
  | ok a => exact ⟨a, rfl, Except.ok.inj h⟩

theorem eq_error_of_map_eq_error {result : Except ε α} {f : α → β} {e : ε}
    (h : result.map f = .error e) : result = .error e := by
  cases result with
  | error e' => exact congrArg Except.error (Except.error.inj h)
  | ok a => exact nomatch h

theorem eq_of_fst_eq {answer : α × β × γ} {a : α} (h : answer.1 = a) :
    answer = (a, answer.2.1, answer.2.2) := by
  rw [← h]

/-- A row of readings has the error of the first one that has any. -/
theorem error?_mapM (f : α → Except ε β) (as : List α) :
    error? (as.mapM f) = as.findSome? fun a => error? (f a) := by
  induction as with
  | nil => rfl
  | cons a as ih =>
      rw [List.mapM_cons, List.findSome?_cons, ← ih]
      cases f a with
      | error e => rfl
      | ok b => cases as.mapM f <;> rfl

end Chip8

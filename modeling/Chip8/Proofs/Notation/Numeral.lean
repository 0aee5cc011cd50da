import Chip8.Operand.Reader
import Mathlib.Data.Nat.Init

/-!
# Numbers Written and Read

A number that is written as a numeral is read back, in either base. The digits
come out of repeated division, the last of them first, while the reader takes
them from the left and multiplies as it goes along. So the induction is on the
number that is written, and it needs to know what reading does to a row of
digits with one more digit behind it.

Hexadecimal digits are written in upper case and read in both. The lemmas
leave open which character stands for a digit, as long as the reader
recognises it, and serve both bases that way.

Beside their value, numerals have characters, and the rest of a line relies on
these: none of them ends a word, opens a comment or ends a row.

## Main definitions

* `Text.IsPlain`: A text without hashes and line endings.

## Theorems

* `appendDigits?_append`: Digits are read one part after the other.
* `ofDigits?_toDigits`: The digits of a number denote it.
* `ofDigits?_decimal`, `numeral?_hexNumeral`: The same for either notation.
* `mem_toDigits`: The digits of a number are digits.
* `isPlain_decimal`, `isPlain_hex`: Numerals are plain text.
-/

namespace Chip8

namespace Text

/-- The number behind two rows of digits is reached through the number behind
    the first of them. -/
theorem appendDigits?_append (base n : Nat) (front back : Text) :
    appendDigits? base n (front ++ back)
      = (appendDigits? base n front).bind fun m => appendDigits? base m back := by
  induction front generalizing n with
  | nil => rfl
  | cons c rest ih =>
      simp only [List.cons_append, appendDigits?]
      cases digit? base c with
      | none => rfl
      | some d => exact ih (n * base + d)

section Digits

variable {base : Nat} {write : Char → Char}

theorem appendDigits?_toDigits (hbase : 1 < base)
    (hwrite : ∀ d < base, digit? base (write (Nat.digitChar d)) = some d) (n : Nat) :
    appendDigits? base 0 ((Nat.toDigits base n).map write) = some n := by
  induction n using Nat.strong_induction_on with
  | _ n ih =>
      rcases Nat.lt_or_ge n base with hlt | hge
      · rw [Nat.toDigits_of_lt_base hlt, List.map_cons, List.map_nil, appendDigits?, hwrite n hlt]
        simp only [appendDigits?, Nat.zero_mul, Nat.zero_add]
      · -- All digits but the last are those of the quotient.
        have hquotient := ih (n / base) (Nat.div_lt_self (by omega) hbase)
        have hlast := hwrite (n % base) (Nat.mod_lt n (by omega))
        rw [Nat.toDigits_of_base_le hbase hge, List.map_append, appendDigits?_append, hquotient,
          Option.bind_some, List.map_cons, List.map_nil, appendDigits?, hlast]
        simp only [appendDigits?, Option.some.injEq]
        exact Nat.div_add_mod' n base

/-- The digits of a number denote that number, with any characters for them
    that the reader takes for what they are. -/
theorem ofDigits?_toDigits (hbase : 1 < base)
    (hwrite : ∀ d < base, digit? base (write (Nat.digitChar d)) = some d) (n : Nat) :
    ofDigits? base ((Nat.toDigits base n).map write) = some n := by
  have hread := appendDigits?_toDigits hbase hwrite n
  cases hdigits : (Nat.toDigits base n).map write with
  | nil => exact absurd (List.map_eq_nil_iff.mp hdigits) Nat.toDigits_ne_nil
  | cons c rest =>
      rw [hdigits] at hread
      exact hread

theorem mem_toDigits (hbase : 1 < base) {c : Char} {n : Nat} (h : c ∈ Nat.toDigits base n) :
    ∃ d < base, c = Nat.digitChar d := by
  induction n using Nat.strong_induction_on with
  | _ n ih =>
      rcases Nat.lt_or_ge n base with hlt | hge
      · rw [Nat.toDigits_of_lt_base hlt, List.mem_singleton] at h
        exact ⟨n, hlt, h⟩
      · rw [Nat.toDigits_of_base_le hbase hge, List.mem_append, List.mem_singleton] at h
        rcases h with hquotient | hlast
        · exact ih (n / base) (Nat.div_lt_self (by omega) hbase) hquotient
        · exact ⟨n % base, Nat.mod_lt n (by omega), hlast⟩

end Digits

/-- A number in decimal denotes itself. -/
theorem ofDigits?_decimal (n : Nat) : ofDigits? 10 (decimal n) = some n := by
  have hdigit : ∀ d < 10, digit? 10 (id (Nat.digitChar d)) = some d := by decide
  have h := ofDigits?_toDigits (by decide) hdigit n
  rwa [List.map_id] at h

/-- A number in hexadecimal behind `0x` denotes itself. -/
theorem numeral?_hexNumeral (n : Nat) : numeral? (hexNumeral n) = some n := by
  have hdigit : ∀ d < 16, digit? 16 (Char.toUpper (Nat.digitChar d)) = some d := by decide
  exact ofDigits?_toDigits (by decide) hdigit n

theorem mem_decimal {c : Char} {n : Nat} (h : c ∈ decimal n) :
    ∃ d < 16, c = Nat.digitChar d := by
  rcases mem_toDigits (by decide) h with ⟨d, hd, hc⟩
  exact ⟨d, by omega, hc⟩

theorem mem_hex {c : Char} {n : Nat} (h : c ∈ hex n) :
    ∃ d < 16, c = (Nat.digitChar d).toUpper := by
  rcases List.mem_map.mp h with ⟨digit, hdigit, rfl⟩
  rcases mem_toDigits (by decide) hdigit with ⟨d, hd, rfl⟩
  exact ⟨d, hd, rfl⟩

/-- A text that neither opens a comment nor ends a row, nor brings a carriage
    return to the end of one. -/
def IsPlain (t : Text) : Prop :=
  ∀ c ∈ t, c ≠ '#' ∧ c ≠ '\n' ∧ c ≠ '\r'

instance (t : Text) : Decidable (IsPlain t) :=
  List.decidableBAll _ t

theorem IsPlain.append {s t : Text} (hs : IsPlain s) (ht : IsPlain t) : IsPlain (s ++ t) := by
  intro c hc
  rcases List.mem_append.mp hc with h | h
  · exact hs c h
  · exact ht c h

theorem IsPlain.cons {c : Char} {t : Text} (hc : c ≠ '#' ∧ c ≠ '\n' ∧ c ≠ '\r')
    (ht : IsPlain t) : IsPlain (c :: t) :=
  List.forall_mem_cons.mpr ⟨hc, ht⟩

theorem IsPlain.hash_not_mem {t : Text} (ht : IsPlain t) : '#' ∉ t :=
  fun hmem => (ht '#' hmem).1 rfl

theorem IsPlain.newline_not_mem {t : Text} (ht : IsPlain t) : '\n' ∉ t :=
  fun hmem => (ht '\n' hmem).2.1 rfl

theorem IsPlain.return_not_mem {t : Text} (ht : IsPlain t) : '\r' ∉ t :=
  fun hmem => (ht '\r' hmem).2.2 rfl

theorem isPlain_decimal (n : Nat) : IsPlain (decimal n) := by
  have hdigit : ∀ d < 16,
      Nat.digitChar d ≠ '#' ∧ Nat.digitChar d ≠ '\n' ∧ Nat.digitChar d ≠ '\r' := by
    decide
  intro c hc
  rcases mem_decimal hc with ⟨d, hd, rfl⟩
  exact hdigit d hd

theorem isPlain_hex (n : Nat) : IsPlain (hex n) := by
  have hdigit : ∀ d < 16, (Nat.digitChar d).toUpper ≠ '#' ∧
      (Nat.digitChar d).toUpper ≠ '\n' ∧ (Nat.digitChar d).toUpper ≠ '\r' := by
    decide
  intro c hc
  rcases mem_hex hc with ⟨d, hd, rfl⟩
  exact hdigit d hd

theorem isPlain_hexNumeral (n : Nat) : IsPlain (hexNumeral n) :=
  IsPlain.cons (by decide) (IsPlain.cons (by decide) (isPlain_hex n))

theorem isPlain_paddedHex (width n : Nat) : IsPlain (paddedHex width n) := by
  intro c hc
  rw [paddedHex, List.leftpad, List.mem_append, List.mem_replicate] at hc
  rcases hc with ⟨_, rfl⟩ | hc
  · decide
  · exact isPlain_hex n c hc

end Text

end Chip8

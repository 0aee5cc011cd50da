import Chip8.Text.Basic

/-!
# Numerals

Numbers are read in decimal, or in hexadecimal behind `0x`, and written in
either base. A numeral of any length denotes a natural number, and numbers
have no bound of their own.

Whoever reads a numeral, however, has room for numbers below some limit only.
A numeral of many digits is read without counting up to what it denotes: its
number is followed until it has reached the limit, and from there on a digit
needs only to be a digit.

## Main definitions

* `Text.digit?`: The value of a digit, in any base up to sixteen.
* `Text.ofDigits?`, `Text.numeral?`: The number that a row of digits, or a
  decimal or `0x` numeral, denotes.
* `Text.ofDigitsBelow?`, `Text.numeralBelow?`: The same below a limit.
* `Text.unsigned?`: A decimal number of bounded width, with an optional `+`.
* `Text.decimal`, `Text.hex`, `Text.paddedHex`: Numbers as text.

## Theorems

* `ofDigitsBelow?_eq`, `numeralBelow?_eq`: Reading below a limit is reading,
  and then asking whether the number lies below the limit.
-/

namespace Chip8

namespace Text

/-- The value of a hexadecimal digit of either case. -/
def hexDigit? (c : Char) : Option Nat :=
  if '0' ≤ c ∧ c ≤ '9' then some (c.toNat - '0'.toNat)
  else if 'a' ≤ c ∧ c ≤ 'f' then some (c.toNat - 'a'.toNat + 10)
  else if 'A' ≤ c ∧ c ≤ 'F' then some (c.toNat - 'A'.toNat + 10)
  else none

/-- The value of a digit in the given base. -/
def digit? (base : Nat) (c : Char) : Option Nat :=
  (hexDigit? c).filter (· < base)

/-- The number that has further digits behind those of another number. -/
def appendDigits? (base n : Nat) : Text → Option Nat
  | [] => some n
  | c :: rest =>
      match digit? base c with
      | none => none
      | some d => appendDigits? base (n * base + d) rest

/-- The number that a non-empty row of digits denotes. -/
def ofDigits? (base : Nat) : Text → Option Nat
  | [] => none
  | digits => appendDigits? base 0 digits

/-- The same as `appendDigits?` as long as the number lies below a limit. Once
    it does not, no digit brings it back, and it is left as it is. -/
def appendDigitsBelow? (limit base n : Nat) : Text → Option Nat
  | [] => some n
  | c :: rest =>
      match digit? base c with
      | none => none
      | some d => appendDigitsBelow? limit base (if n < limit then n * base + d else n) rest

/-- The number that a non-empty row of digits denotes, if it lies below a
    limit. The time this takes is in proportion to the number of digits. -/
def ofDigitsBelow? (limit base : Nat) : Text → Option Nat
  | [] => none
  | digits => (appendDigitsBelow? limit base 0 digits).filter (· < limit)

theorem filter_appendDigitsBelow? (limit : Nat) {base : Nat} (hbase : 0 < base) (digits : Text)
    {n m : Nat} (h : n = m ∨ limit ≤ n ∧ limit ≤ m) :
    (appendDigitsBelow? limit base n digits).filter (· < limit)
      = (appendDigits? base m digits).filter (· < limit) := by
  induction digits generalizing n m with
  | nil =>
      rcases h with rfl | ⟨hn, hm⟩
      · rfl
      · rw [appendDigitsBelow?, appendDigits?, Option.filter_some, Option.filter_some,
          if_neg (by simpa using hn), if_neg (by simpa using hm)]
  | cons c rest ih =>
      simp only [appendDigitsBelow?, appendDigits?]
      split
      · rfl
      · -- The number behind the digit is the same on both sides, or beyond the limit on both.
        rename_i d _
        apply ih
        have hgrow : m ≤ m * base + d := by
          have := Nat.le_mul_of_pos_right m hbase
          omega
        rcases h with rfl | ⟨hn, hm⟩
        · by_cases hlt : n < limit
          · exact Or.inl (if_pos hlt)
          · rw [if_neg hlt]
            exact Or.inr ⟨by omega, by omega⟩
        · rw [if_neg (Nat.not_lt.mpr hn)]
          exact Or.inr ⟨hn, by omega⟩

/-- Reading up to a limit loses nothing below it. -/
theorem ofDigitsBelow?_eq (limit : Nat) {base : Nat} (hbase : 0 < base) (digits : Text) :
    ofDigitsBelow? limit base digits = (ofDigits? base digits).filter (· < limit) := by
  cases digits with
  | nil => rfl
  | cons c rest => exact filter_appendDigitsBelow? limit hbase (c :: rest) (Or.inl rfl)

/-- A decimal number of no more than `bits` bits, which a single `+` may
    precede. -/
def unsigned? (bits : Nat) (t : Text) : Option Nat :=
  let digits := match t with
    | '+' :: rest => rest
    | _ => t
  ofDigitsBelow? (1 <<< bits) 10 digits

/-- The base of a numeral, and its digits. -/
def splitBase : Text → Nat × Text
  | '0' :: 'x' :: digits => (16, digits)
  | '0' :: 'X' :: digits => (16, digits)
  | digits => (10, digits)

/-- The number that a decimal or `0x` numeral denotes. There is no sign. -/
def numeral? (t : Text) : Option Nat :=
  ofDigits? (splitBase t).1 (splitBase t).2

/-- The number that a decimal or `0x` numeral denotes, if it lies below a
    limit. -/
def numeralBelow? (limit : Nat) (t : Text) : Option Nat :=
  ofDigitsBelow? limit (splitBase t).1 (splitBase t).2

theorem splitBase_pos (t : Text) : 0 < (splitBase t).1 := by
  unfold splitBase
  split <;> exact Nat.zero_lt_succ _

theorem numeralBelow?_eq (limit : Nat) (t : Text) :
    numeralBelow? limit t = (numeral? t).filter (· < limit) :=
  ofDigitsBelow?_eq limit (splitBase_pos t) (splitBase t).2

/-- A number in decimal, without leading zeros. -/
def decimal (n : Nat) : Text :=
  Nat.toDigits 10 n

/-- A number in upper case hexadecimal, without leading zeros. -/
def hex (n : Nat) : Text :=
  (Nat.toDigits 16 n).map Char.toUpper

/-- A number in hexadecimal with the marker `0x`, as the assembler reads it. -/
def hexNumeral (n : Nat) : Text :=
  '0' :: 'x' :: hex n

/-- A number in hexadecimal, with leading zeros up to the given width. -/
def paddedHex (width n : Nat) : Text :=
  (hex n).leftpad width '0'

end Text

end Chip8

import Chip8.Proofs.Notation.Grammar
import Chip8.Register

/-!
# Names of Byte Registers

A byte register has a name in two places. In a program it is an operand, and an
assembler reads it there. A debugger reads it when it is asked for a register. In
both places the name is `v` and a decimal number below sixteen, of any length, as
leading zeros are allowed.

The debugger takes one thing more. It leaves the number to a reader of plain
numbers, and this one passes over a plus sign in front of them. An assembler does
not accept signs, in registers as little as in any other number. So `v+5` is a
register for the one and a mistake for the other, and it is only such names on
which they do not agree.

## Main definitions

* `Register.byteNumber?`: The byte register that a debugger knows by a name.

## Theorems

* `unsigned?_eq_some_iff`: The plain numbers, with their sign.
* `ofName?_eq_some_v_iff`: The byte registers among the registers with names.
* `byteNumber?_eq_some_iff`: The names that a debugger knows.
* `named_iff_read`: Where debugger and assembler agree on a name.
-/

namespace Chip8

open Text

namespace Text

-- A sign is no digit.
theorem not_isDigits_plus (digits : Text) (n : Nat) : ¬IsDigits 10 ('+' :: digits) n := by
  have hnone : ofDigits? 10 ('+' :: digits) = none := rfl
  rw [← ofDigits?_eq_some_iff (by decide), hnone]
  exact (Option.some_ne_none n).symm

/-- A plain number has digits, and there may be a plus sign in front of them. -/
theorem unsigned?_eq_some_iff (bits : Nat) (t : Text) (n : Nat) :
    unsigned? bits t = some n ↔
      n < 2 ^ bits ∧ (IsDigits 10 t n ∨ ∃ digits, t = '+' :: digits ∧ IsDigits 10 digits n) := by
  have hread : ∀ digits : Text, ofDigitsBelow? (1 <<< bits) 10 digits = some n ↔
      n < 2 ^ bits ∧ IsDigits 10 digits n := fun digits => by
    rw [ofDigitsBelow?_eq _ (by decide), Option.filter_eq_some_iff,
      ofDigits?_eq_some_iff (by decide), decide_eq_true_iff, Nat.one_shiftLeft, and_comm]
  -- A text that starts with a sign is no row of digits, so the two forms do not meet.
  unfold unsigned?
  split
  · rename_i digits
    rw [hread, or_iff_right (not_isDigits_plus digits n)]
    simp only [List.cons.injEq, true_and, exists_eq_left']
  · rename_i hsign
    rw [hread, or_iff_left]
    rintro ⟨digits, rfl, _⟩
    exact hsign digits rfl

end Text

namespace Register

open Operands

/-- The number of the byte register with a name. Names of other registers have
    none. -/
def byteNumber? (name : Text) : Option UInt8 :=
  match ofName? name with
  | some (.v n) => some n.val.toUInt8
  | _ => none

theorem ofName?_eq_some_v_iff (name : Text) (n : Fin registerCount) :
    ofName? name = some (.v n) ↔
      ∃ digits, name = 'v' :: digits ∧ unsigned? 8 digits = some n.val := by
  have hnone : ∀ other : Text, other.head? ≠ some 'v' → name = other →
      ¬∃ digits, name = 'v' :: digits ∧ unsigned? 8 digits = some n.val := by
    rintro other hother rfl ⟨digits, rfl, _⟩
    exact hother rfl
  unfold ofName?
  split_ifs with hindex hpointer
  · refine iff_of_false nofun ?_
    rcases hindex with h | h
    · exact hnone _ (by decide) h
    · exact hnone _ (by decide) h
  · refine iff_of_false nofun ?_
    rcases hpointer with h | h
    · exact hnone _ (by decide) h
    · exact hnone _ (by decide) h
  · split
    · rename_i digits
      simp only [List.cons.injEq, true_and, exists_eq_left']
      cases unsigned? 8 digits with
      | none => exact iff_of_false nofun nofun
      | some k =>
          by_cases hk : k < registerCount
          · simp only [dif_pos hk, Option.some.injEq, v.injEq, Fin.ext_iff]
          · -- The number is too large for a register.
            simp only [dif_neg hk, Option.some.injEq]
            refine iff_of_false nofun ?_
            rintro rfl
            exact hk n.isLt
    · rename_i hother
      refine iff_of_false nofun ?_
      rintro ⟨digits, rfl, _⟩
      exact hother digits rfl

/-- A debugger knows a byte register by `v` and its number, with a sign or
    without. -/
theorem byteNumber?_eq_some_iff (name : Text) (x : UInt8) :
    byteNumber? name = some x ↔ ∃ digits, name = 'v' :: digits ∧ x.toNat < registerCount ∧
      (IsDigits 10 digits x.toNat ∨ ∃ rest, digits = '+' :: rest ∧ IsDigits 10 rest x.toNat) := by
  have hbyte : byteNumber? name = some x ↔
      ∃ n : Fin registerCount, n.val = x.toNat ∧ ofName? name = some (.v n) := by
    have hword : ∀ n : Fin registerCount, n.val.toUInt8 = x ↔ n.val = x.toNat := fun n => by
      rw [← UInt8.toNat_inj, Nat.toUInt8_eq,
        UInt8.toNat_ofNat_of_lt' (Nat.lt_trans n.isLt (by decide))]
    unfold byteNumber?
    split
    · rename_i n heq
      simp only [heq, Option.some.injEq, v.injEq, exists_eq_right', hword]
    · rename_i hother
      exact iff_of_false nofun fun ⟨n, _, h⟩ => hother n h
  rw [hbyte]
  constructor
  · rintro ⟨n, hn, h⟩
    rcases (ofName?_eq_some_v_iff name n).mp h with ⟨digits, hname, hdigits⟩
    rw [hn] at hdigits
    exact ⟨digits, hname, hn ▸ n.isLt, ((unsigned?_eq_some_iff 8 digits _).mp hdigits).2⟩
  · -- A number of a register has room in the eight bits that are read.
    rintro ⟨digits, hname, hlt, hdigits⟩
    refine ⟨⟨x.toNat, hlt⟩, rfl, (ofName?_eq_some_v_iff name _).mpr ⟨digits, hname, ?_⟩⟩
    exact (unsigned?_eq_some_iff 8 digits _).mpr ⟨x.toNat_lt, hdigits⟩

/-- The names that a debugger takes for a byte register are those that an assembler
    takes for it, and those that have a plus sign in front of their number besides.
    On any other name the two agree. -/
theorem named_iff_read (name : Text) :
    (∀ x, byteNumber? name = some x ↔ readRegister name = .ok x ∨
      ∃ digits, name = 'v' :: '+' :: digits ∧ readRegister ('v' :: digits) = .ok x) ∧
    ((∀ x, byteNumber? name = some x ↔ readRegister name = .ok x) ↔
      ¬∃ digits x, name = 'v' :: '+' :: digits ∧ readRegister ('v' :: digits) = .ok x) := by
  have hboth : ∀ x, byteNumber? name = some x ↔ readRegister name = .ok x ∨
      ∃ digits, name = 'v' :: '+' :: digits ∧ readRegister ('v' :: digits) = .ok x := by
    intro x
    have hread : ∀ digits, readRegister ('v' :: digits) = .ok x ↔
        x.toNat < registerCount ∧ IsDigits 10 digits x.toNat := fun digits => by
      rw [readRegister_eq_ok_iff, Field.Spells, Nat.lt_succ_iff]
      simp only [List.cons.injEq, true_and, exists_eq_left']
    rw [byteNumber?_eq_some_iff, readRegister_eq_ok_iff, Field.Spells, ← Nat.lt_succ_iff]
    constructor
    · rintro ⟨digits, hname, hlt, hdigits | ⟨rest, rfl, hrest⟩⟩
      · exact Or.inl ⟨hlt, digits, hname, hdigits⟩
      · exact Or.inr ⟨rest, hname, (hread rest).mpr ⟨hlt, hrest⟩⟩
    · rintro (⟨hlt, digits, hname, hdigits⟩ | ⟨rest, hname, hrest⟩)
      · exact ⟨digits, hname, hlt, Or.inl hdigits⟩
      · rcases (hread rest).mp hrest with ⟨hlt, hdigits⟩
        exact ⟨_, hname, hlt, Or.inr ⟨rest, rfl, hdigits⟩⟩
  refine ⟨hboth, ?_, ?_⟩
  · rintro hagree ⟨digits, x, rfl, hx⟩
    -- The assembler stops at the sign.
    have hsigned := (hagree x).mp ((hboth x).mpr (Or.inr ⟨digits, rfl, hx⟩))
    rcases (readRegister_eq_ok_iff _ x).mp hsigned with ⟨_, rest, heq, hrest⟩
    cases heq
    exact not_isDigits_plus digits _ hrest
  · intro hnone x
    rw [hboth x, or_iff_left]
    rintro ⟨digits, h⟩
    exact hnone ⟨digits, x, h⟩

/-- A name with a sign. -/
theorem named_signed_unread :
    ofName? "v+5".toList = some (.v 5) ∧
      readRegister "v+5".toList = .error (.invalidRegister "v+5".toList) := by
  decide

end Register

end Chip8

import Chip8.Operand.Reader
import Chip8.Proofs.Result
import Mathlib.Tactic.IntervalCases

/-!
# Operand Fields of a Word

A word holds fixed bits and operand fields side by side, and a layout says
where the border runs. This module shows that the two never touch: putting
fields into place and reading them back are inverse to each other, whatever
the fixed bits between them are.

The machine words that hold a field are wider than its place, and
`Operands.bits` cuts off what does not fit. Reading fields back can therefore
only work for operands that fit to begin with. `Operands.Fits` says so, and
both sources of operands respect it: a decoded field is masked, and a number
that is read from text is checked against the width of its field.

Everything here is a fact about single bits. The sixteen positions of a word
are looked at one by one, and at each of them both sides come down to the same
bit or to none.

## Main definitions

* `Operands.Fits`: Every field is small enough for its place.

## Theorems

* `nibble_and`, `address_and`: Masking does nothing to a field that fits.
* `fits_decode`: The fields of a word fit.
* `fits_of_read`: The fields that are read from text fit.
* `bits_decode`: The fields of a word, put back, are its open bits.
* `bits_and_mask`: Operand bits stay clear of the fixed bits.
* `decode_or_bits`: Fields that fit are read back, whatever the fixed bits.
-/

namespace Chip8

/-- A byte below sixteen is its own lower half. -/
theorem nibble_and {x : UInt8} (h : x < 16) : x &&& 0xF = x := by
  refine UInt8.toNat_inj.mp ?_
  rw [UInt8.toNat_and]
  exact Nat.and_two_pow_sub_one_of_lt_two_pow (n := 4) (UInt8.lt_iff_toNat_lt.mp h)

/-- An address of twelve bits survives being cut to twelve bits. -/
theorem address_and {a : UInt16} (h : a < 0x1000) : a &&& 0xFFF = a := by
  refine UInt16.toNat_inj.mp ?_
  rw [UInt16.toNat_and]
  exact Nat.and_two_pow_sub_one_of_lt_two_pow (n := 12) (UInt16.lt_iff_toNat_lt.mp h)

theorem nibble_lt (w : UInt16) : (w &&& 0xF).toUInt8 < 16 := by
  rw [UInt8.lt_iff_toNat_lt, UInt16.toNat_toUInt8, UInt16.toNat_and]
  have h : w.toNat &&& 15 ≤ 15 := Nat.and_le_right
  exact Nat.lt_of_le_of_lt (Nat.mod_le _ _) (Nat.lt_succ_of_le h)

-- A number keeps its bound when it is put into a byte.
theorem toUInt8_lt {value : Nat} (h : value < 16) : value.toUInt8 < 16 := by
  rw [UInt8.lt_iff_toNat_lt, Nat.toUInt8_eq, UInt8.toNat_ofNat']
  exact Nat.lt_of_le_of_lt (Nat.mod_le _ _) h

-- A number keeps its bound when it is put into a word.
theorem toUInt16_lt {value : Nat} (h : value < 0x1000) : value.toUInt16 < 0x1000 := by
  rw [UInt16.lt_iff_toNat_lt, Nat.toUInt16_eq, UInt16.toNat_ofNat']
  exact Nat.lt_of_le_of_lt (Nat.mod_le _ _) h

namespace Operands

/-- Every field is small enough for its place in the word. A byte `nn` always
    is, its place being eight bits wide. -/
def Fits : Operands → Prop
  | .bare => True
  | .address nnn => nnn < 0x1000
  | .registerByte x _ => x < 16
  | .registerPair x y => x < 16 ∧ y < 16
  | .register x => x < 16
  | .registerPairNibble x y n => x < 16 ∧ y < 16 ∧ n < 16

/-- Operand bits stay clear of the positions that their layout leaves to the
    instruction. -/
theorem bits_and_mask (o : Operands) : o.bits &&& o.layout.mask = 0 := by
  cases o <;> simp only [bits, layout, Layout.mask] <;>
    refine UInt16.eq_of_toBitVec_eq ?_ <;> ext i hi <;> interval_cases i <;> simp

/-- Fields that fit are read back from a word, whatever the fixed bits around
    them are. -/
theorem decode_or_bits {o : Operands} (fixed : UInt16) (hfits : o.Fits) :
    o.layout.decode (fixed &&& o.layout.mask ||| o.bits) = o := by
  cases o with
  | bare => rfl
  | address nnn =>
      -- Bit by bit: a bit of the word is from the mask or from the field, never from both.
      simp only [layout, Layout.decode, bits, Layout.mask, Fits] at *
      rw [← address_and hfits]
      congr 1
      refine UInt16.eq_of_toBitVec_eq ?_
      ext i hi
      interval_cases i <;> simp
  | registerByte x nn =>
      simp only [layout, Layout.decode, bits, Layout.mask, Fits] at *
      rw [← nibble_and hfits]
      congr 1 <;> refine UInt8.eq_of_toBitVec_eq ?_ <;> ext i hi <;> interval_cases i <;> simp
  | registerPair x y =>
      simp only [layout, Layout.decode, bits, Layout.mask, Fits] at *
      rw [← nibble_and hfits.1, ← nibble_and hfits.2]
      congr 1 <;> refine UInt8.eq_of_toBitVec_eq ?_ <;> ext i hi <;> interval_cases i <;> simp
  | register x =>
      simp only [layout, Layout.decode, bits, Layout.mask, Fits] at *
      rw [← nibble_and hfits]
      congr 1
      refine UInt8.eq_of_toBitVec_eq ?_
      ext i hi
      interval_cases i <;> simp
  | registerPairNibble x y n =>
      simp only [layout, Layout.decode, bits, Layout.mask, Fits] at *
      rw [← nibble_and hfits.1, ← nibble_and hfits.2.1, ← nibble_and hfits.2.2]
      congr 1 <;> refine UInt8.eq_of_toBitVec_eq ?_ <;> ext i hi <;> interval_cases i <;> simp

-- A number that is read for a field of some width has no more than that many
-- bits.
theorem lt_of_literal_eq_ok {bits value : Nat} {token : Text}
    (h : literal bits token = .ok value) : value < 2 ^ bits := by
  unfold literal at h
  split at h
  · split at h
    · rename_i hwidth
      cases h
      rwa [Nat.shiftRight_eq_div_pow, Nat.div_eq_zero_iff_lt (Nat.two_pow_pos bits)] at hwidth
    · exact nomatch h
  · exact nomatch h

-- A register that is read from text is one of the sixteen.
theorem lt_of_readRegister_eq_ok {token : Text} {x : UInt8} (h : readRegister token = .ok x) :
    x < 16 := by
  unfold readRegister at h
  split at h
  · split at h
    · split at h
      · rename_i value _ hlt
        cases h
        exact toUInt8_lt hlt
      · exact nomatch h
    · exact nomatch h
  · exact nomatch h

end Operands

namespace Layout

open Operands

/-- The fields of a word fit: each of them is masked as it is read. -/
theorem fits_decode (l : Layout) (w : UInt16) : (l.decode w).Fits := by
  cases l <;> simp only [decode, Fits, nibble_lt, and_self]
  rw [UInt16.lt_iff_toNat_lt, UInt16.toNat_and]
  exact Nat.lt_succ_of_le Nat.and_le_right

/-- The fields of a word, put back into place, are the bits that its layout
    leaves open. -/
theorem bits_decode (l : Layout) (w : UInt16) : (l.decode w).bits = w &&& ~~~l.mask := by
  cases l <;> simp only [decode, bits, mask] <;>
    refine UInt16.eq_of_toBitVec_eq ?_ <;> ext i hi <;>
    simp [-UInt16.toUInt16_toUInt8] <;> interval_cases i <;> simp

/-- The fields that a layout reads from text fit: each of them is checked as it
    is read. -/
theorem fits_of_read {l : Layout} {tokens : List Text} {o : Operands}
    (h : l.read tokens = .ok o) : o.Fits := by
  unfold read at h
  split at h
  · cases h
    trivial
  · rcases exists_of_bind_eq_ok h with ⟨nnn, hnnn, h⟩
    cases h
    exact toUInt16_lt (lt_of_literal_eq_ok hnnn)
  · rcases exists_of_bind_eq_ok h with ⟨x, hx, h⟩
    rcases exists_of_bind_eq_ok h with ⟨nn, _, h⟩
    cases h
    exact lt_of_readRegister_eq_ok hx
  · rcases exists_of_bind_eq_ok h with ⟨x, hx, h⟩
    rcases exists_of_bind_eq_ok h with ⟨y, hy, h⟩
    cases h
    exact ⟨lt_of_readRegister_eq_ok hx, lt_of_readRegister_eq_ok hy⟩
  · rcases exists_of_bind_eq_ok h with ⟨x, hx, h⟩
    cases h
    exact lt_of_readRegister_eq_ok hx
  · rcases exists_of_bind_eq_ok h with ⟨x, hx, h⟩
    rcases exists_of_bind_eq_ok h with ⟨y, hy, h⟩
    rcases exists_of_bind_eq_ok h with ⟨n, hn, h⟩
    cases h
    exact ⟨lt_of_readRegister_eq_ok hx, lt_of_readRegister_eq_ok hy,
      toUInt8_lt (lt_of_literal_eq_ok hn)⟩
  · exact nomatch h

end Layout

end Chip8

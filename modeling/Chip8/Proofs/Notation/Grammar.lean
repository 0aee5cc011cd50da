import Chip8.Assembly.Source
import Chip8.Proofs.Encoding.Words
import Mathlib.Data.List.Forall2
import Mathlib.Data.Nat.Digits.Defs
import Mathlib.Tactic.Ring

/-!
# The Grammar of Operands

Which words an assembler takes for operands, said without the readers that
decide it. A word spells a register or a number of some width, and it does so by
its digits alone: the value is the one that the digits denote in positional
notation, however many there are. The word is accepted if that value has room in
its field, and in no other case.

The readers have a limit of their own, as they do not follow a number beyond 32
bits. No field is wide enough for the limit to matter. What lies beyond it would
be refused for its width, and leading zeros do not count towards it.

Nothing is lost on the way into the word of an instruction either. What is
decoded from there are the values that were spelled.

## Main definitions

* `Text.IsDigits`, `Text.IsNumeral`: Digits, and numerals in either base, with
  the number that they denote.
* `Field`, `Layout.fields`: What the operands of a layout are.
* `Field.Spells`: The words for a value of a field.
* `Operands.values`: Operands as numbers, field by field.

## Theorems

* `digit?_eq_some_iff`, `ofDigits?_eq_some_iff`, `numeral?_eq_some_iff`: What
  the readers of numerals accept.
* `number_of_isNumeral`, `readRegister_of_isDigits`: What becomes of a word that
  denotes a number.
* `literal_eq_ok_iff`, `readRegister_eq_ok_iff`, `readByte_eq_ok_iff`: What is
  accepted for a single field.
* `spells_iff_of_read`: The operands that are read are the ones that are spelled.
* `mapM_readByte_eq_ok_iff`: The bytes of a line of data.
* `accepted_iff_spelled`: Operands and data are accepted if they are spelled,
  with the values that they spell.
-/

namespace Chip8

/-! ## Numerals -/

namespace Text

/-- A character is a digit of a base, of either case, and has this value. -/
def IsDigit (base : Nat) (c : Char) (d : Nat) : Prop :=
  d < base ∧ (c = Nat.digitChar d ∨ c = (Nat.digitChar d).toUpper)

/-- A text is a row of digits, at least one, and denotes this number in
    positional notation. -/
def IsDigits (base : Nat) (t : Text) (n : Nat) : Prop :=
  t ≠ [] ∧ ∃ ds, List.Forall₂ (IsDigit base) t ds ∧ Nat.ofDigits base ds.reverse = n

/-- A text is a row of decimal digits, or one of hexadecimal digits behind a
    marker, and denotes this number. -/
def IsNumeral (t : Text) (n : Nat) : Prop :=
  IsDigits 10 t n ∨
    ∃ digits, (t = '0' :: 'x' :: digits ∨ t = '0' :: 'X' :: digits) ∧ IsDigits 16 digits n

theorem hexDigit?_eq_some_iff (c : Char) (d : Nat) : hexDigit? c = some d ↔ IsDigit 16 c d := by
  constructor
  · intro h
    unfold hexDigit? at h
    simp only [Char.le_def, UInt32.le_iff_toNat_le] at h
    change (if 48 ≤ c.toNat ∧ c.toNat ≤ 57 then some (c.toNat - 48)
      else if 97 ≤ c.toNat ∧ c.toNat ≤ 102 then some (c.toNat - 97 + 10)
      else if 65 ≤ c.toNat ∧ c.toNat ≤ 70 then some (c.toNat - 65 + 10) else none) = some d at h
    have hvalue : (48 ≤ c.toNat ∧ c.toNat ≤ 57) ∧ c.toNat - 48 = d ∨
        (97 ≤ c.toNat ∧ c.toNat ≤ 102) ∧ c.toNat - 97 + 10 = d ∨
        (65 ≤ c.toNat ∧ c.toNat ≤ 70) ∧ c.toNat - 65 + 10 = d := by
      split_ifs at h with hdecimal hlower hupper
      · exact Or.inl ⟨hdecimal, Option.some.inj h⟩
      · exact Or.inr (Or.inl ⟨hlower, Option.some.inj h⟩)
      · exact Or.inr (Or.inr ⟨hupper, Option.some.inj h⟩)
    -- There are 22 characters left to look at.
    rw [IsDigit, ← Char.ofNat_toNat c]
    generalize c.toNat = k at hvalue ⊢
    rcases hvalue with ⟨⟨_, _⟩, rfl⟩ | ⟨⟨_, _⟩, rfl⟩ | ⟨⟨_, _⟩, rfl⟩ <;> interval_cases k <;> decide
  · have hdigit : ∀ d < 16, hexDigit? (Nat.digitChar d) = some d ∧
        hexDigit? (Nat.digitChar d).toUpper = some d := by decide
    rintro ⟨hd, rfl | rfl⟩
    · exact (hdigit d hd).1
    · exact (hdigit d hd).2

section

variable {base : Nat} (hbase : base ≤ 16)

include hbase

theorem digit?_eq_some_iff (c : Char) (d : Nat) : digit? base c = some d ↔ IsDigit base c d := by
  rw [digit?, Option.filter_eq_some_iff, hexDigit?_eq_some_iff, decide_eq_true_iff]
  constructor
  · rintro ⟨⟨_, hc⟩, hd⟩
    exact ⟨hd, hc⟩
  · rintro ⟨hd, hc⟩
    exact ⟨⟨Nat.lt_of_lt_of_le hd hbase, hc⟩, hd⟩

-- Digits behind a number move it up by as many places.
theorem appendDigits?_eq_some_iff (n : Nat) (t : Text) (m : Nat) :
    appendDigits? base n t = some m ↔
      ∃ ds, List.Forall₂ (IsDigit base) t ds ∧
        Nat.ofDigits base ds.reverse + base ^ ds.length * n = m := by
  induction t generalizing n with
  | nil =>
      simp only [appendDigits?, Option.some.injEq, List.forall₂_nil_left_iff, exists_eq_left,
        List.reverse_nil, Nat.ofDigits_nil, List.length_nil, pow_zero, one_mul, zero_add]
  | cons c t ih =>
      -- A digit in front of others is worth as many places as there are others.
      have hplace : ∀ d ds, Nat.ofDigits base (d :: ds).reverse + base ^ (d :: ds).length * n
          = Nat.ofDigits base ds.reverse + base ^ ds.length * (n * base + d) := by
        intro d ds
        rw [List.reverse_cons, Nat.ofDigits_append, Nat.ofDigits_singleton, List.length_reverse,
          List.length_cons]
        ring
      rw [appendDigits?]
      constructor
      · intro h
        cases hc : digit? base c with
        | none =>
            rw [hc] at h
            exact absurd h (Option.some_ne_none m).symm
        | some d =>
            rw [hc] at h
            rcases (ih (n * base + d)).mp h with ⟨ds, hds, hm⟩
            exact ⟨d :: ds, .cons ((digit?_eq_some_iff hbase c d).mp hc) hds,
              (hplace d ds).trans hm⟩
      · rintro ⟨ds, hds, hm⟩
        cases hds with
        | @cons _ d _ ds hc hds =>
            rw [(digit?_eq_some_iff hbase c d).mpr hc]
            exact (ih (n * base + d)).mpr ⟨ds, hds, (hplace d ds).symm.trans hm⟩

/-- A row of digits is read as the number that it denotes, and nothing else is
    read. -/
theorem ofDigits?_eq_some_iff (t : Text) (n : Nat) :
    ofDigits? base t = some n ↔ IsDigits base t n := by
  cases t with
  | nil => exact iff_of_false nofun fun h => h.1 rfl
  | cons c t =>
      have hread : ofDigits? base (c :: t) = appendDigits? base 0 (c :: t) := rfl
      rw [hread, appendDigits?_eq_some_iff hbase, IsDigits, and_iff_right (List.cons_ne_nil c t)]
      simp only [mul_zero, add_zero]

end

-- The marker of hexadecimal numerals is not made of digits.
theorem not_isDigits_marker {c : Char} (hc : c = 'x' ∨ c = 'X') (digits : Text) (n : Nat) :
    ¬IsDigits 10 ('0' :: c :: digits) n := by
  have hnone : digit? 10 c = none := by
    rcases hc with rfl | rfl <;> decide
  have hread : ofDigits? 10 ('0' :: c :: digits) = none := by
    change appendDigits? 10 0 (c :: digits) = none
    rw [appendDigits?, hnone]
  rw [← ofDigits?_eq_some_iff (by decide), hread]
  exact (Option.some_ne_none n).symm

/-- A numeral is read as the number that it denotes, and nothing else is read. -/
theorem numeral?_eq_some_iff (t : Text) (n : Nat) : numeral? t = some n ↔ IsNumeral t n := by
  have hten : 10 ≤ 16 := by decide
  unfold numeral? splitBase
  -- With a marker in front, the decimal reading is ruled out, and without one the other.
  split
  · rename_i digits
    rw [ofDigits?_eq_some_iff le_rfl, IsNumeral,
      or_iff_right (not_isDigits_marker (Or.inl rfl) digits n)]
    simp
  · rename_i digits
    rw [ofDigits?_eq_some_iff le_rfl, IsNumeral,
      or_iff_right (not_isDigits_marker (Or.inr rfl) digits n)]
    simp
  · rename_i hlower hupper
    rw [ofDigits?_eq_some_iff hten, IsNumeral]
    refine (or_iff_left ?_).symm
    rintro ⟨digits, rfl | rfl, _⟩
    · exact hlower digits rfl
    · exact hupper digits rfl

end Text

/-! ## Fields -/

/-- What an operand can be. -/
inductive Field where
  /-- One of the registers. -/
  | register
  /-- A number of this many bits. -/
  | number (bits : Nat)
  deriving DecidableEq, Repr

/-- The words for a value of a field: `v` and a decimal number for a register, a
    numeral for a number. Every value has many. -/
def Field.Spells : Field → Text → Nat → Prop
  | .register, token, n => n ≤ 15 ∧ ∃ digits, token = 'v' :: digits ∧ Text.IsDigits 10 digits n
  | .number bits, token, n => n < 2 ^ bits ∧ Text.IsNumeral token n

-- A word spells one value at most.
theorem Field.rightUnique_spells (f : Field) : Relator.RightUnique f.Spells := by
  intro token n m hn hm
  cases f with
  | register =>
      rcases hn with ⟨_, digits, rfl, hn⟩
      rcases hm with ⟨_, _, heq, hm⟩
      cases heq
      -- Both values are what the reader finds.
      rw [← Text.ofDigits?_eq_some_iff (by decide)] at hn hm
      exact Option.some.inj (hn.symm.trans hm)
  | number bits =>
      have hn := (Text.numeral?_eq_some_iff token n).mpr hn.2
      have hm := (Text.numeral?_eq_some_iff token m).mpr hm.2
      exact Option.some.inj (hn.symm.trans hm)

/-- The operands that a layout asks for. -/
def Layout.fields : Layout → List Field
  | .bare => []
  | .address => [.number 12]
  | .registerByte => [.register, .number 8]
  | .registerPair => [.register, .register]
  | .register => [.register]
  | .registerPairNibble => [.register, .register, .number 4]

/-- Operands as numbers, in the order of their fields. -/
def Operands.values : Operands → List Nat
  | .bare => []
  | .address nnn => [nnn.toNat]
  | .registerByte x nn => [x.toNat, nn.toNat]
  | .registerPair x y => [x.toNat, y.toNat]
  | .register x => [x.toNat]
  | .registerPairNibble x y n => [x.toNat, y.toNat, n.toNat]

namespace Operands

-- A number has room in as many bits as it takes to shift all of it out.
theorem shiftRight_eq_zero_iff (v bits : Nat) : v >>> bits = 0 ↔ v < 2 ^ bits := by
  rw [Nat.shiftRight_eq_div_pow, Nat.div_eq_zero_iff_lt (Nat.two_pow_pos bits)]

/-- A numeral is a number if it has room in 32 bits. -/
theorem number_of_isNumeral {token : Text} {v : Nat} (h : Text.IsNumeral token v) :
    number token = if v < numberLimit then .ok v else .error (.invalidLiteral token) := by
  rw [number, Text.numeralBelow?_eq, (Text.numeral?_eq_some_iff token v).mpr h,
    Option.filter_some]
  by_cases hv : v < numberLimit
  · simp only [hv, decide_true, if_true]
  · simp only [hv, decide_false, Bool.false_eq_true, if_false]

theorem number_eq_ok_iff (token : Text) (n : Nat) :
    number token = .ok n ↔ n < numberLimit ∧ Text.IsNumeral token n := by
  have hread : Text.numeralBelow? numberLimit token = some n ↔
      n < numberLimit ∧ Text.IsNumeral token n := by
    rw [Text.numeralBelow?_eq, Option.filter_eq_some_iff, Text.numeral?_eq_some_iff,
      decide_eq_true_iff, and_comm]
  rw [← hread, number]
  cases Text.numeralBelow? numberLimit token with
  | none => exact iff_of_false nofun nofun
  | some m => rw [Except.ok.injEq, Option.some.injEq]

/-- A number for a field that is no wider than the numbers that are read. -/
theorem literal_eq_ok_iff {bits : Nat} (hbits : bits ≤ 32) (token : Text) (n : Nat) :
    literal bits token = .ok n ↔ (Field.number bits).Spells token n := by
  -- What has room in the field is not beyond the limit of the reader.
  have hlimit : n < 2 ^ bits → n < numberLimit := fun h =>
    Nat.lt_of_lt_of_le h (Nat.pow_le_pow_right (by decide) hbits)
  have hspells : (Field.number bits).Spells token n ↔ number token = .ok n ∧ n < 2 ^ bits := by
    rw [Field.Spells, number_eq_ok_iff]
    exact ⟨fun h => ⟨⟨hlimit h.1, h.2⟩, h.1⟩, fun h => ⟨h.2, h.1.2⟩⟩
  rw [hspells, literal]
  cases number token with
  | error e => exact iff_of_false nofun fun h => nomatch h.1
  | ok m =>
      simp only [shiftRight_eq_zero_iff, Except.ok.injEq]
      split
      · rename_i hm
        rw [Except.ok.injEq]
        exact ⟨fun h => ⟨h, h ▸ hm⟩, fun h => h.1⟩
      · rename_i hm
        refine iff_of_false nofun ?_
        rintro ⟨rfl, h⟩
        exact hm h

/-- The number of a register is below the limit of registers, or below that of
    numbers, or beyond both. -/
theorem readRegister_of_isDigits {digits : Text} {v : Nat} (h : Text.IsDigits 10 digits v) :
    readRegister ('v' :: digits) =
      if v < numberLimit then
        if v < registerCount then .ok v.toUInt8 else .error (.overflow v 4)
      else .error (.invalidRegister ('v' :: digits)) := by
  rw [readRegister, Text.ofDigitsBelow?_eq _ (by decide),
    (Text.ofDigits?_eq_some_iff (by decide) digits v).mpr h, Option.filter_some]
  by_cases hv : v < numberLimit
  · simp only [hv, decide_true, if_true]
  · simp only [hv, decide_false, Bool.false_eq_true, if_false]

theorem readRegister_eq_ok_iff (token : Text) (x : UInt8) :
    readRegister token = .ok x ↔ Field.register.Spells token x.toNat := by
  constructor
  · intro h
    unfold readRegister at h
    split at h
    · rename_i digits
      split at h
      · rename_i value hvalue
        rw [Text.ofDigitsBelow?_eq _ (by decide), Option.filter_eq_some_iff,
          Text.ofDigits?_eq_some_iff (by decide)] at hvalue
        split at h
        · rename_i hlt
          cases h
          -- A number of a register is not changed by being made a byte.
          have hbyte : value.toUInt8.toNat = value :=
            UInt8.toNat_ofNat_of_lt' (Nat.lt_trans hlt (by decide))
          rw [hbyte]
          exact ⟨Nat.le_of_lt_succ hlt, digits, rfl, hvalue.1⟩
        · exact nomatch h
      · exact nomatch h
    · exact nomatch h
  · rintro ⟨hle, digits, rfl, hdigits⟩
    have hlt : x.toNat < registerCount := Nat.lt_succ_of_le hle
    rw [readRegister_of_isDigits hdigits, if_pos (Nat.lt_trans hlt (by decide)), if_pos hlt,
      Nat.toUInt8_eq, UInt8.ofNat_toNat]

theorem readRegister_of_spells {token : Text} {n : Nat} (h : Field.register.Spells token n) :
    readRegister token = .ok n.toUInt8 := by
  have hlt : n < 2 ^ 8 := Nat.lt_of_le_of_lt h.1 (by decide)
  rwa [readRegister_eq_ok_iff, Nat.toUInt8_eq, UInt8.toNat_ofNat_of_lt' hlt]

-- Numbers that have room in a machine word are not changed by it.
theorem spells_toUInt8 {bits : Nat} (hbits : bits ≤ 8) {token : Text} {n : Nat}
    (h : literal bits token = .ok n) : (Field.number bits).Spells token n.toUInt8.toNat := by
  have hspells := (literal_eq_ok_iff (Nat.le_trans hbits (by decide)) token n).mp h
  have hlt : n < 2 ^ 8 := Nat.lt_of_lt_of_le hspells.1 (Nat.pow_le_pow_right (by decide) hbits)
  rwa [Nat.toUInt8_eq, UInt8.toNat_ofNat_of_lt' hlt]

theorem spells_toUInt16 {bits : Nat} (hbits : bits ≤ 16) {token : Text} {n : Nat}
    (h : literal bits token = .ok n) : (Field.number bits).Spells token n.toUInt16.toNat := by
  have hspells := (literal_eq_ok_iff (Nat.le_trans hbits (by decide)) token n).mp h
  have hlt : n < 2 ^ 16 := Nat.lt_of_lt_of_le hspells.1 (Nat.pow_le_pow_right (by decide) hbits)
  rwa [Nat.toUInt16_eq, UInt16.toNat_ofNat_of_lt' hlt]

end Operands

/-! ## All operands -/

namespace Layout

open Operands

/-- Words spell values for the operands of a layout, each word a value of its own
    field. -/
def Spells (l : Layout) (tokens : List Text) (values : List Nat) : Prop :=
  tokens.length = l.arity ∧
    List.Forall₂ (fun p n => p.1.Spells p.2 n) (l.fields.zip tokens) values

theorem spells_of_read {l : Layout} {tokens : List Text} {o : Operands}
    (h : l.read tokens = .ok o) : l.Spells tokens o.values := by
  unfold read at h
  split at h
  · cases h
    exact ⟨rfl, .nil⟩
  · rcases exists_of_bind_eq_ok h with ⟨nnn, hnnn, h⟩
    cases h
    exact ⟨rfl, .cons (spells_toUInt16 (by decide) hnnn) .nil⟩
  · rcases exists_of_bind_eq_ok h with ⟨x, hx, h⟩
    rcases exists_of_bind_eq_ok h with ⟨nn, hnn, h⟩
    cases h
    exact ⟨rfl, .cons ((readRegister_eq_ok_iff _ x).mp hx)
      (.cons (spells_toUInt8 (by decide) hnn) .nil)⟩
  · rcases exists_of_bind_eq_ok h with ⟨x, hx, h⟩
    rcases exists_of_bind_eq_ok h with ⟨y, hy, h⟩
    cases h
    exact ⟨rfl, .cons ((readRegister_eq_ok_iff _ x).mp hx)
      (.cons ((readRegister_eq_ok_iff _ y).mp hy) .nil)⟩
  · rcases exists_of_bind_eq_ok h with ⟨x, hx, h⟩
    cases h
    exact ⟨rfl, .cons ((readRegister_eq_ok_iff _ x).mp hx) .nil⟩
  · rcases exists_of_bind_eq_ok h with ⟨x, hx, h⟩
    rcases exists_of_bind_eq_ok h with ⟨y, hy, h⟩
    rcases exists_of_bind_eq_ok h with ⟨n, hn, h⟩
    cases h
    exact ⟨rfl, .cons ((readRegister_eq_ok_iff _ x).mp hx)
      (.cons ((readRegister_eq_ok_iff _ y).mp hy) (.cons (spells_toUInt8 (by decide) hn) .nil))⟩
  · exact nomatch h

theorem exists_read_of_spells {l : Layout} {tokens : List Text} {values : List Nat}
    (h : l.Spells tokens values) : ∃ o, l.read tokens = .ok o := by
  rcases h with ⟨hcount, hall⟩
  -- The number of words is that of the fields, and each word is read for its own.
  cases l with
  | bare =>
      rw [List.length_eq_zero_iff.mp hcount]
      exact ⟨_, rfl⟩
  | address =>
      rcases List.length_eq_one_iff.mp hcount with ⟨a, rfl⟩
      rcases hall with _ | ⟨ha, _⟩
      rw [read, (literal_eq_ok_iff (by decide) a _).mpr ha]
      exact ⟨_, rfl⟩
  | registerByte =>
      rcases List.length_eq_two.mp hcount with ⟨a, b, rfl⟩
      rcases hall with _ | ⟨ha, _ | ⟨hb, _⟩⟩
      rw [read, readRegister_of_spells ha, (literal_eq_ok_iff (by decide) b _).mpr hb]
      exact ⟨_, rfl⟩
  | registerPair =>
      rcases List.length_eq_two.mp hcount with ⟨a, b, rfl⟩
      rcases hall with _ | ⟨ha, _ | ⟨hb, _⟩⟩
      rw [read, readRegister_of_spells ha, readRegister_of_spells hb]
      exact ⟨_, rfl⟩
  | register =>
      rcases List.length_eq_one_iff.mp hcount with ⟨a, rfl⟩
      rcases hall with _ | ⟨ha, _⟩
      rw [read, readRegister_of_spells ha]
      exact ⟨_, rfl⟩
  | registerPairNibble =>
      rcases List.length_eq_three.mp hcount with ⟨a, b, c, rfl⟩
      rcases hall with _ | ⟨ha, _ | ⟨hb, _ | ⟨hc, _⟩⟩⟩
      rw [read, readRegister_of_spells ha, readRegister_of_spells hb,
        (literal_eq_ok_iff (by decide) c _).mpr hc]
      exact ⟨_, rfl⟩

/-- The operands that are read are the values that the words spell, and they are
    the only ones. -/
theorem spells_iff_of_read {l : Layout} {tokens : List Text} {o : Operands}
    (h : l.read tokens = .ok o) (values : List Nat) :
    l.Spells tokens values ↔ values = o.values := by
  constructor
  · intro hspells
    exact List.right_unique_forall₂' (fun p _ _ hn hm => p.1.rightUnique_spells hn hm)
      hspells.2 (spells_of_read h).2
  · rintro rfl
    exact spells_of_read h

end Layout

/-! ## Data -/

namespace Statement

theorem readByte_eq_ok_iff (token : Text) (b : UInt8) :
    readByte token = .ok b ↔ (Field.number 8).Spells token b.toNat := by
  rw [← Operands.literal_eq_ok_iff (by decide), readByte, Operands.literal]
  cases Operands.number token with
  | error e => exact iff_of_false nofun nofun
  | ok n =>
      have hwidth : n >>> 8 = 0 ↔ n < 256 := Operands.shiftRight_eq_zero_iff n 8
      simp only [hwidth]
      by_cases hn : n < 256
      · simp only [if_pos hn, Except.ok.injEq, Nat.toUInt8_eq, ← UInt8.toNat_inj,
          UInt8.toNat_ofNat_of_lt' hn]
      · simp only [if_neg hn]
        exact iff_of_false nofun nofun

-- All bytes of a line are read if each of them is.
theorem mapM_readByte_eq_ok_iff (tokens : List Text) (bytes : List UInt8) :
    tokens.mapM readByte = .ok bytes ↔
      List.Forall₂ (Field.number 8).Spells tokens (bytes.map UInt8.toNat) := by
  induction tokens generalizing bytes with
  | nil =>
      rw [List.mapM_nil, List.forall₂_nil_left_iff, List.map_eq_nil_iff]
      exact ⟨fun h => (Except.ok.inj h).symm, fun h => congrArg Except.ok h.symm⟩
  | cons token tokens ih =>
      rw [List.mapM_cons]
      constructor
      · intro h
        rcases exists_of_bind_eq_ok h with ⟨b, hb, h⟩
        rcases exists_of_bind_eq_ok h with ⟨rest, hrest, h⟩
        cases h
        exact .cons ((readByte_eq_ok_iff token b).mp hb) ((ih rest).mp hrest)
      · intro h
        cases bytes with
        | nil => exact nomatch h
        | cons b bytes =>
            rcases h with _ | ⟨hb, hbytes⟩
            rw [(readByte_eq_ok_iff token b).mpr hb, (ih bytes).mpr hbytes]
            rfl

-- What is spelled for bytes are bytes.
theorem exists_bytes_of_spells {tokens : List Text} {values : List Nat}
    (h : List.Forall₂ (Field.number 8).Spells tokens values) :
    ∃ bytes : List UInt8, values = bytes.map UInt8.toNat := by
  induction h with
  | nil => exact ⟨[], rfl⟩
  | @cons token n tokens values hn _ ih =>
      rcases ih with ⟨bytes, rfl⟩
      refine ⟨n.toUInt8 :: bytes, ?_⟩
      rw [List.map_cons, Nat.toUInt8_eq, UInt8.toNat_ofNat_of_lt' hn.1]

theorem read_data_eq {line : Text} {tokens : List Text}
    (hline : Text.tokens line = "db".toList :: tokens) :
    read line = (tokens.mapM readByte).map fun bytes => some (.data bytes) := by
  rw [read, hline]
  change ((tokens.mapM readByte).map Statement.data).map some = _
  cases tokens.mapM readByte <;> rfl

/-- Operands are accepted if and only if they are spelled as the layout asks for,
    and the word of the instruction decodes to the values that are spelled. A
    line of data is accepted if and only if its words spell bytes, and it
    produces the bytes that are spelled. -/
theorem accepted_iff_spelled :
    (∀ (op : Opcode) (tokens : List Text),
      ((∃ o, op.layout.read tokens = .ok o) ↔ ∃ values, op.layout.Spells tokens values) ∧
      ∀ o, ∀ h : op.layout.read tokens = .ok o,
        op.layout.decode (Instruction.word ⟨op, o, Layout.layout_of_read_eq_ok h⟩) = o ∧
        ∀ values, op.layout.Spells tokens values ↔ values = o.values) ∧
    ∀ (line : Text) (tokens : List Text), Text.tokens line = "db".toList :: tokens →
      ((∃ found, read line = .ok found) ↔
        ∃ values, List.Forall₂ (Field.number 8).Spells tokens values) ∧
      ∀ found, read line = .ok found → ∃ s : Statement, found = some s ∧
        ∀ values, List.Forall₂ (Field.number 8).Spells tokens values ↔
          values = s.bytes.map UInt8.toNat := by
  refine ⟨fun op tokens => ⟨⟨?_, ?_⟩, ?_⟩, fun line tokens hline => ?_⟩
  · rintro ⟨o, h⟩
    exact ⟨o.values, Layout.spells_of_read h⟩
  · rintro ⟨values, h⟩
    exact Layout.exists_read_of_spells h
  · intro o h
    exact ⟨Instruction.decode_word (i := ⟨op, o, _⟩) (Layout.fits_of_read h),
      Layout.spells_iff_of_read h⟩
  · -- A line of data is read word by word, and what is spelled for a byte has room in one.
    rw [read_data_eq hline]
    refine ⟨⟨?_, ?_⟩, ?_⟩
    · rintro ⟨found, h⟩
      rcases exists_of_map_eq_ok h with ⟨bytes, hbytes, _⟩
      exact ⟨_, (mapM_readByte_eq_ok_iff tokens bytes).mp hbytes⟩
    · rintro ⟨values, h⟩
      rcases exists_bytes_of_spells h with ⟨bytes, rfl⟩
      rw [(mapM_readByte_eq_ok_iff tokens bytes).mpr h]
      exact ⟨_, rfl⟩
    · intro found h
      rcases exists_of_map_eq_ok h with ⟨bytes, hbytes, rfl⟩
      have hspells := (mapM_readByte_eq_ok_iff tokens bytes).mp hbytes
      refine ⟨.data bytes, rfl, fun values => ⟨fun h => ?_, ?_⟩⟩
      · exact List.right_unique_forall₂' (Field.number 8).rightUnique_spells h hspells
      · rintro rfl
        exact hspells

/-- Leading zeros and either marker are accepted, and what they spell is found in
    the word and in the bytes. -/
theorem accepted_leading_zeros :
    Opcode.draw.layout.Spells ["v007".toList, "v15".toList, "0X0f".toList] [7, 15, 15] ∧
      Opcode.draw.layout.decode 0xD7FF = .registerPairNibble 7 15 15 ∧
      read "db 000255, 0X0fF".toList = .ok (some (.data [255, 255])) ∧
      List.Forall₂ (Field.number 8).Spells ["000255".toList, "0X0fF".toList] [255, 255] := by
  have hoperands : Opcode.draw.layout.read ["v007".toList, "v15".toList, "0X0f".toList]
      = .ok (.registerPairNibble 7 15 15) := rfl
  have hread : read "db 000255, 0X0fF".toList = .ok (some (.data [255, 255])) := rfl
  have hbits : (⟨.draw, .registerPairNibble 7 15 15, rfl⟩ : Instruction).word = 0xD7FF := by decide
  rcases (accepted_iff_spelled.1 .draw _).2 _ hoperands with ⟨hword, hspells⟩
  rw [hbits] at hword
  rcases (accepted_iff_spelled.2 "db 000255, 0X0fF".toList ["000255".toList, "0X0fF".toList]
    (by decide)).2 _ hread with ⟨s, hs, hbytes⟩
  cases hs
  exact ⟨(hspells _).mpr rfl, hword, hread, (hbytes _).mpr rfl⟩

end Statement

end Chip8

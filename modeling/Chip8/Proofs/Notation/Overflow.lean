import Chip8.Proofs.Source.FirstFault

/-!
# Numbers without Room

A word may have the shape of a register or of a number and denote a value that is
too large for its field. Such a word is refused, and the error is meant to say that
the value overflows the field, not that the word is no register or no number.

It does so for values of at most 32 bits, however long the word is that denotes
them. Larger values are not followed by the readers, and what they report is the
other error: that the word is no register, or no number, or no byte. So the kind of
error does not depend on the field, and not on the number of digits either, but on
the value and the limit of the readers alone.

## Main definitions

* `Field.bits`: The width of a field.
* `Field.Denotes`: The words of the shape that a field asks for.
* `Field.mistake`: The error for words of any other shape.
* `Field.fault?`: What is wrong with a word.

## Theorems

* `fault?_of_denotes`, `error?_readByte`: What is wrong with a word of the right
  shape.
* `error?_read`: Operands are at fault where the first of their words is.
* `read_eq_error`, `read_data_eq_error`: The fault of operands and of a line of
  data.
* `overflow_below_limit`: Which of the two errors is reported.
-/

namespace Chip8

open Operands

/-! ## Fields -/

namespace Field

/-- The width of a field. -/
def bits : Field → Nat
  | .register => 4
  | .number bits => bits

/-- A word has the shape that a field asks for and denotes this value, be there
    room for it or not. -/
def Denotes : Field → Text → Nat → Prop
  | .register, token, v => ∃ digits, token = 'v' :: digits ∧ Text.IsDigits 10 digits v
  | .number _, token, v => Text.IsNumeral token v

/-- The error for a word that does not have this shape. -/
def mistake : Field → Text → OperandError
  | .register, token => .invalidRegister token
  | .number _, token => .invalidLiteral token

/-- What is wrong with a word for a field, if anything is. -/
def fault? : Field → Text → Option OperandError
  | .register, token => error? (readRegister token)
  | .number bits, token => error? (literal bits token)

theorem spells_iff (f : Field) (token : Text) (n : Nat) :
    f.Spells token n ↔ n < 2 ^ f.bits ∧ f.Denotes token n := by
  cases f with
  | register => exact and_congr_left' Nat.lt_succ_iff.symm
  | number bits => rfl

/-- What is wrong with a word of the right shape. -/
theorem fault?_of_denotes {f : Field} (hbits : f.bits ≤ 32) {token : Text} {v : Nat}
    (h : f.Denotes token v) :
    f.fault? token = if v < 2 ^ f.bits then none
      else some (if v < numberLimit then .overflow v f.bits else f.mistake token) := by
  by_cases hv : v < numberLimit
  · rw [if_pos hv]
    cases f with
    | register =>
        rcases h with ⟨digits, rfl, hdigits⟩
        rw [fault?, readRegister_of_isDigits hdigits, if_pos hv]
        change _ = if v < registerCount then none else some (OperandError.overflow v 4)
        split <;> rfl
    | number bits =>
        rw [fault?, literal, number_of_isNumeral h, if_pos hv]
        change _ = if v < 2 ^ bits then none else some (OperandError.overflow v bits)
        simp only [shiftRight_eq_zero_iff]
        split <;> rfl
  · -- No field has room for what lies beyond the limit.
    have hwide : ¬v < 2 ^ f.bits := fun hlt =>
      hv (Nat.lt_of_lt_of_le hlt (Nat.pow_le_pow_right (by decide) hbits))
    rw [if_neg hwide, if_neg hv]
    cases f with
    | register =>
        rcases h with ⟨digits, rfl, hdigits⟩
        rw [fault?, readRegister_of_isDigits hdigits, if_neg hv]
        rfl
    | number bits =>
        rw [fault?, literal, number_of_isNumeral h, if_neg hv]
        rfl

/-- There is nothing wrong with a word that spells a value. -/
theorem fault?_of_spells {f : Field} (hbits : f.bits ≤ 32) {token : Text} {n : Nat}
    (h : f.Spells token n) : f.fault? token = none := by
  rw [spells_iff] at h
  rw [fault?_of_denotes hbits h.2, if_pos h.1]

end Field

/-! ## Operands -/

namespace Layout

theorem bits_le_of_mem_fields {l : Layout} {f : Field} (h : f ∈ l.fields) : f.bits ≤ 32 := by
  cases l <;> revert f <;> decide

/-- Operands of the right number are at fault where the first of their words is. -/
theorem error?_read {l : Layout} {tokens : List Text} (hcount : tokens.length = l.arity) :
    error? (l.read tokens) = (l.fields.zip tokens).findSome? fun p => p.1.fault? p.2 := by
  -- The fields are read from left to right, and the first error ends the reading.
  cases l with
  | bare =>
      rw [List.length_eq_zero_iff.mp hcount]
      rfl
  | address =>
      rcases List.length_eq_one_iff.mp hcount with ⟨a, rfl⟩
      simp only [fields, List.zip_cons_cons, List.findSome?_cons, Field.fault?, read]
      cases literal 12 a <;> rfl
  | registerByte =>
      rcases List.length_eq_two.mp hcount with ⟨a, b, rfl⟩
      simp only [fields, List.zip_cons_cons, List.findSome?_cons, Field.fault?, read]
      cases readRegister a <;> cases literal 8 b <;> rfl
  | registerPair =>
      rcases List.length_eq_two.mp hcount with ⟨a, b, rfl⟩
      simp only [fields, List.zip_cons_cons, List.findSome?_cons, Field.fault?, read]
      cases readRegister a <;> cases readRegister b <;> rfl
  | register =>
      rcases List.length_eq_one_iff.mp hcount with ⟨a, rfl⟩
      simp only [fields, List.zip_cons_cons, List.findSome?_cons, Field.fault?, read]
      cases readRegister a <;> rfl
  | registerPairNibble =>
      rcases List.length_eq_three.mp hcount with ⟨a, b, c, rfl⟩
      simp only [fields, List.zip_cons_cons, List.findSome?_cons, Field.fault?, read]
      cases readRegister a <;> cases readRegister b <;> cases literal 4 c <;> rfl

-- What is spelled in front of a word is not at fault.
theorem findSome?_fault {l : Layout} {tokens : List Text} {front behind : List (Field × Text)}
    {f : Field} {token : Text} {e : OperandError}
    (hwords : l.fields.zip tokens = front ++ (f, token) :: behind)
    (hfront : ∀ p ∈ front, ∃ n, p.1.Spells p.2 n) (he : f.fault? token = some e) :
    (l.fields.zip tokens).findSome? (fun p => p.1.fault? p.2) = some e := by
  refine List.findSome?_eq_some_iff.mpr ⟨front, (f, token), behind, hwords, he, fun p hp => ?_⟩
  rcases hfront p hp with ⟨n, hn⟩
  have hmem : p ∈ l.fields.zip tokens := hwords ▸ List.mem_append_left _ hp
  exact Field.fault?_of_spells (bits_le_of_mem_fields (List.of_mem_zip hmem).1) hn

/-- A value without room in its field, behind words that spell theirs, makes the
    error. -/
theorem read_eq_error {l : Layout} {tokens : List Text} {front behind : List (Field × Text)}
    {f : Field} {token : Text} {v : Nat} (hcount : tokens.length = l.arity)
    (hwords : l.fields.zip tokens = front ++ (f, token) :: behind)
    (hfront : ∀ p ∈ front, ∃ n, p.1.Spells p.2 n) (hv : f.Denotes token v)
    (hwide : 2 ^ f.bits ≤ v) :
    l.read tokens
      = .error (if v < numberLimit then .overflow v f.bits else f.mistake token) := by
  have hmem : (f, token) ∈ l.fields.zip tokens :=
    hwords ▸ List.mem_append_right _ List.mem_cons_self
  have hfault := Field.fault?_of_denotes (bits_le_of_mem_fields (List.of_mem_zip hmem).1) hv
  rw [if_neg (Nat.not_lt.mpr hwide)] at hfault
  exact eq_error_of_error? ((error?_read hcount).trans (findSome?_fault hwords hfront hfault))

end Layout

/-! ## Data -/

namespace Statement

/-- What is wrong with a numeral in a line of data. -/
theorem error?_readByte {token : Text} {v : Nat} (h : Text.IsNumeral token v) :
    error? (readByte token) = if v < 256 then none
      else some (if v < numberLimit then .byteOverflow v else .invalidByte token) := by
  rw [readByte, number_of_isNumeral h]
  by_cases hv : v < numberLimit
  · rw [if_pos hv, if_pos hv]
    dsimp only
    split <;> rfl
  · have hwide : ¬v < 256 := fun hlt => hv (Nat.lt_trans hlt (by decide))
    rw [if_neg hv, if_neg hv, if_neg hwide]
    rfl

/-- A value that is no byte, behind words that spell bytes, makes the error of a
    line of data. -/
theorem read_data_eq_error {code : Text} {front behind : List Text} {token : Text} {v : Nat}
    (hwords : Text.tokens code = "db".toList :: (front ++ token :: behind))
    (hfront : ∀ t ∈ front, ∃ n, (Field.number 8).Spells t n) (hv : Text.IsNumeral token v)
    (hwide : 256 ≤ v) :
    read code = .error (if v < numberLimit then .byteOverflow v else .invalidByte token) := by
  have hfault : error? ((front ++ token :: behind).mapM readByte)
      = some (if v < numberLimit then .byteOverflow v else .invalidByte token) := by
    rw [error?_mapM]
    refine List.findSome?_eq_some_iff.mpr ⟨front, token, behind, rfl, ?_, fun t ht => ?_⟩
    · rw [error?_readByte hv, if_neg (Nat.not_lt.mpr hwide)]
    · rcases hfront t ht with ⟨n, hn⟩
      rw [error?_readByte hn.2, if_pos (show n < 256 from hn.1)]
  rw [read_data_eq hwords, eq_error_of_error? hfault]
  rfl

end Statement

namespace Source

/-- Which error is reported for a value without room. It is at the operands of an
    instruction, as many as the layout asks for, behind words that spell their own
    values; or it is in a line of data, behind words that spell bytes, and the lines
    above are well formed. Then the error is an overflow, with the value and the width
    of its field, if the value has room in 32 bits. If it has not, it is not taken for
    a value at all, and the error is that the word is no register, or no number, or no
    byte. -/
theorem overflow_below_limit (token : Text) (v : Nat) :
    (∀ (l : Layout) (tokens : List Text) (front behind : List (Field × Text)) (f : Field),
      tokens.length = l.arity → l.fields.zip tokens = front ++ (f, token) :: behind →
      (∀ p ∈ front, ∃ n, p.1.Spells p.2 n) → f.Denotes token v → 2 ^ f.bits ≤ v →
      l.read tokens
        = .error (if v < numberLimit then .overflow v f.bits else f.mistake token)) ∧
    ∀ (src : Text) (line : Nat) (code : Text) (front behind : List Text),
      codeOnLine? src line = some code →
      (∀ n < line, ∀ above, codeOnLine? src n = some above → Statement.WellFormed above) →
      Text.tokens code = "db".toList :: (front ++ token :: behind) →
      (∀ t ∈ front, ∃ n, (Field.number 8).Spells t n) → Text.IsNumeral token v → 256 ≤ v →
      assemble src
        = .error ⟨line, if v < numberLimit then .byteOverflow v else .invalidByte token⟩ := by
  refine ⟨?_, ?_⟩
  · intro l tokens front behind f hcount hwords hfront hv hwide
    exact Layout.read_eq_error hcount hwords hfront hv hwide
  · intro src line code front behind hcode habove hwords hfront hv hwide
    exact assemble_eq_error hcode habove (Statement.read_data_eq_error hwords hfront hv hwide)

/-- Leading zeros do not count, and what stands behind is not looked at. -/
theorem overflow_leading_zeros :
    Layout.registerByte.read ["v1".toList, "00000000000256".toList] = .error (.overflow 256 8) ∧
      Layout.registerPair.read ["v016".toList, "1".toList] = .error (.overflow 16 4) ∧
      assemble "clear # db 256 #\ndb 1, 0X0000000fFF, v".toList
        = .error ⟨2, .byteOverflow 4095⟩ := by
  refine ⟨?_, ?_, ?_⟩
  · exact (overflow_below_limit "00000000000256".toList 256).1 .registerByte _
      [(.register, "v1".toList)] [] (.number 8) rfl rfl
      (List.forall_mem_singleton.mpr ⟨1, (readRegister_eq_ok_iff _ 1).mp rfl⟩)
      ((Text.numeral?_eq_some_iff _ _).mp (by decide)) (by decide)
  · exact (overflow_below_limit "v016".toList 16).1 .registerPair _ [] [(.register, "1".toList)]
      .register rfl rfl (List.forall_mem_nil _)
      ⟨"016".toList, rfl, (Text.ofDigits?_eq_some_iff (by decide) _ _).mp (by decide)⟩ (by decide)
  · have hclear : codeOnLine? "clear # db 256 #\ndb 1, 0X0000000fFF, v".toList 1
        = some "clear ".toList := by decide +kernel
    have hdata : codeOnLine? "clear # db 256 #\ndb 1, 0X0000000fFF, v".toList 2
        = some "db 1, 0X0000000fFF, v".toList := by decide +kernel
    refine (overflow_below_limit "0X0000000fFF".toList 4095).2 _ 2 _ ["1".toList] ["v".toList] hdata
      ?_ (by decide) ?_ ((Text.numeral?_eq_some_iff _ _).mp (by decide)) (by decide)
    · -- The line above is an instruction, and what it says about 256 is a comment.
      intro n hn above habove
      interval_cases n
      · exact nomatch habove
      · rw [← Option.some.inj (hclear.symm.trans habove)]
        exact Statement.wellFormed_iff.mpr ⟨_, rfl⟩
    · exact List.forall_mem_singleton.mpr ⟨1, by decide, (Text.numeral?_eq_some_iff _ _).mp rfl⟩

/-- One more than 32 bits have room for, as an operand of either kind and as a byte. -/
theorem overflow_unread_beyond_limit :
    Field.Denotes (.number 12) "4294967296".toList 4294967296 ∧
      Layout.address.read ["4294967296".toList]
        = .error (.invalidLiteral "4294967296".toList) ∧
      Field.Denotes .register "v4294967296".toList 4294967296 ∧
      Layout.register.read ["v4294967296".toList]
        = .error (.invalidRegister "v4294967296".toList) ∧
      assemble "db 4294967296".toList = .error ⟨1, .invalidByte "4294967296".toList⟩ := by
  have hdigits : Text.IsDigits 10 "4294967296".toList 4294967296 :=
    (Text.ofDigits?_eq_some_iff (by decide) _ _).mp (by decide)
  exact ⟨Or.inl hdigits, by decide, ⟨_, rfl, hdigits⟩, by decide, by decide +kernel⟩

end Source

end Chip8

import Chip8.Assembly.Source
import Chip8.Listing.Item
import Chip8.Proofs.Encoding.Fields
import Chip8.Proofs.Notation.Numeral
import Chip8.Proofs.Notation.Token

/-!
# Statements Written and Read

Assembly notation is read back as what it was written for. Writing puts the
words of a statement on a line with separators in between, so the proof has
two halves: the line falls into these words again, and each word is read as
the field it stands for.

`Operands.words` is the middle ground of the two, the operands as words. Only
operands that fit are read back; the reader checks what the writer takes for
granted.

## Main definitions

* `Operands.words`: The words that operands are written in.

## Theorems

* `number_hexNumeral`, `literal_hexNumeral`, `readRegister_registerText`:
  Single fields are read back.
* `read_words`: Operands are read back from their words.
* `tokens_operands`, `tokens_instruction`: A line falls into the words that it
  was made of.
* `read_cases`: What there is on a line that can be read.
* `read_instruction`, `read_data`: Statements are read back.
* `isPlain_source`: Statements are plain text.
-/

namespace Chip8

open Text

namespace Operands

-- What a word of memory can hold is far below the limit of numbers.
theorem lt_numberLimit {n : Nat} (h : n < 65536) : n < numberLimit :=
  Nat.lt_trans h (by decide)

theorem number_hexNumeral {n : Nat} (h : n < numberLimit) : number (hexNumeral n) = .ok n := by
  rw [number, numeralBelow?_eq, numeral?_hexNumeral, Option.filter_some,
    if_pos (decide_eq_true h)]

theorem literal_hexNumeral {bits n : Nat} (hlimit : n < numberLimit) (hbits : n < 2 ^ bits) :
    literal bits (hexNumeral n) = .ok n := by
  have hwidth : n >>> bits = 0 := by
    rw [Nat.shiftRight_eq_div_pow]
    exact Nat.div_eq_of_lt hbits
  rw [literal, number_hexNumeral hlimit]
  exact if_pos hwidth

theorem readRegister_registerText {x : UInt8} (h : x < 16) :
    readRegister (registerText x) = .ok x := by
  have hlt : x.toNat < registerCount := UInt8.lt_iff_toNat_lt.mp h
  have hlimit : x.toNat < numberLimit := lt_numberLimit (Nat.lt_trans hlt (by decide))
  rw [registerText, readRegister, ofDigitsBelow?_eq _ (by decide), ofDigits?_decimal,
    Option.filter_some, if_pos (decide_eq_true hlimit)]
  simp only [if_pos hlt, Nat.toUInt8_eq, UInt8.ofNat_toNat]

/-- The words that operands are written in. -/
def words : Operands → List Text
  | .bare => []
  | .address nnn => [hexNumeral nnn.toNat]
  | .registerByte x nn => [registerText x, hexNumeral nn.toNat]
  | .registerPair x y => [registerText x, registerText y]
  | .register x => [registerText x]
  | .registerPairNibble x y n => [registerText x, registerText y, hexNumeral n.toNat]

/-- Operands are read back from the words that they are written in. -/
theorem read_words {o : Operands} (hfits : o.Fits) : o.layout.read o.words = .ok o := by
  cases o with
  | bare => rfl
  | address nnn =>
      -- A field that fits is below the limit of its literal, and is not changed on the way back.
      have hlt : nnn.toNat < 2 ^ 12 := UInt16.lt_iff_toNat_lt.mp hfits
      rw [words, layout, Layout.read, literal_hexNumeral (lt_numberLimit (by omega)) hlt]
      exact congrArg (Except.ok <| Operands.address ·) UInt16.ofNat_toNat
  | registerByte x nn =>
      have hlt : nn.toNat < 2 ^ 8 := nn.toNat_lt
      rw [words, layout, Layout.read, readRegister_registerText hfits,
        literal_hexNumeral (lt_numberLimit (by omega)) hlt]
      exact congrArg (Except.ok <| Operands.registerByte x ·) UInt8.ofNat_toNat
  | registerPair x y =>
      rw [words, layout, Layout.read, readRegister_registerText hfits.1,
        readRegister_registerText hfits.2]
      rfl
  | register x =>
      rw [words, layout, Layout.read, readRegister_registerText hfits]
      rfl
  | registerPairNibble x y n =>
      have hlt : n.toNat < 2 ^ 4 := UInt8.lt_iff_toNat_lt.mp hfits.2.2
      rw [words, layout, Layout.read, readRegister_registerText hfits.1,
        readRegister_registerText hfits.2.1, literal_hexNumeral (lt_numberLimit (by omega)) hlt]
      exact congrArg (Except.ok <| Operands.registerPairNibble x y ·) UInt8.ofNat_toNat

theorem isWord_hexNumeral (n : Nat) : IsWord (hexNumeral n) := by
  have hdigit : ∀ d < 16, isSeparator (Nat.digitChar d).toUpper = false := by decide
  refine IsWord.append (v := ['0', 'x']) (by decide) ?_
  intro c hc
  rcases mem_hex hc with ⟨d, hd, rfl⟩
  exact hdigit d hd

theorem isWord_registerText (x : UInt8) : IsWord (registerText x) := by
  have hdigit : ∀ d < 16, isSeparator (Nat.digitChar d) = false := by decide
  refine IsWord.append (v := ['v']) (by decide) ?_
  intro c hc
  rcases mem_decimal hc with ⟨d, hd, rfl⟩
  exact hdigit d hd

-- A comma and a blank separate a word from what follows it.
theorem tokens_word_comma {w : Text} (hw : IsWord w) (line : Text) :
    tokens (w ++ ", ".toList ++ line) = w :: tokens line := by
  rw [List.append_assoc]
  exact (tokens_word_append hw (by decide) _).trans
    (congrArg (w :: ·) (tokens_cons (by decide) line))

/-- The text of operands falls into their words. -/
theorem tokens_operands (o : Operands) : tokens o.text = o.words := by
  cases o with
  | bare => exact tokens_nil
  | address nnn => exact tokens_word (isWord_hexNumeral _)
  | registerByte x nn =>
      rw [text, tokens_word_comma (isWord_registerText x), tokens_word (isWord_hexNumeral _), words]
  | registerPair x y =>
      rw [text, tokens_word_comma (isWord_registerText x), tokens_word (isWord_registerText y),
        words]
  | register x => exact tokens_word (isWord_registerText x)
  | registerPairNibble x y n =>
      rw [text, List.append_assoc, List.append_assoc, tokens_word_comma (isWord_registerText x),
        ← List.append_assoc, tokens_word_comma (isWord_registerText y),
        tokens_word (isWord_hexNumeral _), words]

theorem isPlain_registerText (x : UInt8) : IsPlain (registerText x) :=
  IsPlain.cons (by decide) (isPlain_decimal _)

theorem isPlain_text (o : Operands) : IsPlain o.text := by
  have hcomma : IsPlain ", ".toList := by decide
  cases o with
  | bare => exact fun c hc => nomatch hc
  | address nnn => exact isPlain_hexNumeral _
  | registerByte x nn =>
      exact ((isPlain_registerText x).append hcomma).append (isPlain_hexNumeral _)
  | registerPair x y =>
      exact ((isPlain_registerText x).append hcomma).append (isPlain_registerText y)
  | register x => exact isPlain_registerText x
  | registerPairNibble x y n =>
      exact ((((isPlain_registerText x).append hcomma).append (isPlain_registerText y)).append
        hcomma).append (isPlain_hexNumeral _)

end Operands

namespace Opcode

theorem isWord_mnemonic (op : Opcode) : IsWord op.mnemonic := by
  cases op <;> decide

theorem isPlain_mnemonic (op : Opcode) : IsPlain op.mnemonic := by
  cases op <;> decide

theorem mnemonic_ne_db (op : Opcode) : op.mnemonic ≠ "db".toList := by
  cases op <;> decide

end Opcode

namespace Instruction

/-- The text of an instruction falls into its mnemonic and the words of its
    operands. -/
theorem tokens_instruction (i : Instruction) :
    tokens i.text = i.op.mnemonic :: i.operands.words := by
  rcases i with ⟨op, operands, hlayout⟩
  have hword := op.isWord_mnemonic
  cases operands with
  | bare => exact tokens_word hword
  | _ =>
      refine (tokens_word_append hword (by decide) _).trans ?_
      rw [Operands.tokens_operands]

theorem isPlain_instruction (i : Instruction) : IsPlain i.text := by
  rcases i with ⟨op, operands, hlayout⟩
  have hname := op.isPlain_mnemonic
  cases operands with
  | bare => exact hname
  | _ => exact hname.append (IsPlain.cons (by decide) (Operands.isPlain_text _))

end Instruction

namespace Statement

-- A separator in front of a line makes no difference to its statement.
theorem read_cons {c : Char} (hc : isSeparator c = true) (line : Text) :
    read (c :: line) = read line := by
  rw [read, read, tokens_cons hc]

-- Nor does one behind it.
theorem read_concat {c : Char} (hc : isSeparator c = true) (line : Text) :
    read (line ++ [c]) = read line := by
  rw [read, read, tokens_append_cons hc, tokens_nil, List.append_nil]

-- No statement starts with the sign that marks stamps.
theorem exists_read_eq_error (line : Text) :
    ∃ name, read ('@' :: line) = .error (.invalidMnemonic ('@' :: name)) := by
  rcases exists_tokens_cons (c := '@') (by decide) line with ⟨name, tokens, htokens⟩
  have hnone : Opcode.ofMnemonic? ('@' :: name) = none := by
    refine List.find?_eq_none.mpr ?_
    intro op _ heq
    -- Names of instructions start with letters.
    have hhead : op.mnemonic.head? = some '@' := by
      rw [of_decide_eq_true heq]
      rfl
    cases op <;> exact absurd hhead (by decide)
  refine ⟨name, ?_⟩
  rw [read, htokens]
  dsimp only
  rw [readTokens, if_neg (by simp), hnone]
  rfl

theorem readTokens_mnemonic {op : Opcode} {tokens : List Text} {operands : Operands}
    (h : op.layout.read tokens = .ok operands) :
    readTokens op.mnemonic tokens
      = .ok (.instruction ⟨op, operands, Layout.layout_of_read_eq_ok h⟩) := by
  rw [readTokens, if_neg op.mnemonic_ne_db, Opcode.ofMnemonic?_mnemonic]
  dsimp only
  split
  · -- The layout reads one result only, whatever proof comes with it.
    rename_i found hfound
    rw [h, Except.ok.injEq] at hfound
    subst hfound
    rfl
  · rename_i e he
    rw [h] at he
    exact nomatch he

/-- What is read from a line: nothing from a blank one, and otherwise data or an
    instruction, with its operands read behind its name. -/
theorem read_cases {line : Text} {found : Option Statement} (h : read line = .ok found) :
    tokens line = [] ∧ found = none ∨
      (∃ words bytes, tokens line = "db".toList :: words ∧ words.mapM readByte = .ok bytes ∧
        found = some (.data bytes)) ∨
      ∃ op words operands, ∃ hread : op.layout.read words = .ok operands,
        tokens line = op.mnemonic :: words ∧
          found = some (.instruction ⟨op, operands, Layout.layout_of_read_eq_ok hread⟩) := by
  unfold read at h
  split at h
  · rename_i hblank
    cases h
    exact Or.inl ⟨hblank, rfl⟩
  · rename_i name words hwords
    rcases exists_of_map_eq_ok h with ⟨s, hs, rfl⟩
    unfold readTokens at hs
    split at hs
    · rename_i hname
      rcases exists_of_map_eq_ok hs with ⟨bytes, hbytes, rfl⟩
      exact Or.inr (Or.inl ⟨words, bytes, hname ▸ hwords, hbytes, rfl⟩)
    · split at hs
      · exact nomatch hs
      · rename_i op hop
        -- The instruction that is found has this name.
        have hname : op.mnemonic = name := by simpa using List.find?_some hop
        split at hs
        · rename_i operands hread
          cases hs
          exact Or.inr (Or.inr ⟨op, words, operands, hread, hname ▸ hwords, rfl⟩)
        · exact nomatch hs

/-- An instruction whose operands fit is read back from its text. -/
theorem read_instruction {i : Instruction} (hfits : i.operands.Fits) :
    read i.text = .ok (some (.instruction i)) := by
  have hread : i.op.layout.read i.operands.words = .ok i.operands := by
    rw [← i.layout_eq]
    exact Operands.read_words hfits
  rw [read, i.tokens_instruction]
  dsimp only
  rw [readTokens_mnemonic hread]
  rfl

/-- A data byte is read back from its line. -/
theorem read_data (b : UInt8) : read (Item.data b).source = .ok (some (.data [b])) := by
  have hlt : b.toNat < 256 := b.toNat_lt
  have hword : IsWord "db".toList := by decide
  -- The line falls into two words.
  have htokens : tokens (Item.data b).source = ["db".toList, hexNumeral b.toNat] := by
    refine (tokens_word_append hword (c := ' ') (by decide) (hexNumeral b.toNat)).trans ?_
    rw [tokens_word (Operands.isWord_hexNumeral _)]
  have hbyte : readByte (hexNumeral b.toNat) = .ok b := by
    rw [readByte, Operands.number_hexNumeral (Operands.lt_numberLimit (by omega))]
    simp only [if_pos hlt, Nat.toUInt8_eq, UInt8.ofNat_toNat]
  rw [read, htokens]
  dsimp only
  rw [readTokens, if_pos rfl, List.mapM_cons, hbyte]
  rfl

end Statement

namespace Item

/-- What a listing line shows is plain text. -/
theorem isPlain_source (item : Item) : IsPlain item.source := by
  cases item with
  | code i => exact i.isPlain_instruction
  | data b => exact IsPlain.append (by decide) (isPlain_hexNumeral _)

end Item

end Chip8

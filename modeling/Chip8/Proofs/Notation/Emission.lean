import Chip8.Proofs.Notation.Grammar
import Chip8.Proofs.Notation.Statement
import Chip8.Proofs.Source.Placement

/-!
# What a Line of Code Emits

A line of code is blank, a line of data, or an instruction with its operands.
Each has bytes to put into the program: a blank line has none, a line of data
has the bytes that its words spell, and an instruction has the two bytes of its
word, the upper one first.

All of this is said here about the words on the line, without the readers. That
a line can be read and that there are bytes that it emits are the same, and the
bytes that are read from it are the only ones that it emits. A line is well
formed if there are such bytes, be there many of them or none.

## Main definitions

* `Statement.Emits`: The bytes of a line of code.
* `Statement.WellFormed`: A line is blank or has a statement on it.
* `Statement.EmitsAll`: The bytes of several lines.

## Theorems

* `emits_bytesOn`, `exists_read_of_emits`: A line emits the bytes that are read
  from it, and no others.
* `wellFormed_iff`: The lines that can be read.
* `emitsAll_flatMap`, `eq_flatMap_of_emitsAll`: The bytes of several lines.
-/

namespace Chip8

-- Operands of one layout are told apart by their values.
theorem Operands.eq_of_values {o o' : Operands} (hlayout : o.layout = o'.layout)
    (hvalues : o.values = o'.values) : o = o' := by
  cases o <;> cases o' <;> simp_all [layout, values, UInt8.toNat_inj, UInt16.toNat_inj]

-- The two bytes of an instruction, as the digits of its word.
theorem Instruction.bytes_eq_iff (ins : Instruction) (hi lo : UInt8) :
    ins.bytes = [hi, lo] ↔ hi.toNat * 256 + lo.toNat = ins.word.toNat := by
  have hword := ins.word.toNat_lt
  have hlow := lo.toNat_lt
  have hhigh := hi.toNat_lt
  simp only [bytes, List.cons.injEq, and_true, ← UInt8.toNat_inj, UInt16.toNat_toUInt8,
    UInt16.toNat_shiftRight, UInt16.reduceToNat, Nat.reduceMod, Nat.shiftRight_eq_div_pow,
    Nat.reducePow]
  omega

namespace Statement

/-- A line of code emits bytes. -/
inductive Emits (code : Text) : List UInt8 → Prop where
  /-- Nothing stands on the line. -/
  | blank (hwords : Text.tokens code = []) : Emits code []
  /-- Words that spell bytes, behind the word for data. -/
  | data {tokens : List Text} {bytes : List UInt8}
      (hwords : Text.tokens code = "db".toList :: tokens)
      (hspells : List.Forall₂ (Field.number 8).Spells tokens (bytes.map UInt8.toNat)) :
      Emits code bytes
  /-- Words that spell operands, behind the name of the instruction. Of the two
      bytes the upper one comes first. -/
  | instruction (ins : Instruction) {tokens : List Text} {hi lo : UInt8}
      (hwords : Text.tokens code = ins.op.mnemonic :: tokens)
      (hspells : ins.op.layout.Spells tokens ins.operands.values)
      (hword : hi.toNat * 256 + lo.toNat = ins.word.toNat) : Emits code [hi, lo]

/-- A line is blank or has a statement on it. -/
def WellFormed (code : Text) : Prop :=
  ∃ bytes, Emits code bytes

variable {code : Text}

/-- A line that can be read emits the bytes that are read from it. -/
theorem emits_bytesOn {found : Option Statement} (h : read code = .ok found) :
    Emits code (bytesOn code) := by
  rw [bytesOn_of_read h]
  rcases read_cases h with ⟨hwords, rfl⟩ | ⟨words, bytes, hwords, hbytes, rfl⟩ |
    ⟨op, words, operands, hread, hwords, rfl⟩
  · exact .blank hwords
  · exact .data hwords ((mapM_readByte_eq_ok_iff words bytes).mp hbytes)
  · exact .instruction ⟨op, operands, _⟩ hwords (Layout.spells_of_read hread)
      ((Instruction.bytes_eq_iff _ _ _).mp rfl)

/-- A line that emits bytes can be read, and these are the bytes on it. -/
theorem exists_read_of_emits {bytes : List UInt8} (h : Emits code bytes) :
    (∃ found, read code = .ok found) ∧ bytes = bytesOn code := by
  cases h with
  | blank hwords =>
      have hread : read code = .ok none := by rw [read, hwords]
      exact ⟨⟨none, hread⟩, (bytesOn_of_read hread).symm⟩
  | data hwords hspells =>
      have hread : read code = .ok (some (.data bytes)) := by
        rw [read_data_eq hwords, (mapM_readByte_eq_ok_iff _ bytes).mpr hspells]
        rfl
      exact ⟨⟨_, hread⟩, (bytesOn_of_read hread).symm⟩
  | @instruction ins tokens hi lo hwords hspells hword =>
      -- The words spell the operands of this instruction and of no other.
      rcases Layout.exists_read_of_spells hspells with ⟨operands, hoperands⟩
      have hsame : operands = ins.operands :=
        Operands.eq_of_values ((Layout.layout_of_read_eq_ok hoperands).trans ins.layout_eq.symm)
          ((Layout.spells_iff_of_read hoperands _).mp hspells).symm
      subst hsame
      have hread : read code = .ok (some (.instruction ins)) := by
        rw [read, hwords]
        dsimp only
        rw [readTokens_mnemonic hoperands]
        rfl
      refine ⟨⟨_, hread⟩, ?_⟩
      rw [bytesOn_of_read hread]
      exact ((Instruction.bytes_eq_iff ins hi lo).mpr hword).symm

/-- The lines that can be read are those that are well formed. -/
theorem wellFormed_iff : WellFormed code ↔ ∃ found, read code = .ok found :=
  ⟨fun ⟨_, h⟩ => (exists_read_of_emits h).1, fun ⟨_, h⟩ => ⟨_, emits_bytesOn h⟩⟩

/-- Lines of code emit their bytes one after another. -/
inductive EmitsAll : List Text → List UInt8 → Prop where
  | nil : EmitsAll [] []
  | cons {code : Text} {codes : List Text} {block bytes : List UInt8} (hcode : Emits code block)
      (hcodes : EmitsAll codes bytes) : EmitsAll (code :: codes) (block ++ bytes)

theorem emitsAll_flatMap {codes : List Text}
    (h : ∀ code ∈ codes, ∃ found, read code = .ok found) :
    EmitsAll codes (codes.flatMap bytesOn) := by
  induction codes with
  | nil => exact .nil
  | cons code codes ih =>
      rw [List.forall_mem_cons] at h
      rcases h.1 with ⟨found, hread⟩
      rw [List.flatMap_cons]
      exact .cons (emits_bytesOn hread) (ih h.2)

theorem eq_flatMap_of_emitsAll {codes : List Text} {bytes : List UInt8}
    (h : EmitsAll codes bytes) : bytes = codes.flatMap bytesOn := by
  induction h with
  | nil => rfl
  | cons hcode _ ih => rw [List.flatMap_cons, ← ih, ← (exists_read_of_emits hcode).2]

end Statement

end Chip8

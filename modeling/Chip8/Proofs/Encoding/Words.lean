import Chip8.Instruction
import Chip8.Proofs.Encoding.Fields

/-!
# Words and Their Instructions

Every word that decodes is the word of the instruction it decodes to. The
other way round there is an exception. Twelve bits of a `call` are open, and
for two of its addresses the word that comes out has all the bits of another
instruction: `call 0x0E0` is encoded as `clear` is, and `call 0x0EE` as `ret`
is. The more specific instruction wins, so neither of these calls can be told
from its word.

That there are no further exceptions is a question about pairs of opcodes. If
one word matches two of them, their fixed bits agree wherever both have some,
and this can be looked up in the table. `eq_or_call_of_agrees` does so, once
for all pairs, and everything else here is derived from it.

## Main definitions

* `Opcode.Agrees`: Two opcodes that may share a word.
* `Instruction.Shadowed`: A call whose word belongs to another instruction.
* `Instruction.resolve`: The instruction that the word belongs to.

## Theorems

* `wordOfBytes_bytes`, `bytes_wordOfBytes`: Words and pairs of bytes.
* `eq_or_call_of_agrees`: Only `call` shares words, with `clear` and `ret`.
* `ofWord?_eq_some_iff`: The opcode that a word belongs to.
* `word_of_decode?`: A word that decodes is the word of its instruction.
* `decode_word`: The operands of an instruction are found again in its word.
* `decode?_word`: An instruction that is not shadowed is decoded again.
* `decode?_word_eq_resolve`: What the word of any instruction decodes to.
-/

namespace Chip8

/-- The upper and the lower byte of a word make up the word. -/
theorem wordOfBytes_bytes (w : UInt16) : wordOfBytes (w >>> 8).toUInt8 w.toUInt8 = w := by
  rw [wordOfBytes]
  refine UInt16.eq_of_toBitVec_eq ?_
  ext i hi
  simp [-UInt16.toUInt16_toUInt8]
  interval_cases i <;> simp

/-- The bytes that a word was made of are its upper and its lower byte. -/
theorem bytes_wordOfBytes (hi lo : UInt8) :
    (wordOfBytes hi lo >>> 8).toUInt8 = hi ∧ (wordOfBytes hi lo).toUInt8 = lo := by
  rw [wordOfBytes]
  constructor <;> refine UInt8.eq_of_toBitVec_eq ?_ <;> ext i hi <;> interval_cases i <;> simp

-- Masking a union of bits masks both of its parts.
theorem or_and_eq (a b mask : UInt16) : (a ||| b) &&& mask = a &&& mask ||| b &&& mask :=
  UInt16.eq_of_toBitVec_eq BitVec.and_or_distrib_right

-- A word is what a mask keeps together with what it drops.
theorem and_or_and_not (w mask : UInt16) : w &&& mask ||| w &&& ~~~mask = w := by
  refine UInt16.eq_of_toBitVec_eq ?_
  ext i hi
  simp only [UInt16.toBitVec_or, UInt16.toBitVec_and, UInt16.toBitVec_not, BitVec.getElem_or,
    BitVec.getElem_and, BitVec.getElem_not]
  cases w.toBitVec[i] <;> simp

namespace Opcode

theorem fixedBits_and_mask (op : Opcode) : op.fixedBits &&& op.mask = op.fixedBits := by
  cases op <;> decide

theorem matches_or_bits {op : Opcode} {o : Operands} (h : o.layout = op.layout) :
    op.Matches (op.fixedBits ||| o.bits) := by
  have hclear : o.bits &&& op.mask = 0 := by
    rw [mask, ← h]
    exact o.bits_and_mask
  rw [Matches, or_and_eq, fixedBits_and_mask, hclear, UInt16.or_zero]

/-- The fixed bits of two opcodes agree at every position that both of them
    fix. -/
def Agrees (a b : Opcode) : Prop :=
  a.fixedBits &&& b.mask = b.fixedBits &&& a.mask

instance (a b : Opcode) : Decidable (a.Agrees b) :=
  inferInstanceAs (Decidable (_ = _))

theorem agrees_of_matches {a b : Opcode} {w : UInt16} (ha : a.Matches w) (hb : b.Matches w) :
    a.Agrees b := by
  rw [Agrees, ← ha, ← hb, UInt16.and_assoc, UInt16.and_assoc, UInt16.and_comm a.mask]

/-- Two opcodes whose fixed bits agree are the same, or one of them is `call`
    and the other one of the two that fix all of their bits. -/
theorem eq_or_call_of_agrees {a b : Opcode} (h : a.Agrees b) :
    a = b ∨ a = .call ∧ (b = .clear ∨ b = .ret) ∨ b = .call ∧ (a = .clear ∨ a = .ret) := by
  have hall : ∀ a ∈ all, ∀ b ∈ all, a.Agrees b →
      a = b ∨ a = .call ∧ (b = .clear ∨ b = .ret) ∨ b = .call ∧ (a = .clear ∨ a = .ret) := by
    decide +kernel
  exact hall a (mem_all a) b (mem_all b) h

theorem clear_matches_iff (w : UInt16) : clear.Matches w ↔ w = 0x00E0 := by
  have hmask : w &&& clear.mask = w := UInt16.and_neg_one
  rw [Matches, hmask]
  rfl

theorem ret_matches_iff (w : UInt16) : ret.Matches w ↔ w = 0x00EE := by
  have hmask : w &&& ret.mask = w := UInt16.and_neg_one
  rw [Matches, hmask]
  rfl

theorem mem_decodeOrder (op : Opcode) : op ∈ decodeOrder := by
  have hall : ∀ op ∈ all, op ∈ decodeOrder := by decide +kernel
  exact hall op (mem_all op)

theorem ofWord?_clear : ofWord? 0x00E0 = some .clear := by decide +kernel

theorem ofWord?_ret : ofWord? 0x00EE = some .ret := by decide +kernel

/-- A word belongs to an opcode that it matches, with the one exception that
    the words of `clear` and `ret` do not belong to `call`. -/
theorem ofWord?_eq_some_iff (w : UInt16) (op : Opcode) :
    ofWord? w = some op ↔ op.Matches w ∧ (op = .call → w ≠ 0x00E0 ∧ w ≠ 0x00EE) := by
  constructor
  · intro h
    refine ⟨by simpa using List.find?_some h, ?_⟩
    rintro rfl
    constructor
    · rintro rfl
      rw [ofWord?_clear] at h
      exact absurd h (by decide)
    · rintro rfl
      rw [ofWord?_ret] at h
      exact absurd h (by decide)
  · rintro ⟨hmatch, hcall⟩
    -- Some opcode is found, as there is one that matches; it can only be this one.
    have hsome : (ofWord? w).isSome := by
      rw [ofWord?, List.find?_isSome]
      exact ⟨op, mem_decodeOrder op, by simpa using hmatch⟩
    rcases Option.isSome_iff_exists.mp hsome with ⟨found, hfound⟩
    have hother : found.Matches w := by simpa using List.find?_some hfound
    rcases eq_or_call_of_agrees (agrees_of_matches hother hmatch) with
      rfl | ⟨rfl, rfl | rfl⟩ | ⟨rfl, rfl | rfl⟩
    · exact hfound
    · rw [(clear_matches_iff w).mp hmatch]
      exact ofWord?_clear
    · rw [(ret_matches_iff w).mp hmatch]
      exact ofWord?_ret
    · exact absurd ((clear_matches_iff w).mp hother) (hcall rfl).1
    · exact absurd ((ret_matches_iff w).mp hother) (hcall rfl).2

end Opcode

namespace Instruction

/-- A call whose word has all the bits of an instruction without operands. -/
def Shadowed (i : Instruction) : Prop :=
  i.op = .call ∧ (i.operands.nnn = 0x0E0 ∨ i.operands.nnn = 0x0EE)

instance (i : Instruction) : Decidable i.Shadowed :=
  inferInstanceAs (Decidable (_ ∧ _))

theorem operands_of_decode? {w : UInt16} {i : Instruction} (h : decode? w = some i) :
    Opcode.ofWord? w = some i.op ∧ i.operands = i.op.layout.decode w := by
  rcases Option.map_eq_some_iff.mp h with ⟨op, hop, rfl⟩
  exact ⟨hop, rfl⟩

-- The fields of a decoded instruction fit.
theorem fits_of_decode? {w : UInt16} {i : Instruction} (h : decode? w = some i) :
    i.operands.Fits := by
  rw [(operands_of_decode? h).2]
  exact Layout.fits_decode _ _

/-- A word that decodes is the word of the instruction it decodes to. -/
theorem word_of_decode? {w : UInt16} {i : Instruction} (h : decode? w = some i) : i.word = w := by
  rcases operands_of_decode? h with ⟨hop, hoperands⟩
  have hmatch : w &&& i.op.mask = i.op.fixedBits := ((Opcode.ofWord?_eq_some_iff w i.op).mp hop).1
  rw [word, hoperands, Layout.bits_decode, ← hmatch]
  exact and_or_and_not w i.op.mask

-- The bytes of a decoded instruction are those that it was decoded from.
theorem bytes_of_decode? {hi lo : UInt8} {i : Instruction}
    (h : decode? (wordOfBytes hi lo) = some i) : i.bytes = [hi, lo] := by
  rw [bytes, word_of_decode? h, (bytes_wordOfBytes hi lo).1, (bytes_wordOfBytes hi lo).2]

-- The word of a call is its address.
theorem word_of_call {i : Instruction} (hop : i.op = .call) (hfits : i.operands.Fits) :
    i.word = i.operands.nnn := by
  rcases i with ⟨op, operands, hlayout⟩
  subst hop
  cases operands with
  | address nnn =>
      change 0 ||| nnn &&& 0xFFF = nnn
      rw [address_and hfits, UInt16.zero_or]
  | _ => simp [Operands.layout, Opcode.layout, Opcode.pattern] at hlayout

/-- The operands of an instruction are found again in its word. -/
theorem decode_word {i : Instruction} (hfits : i.operands.Fits) :
    i.op.layout.decode i.word = i.operands := by
  have h := Operands.decode_or_bits i.op.fixedBits hfits
  rw [i.layout_eq] at h
  rwa [word, ← Opcode.fixedBits_and_mask]

/-- An instruction is decoded again from its word, unless its word belongs to
    another one. -/
theorem decode?_word {i : Instruction} (hfits : i.operands.Fits) (hclear : ¬i.Shadowed) :
    decode? i.word = some i := by
  have hop : Opcode.ofWord? i.word = some i.op := by
    refine (Opcode.ofWord?_eq_some_iff _ _).mpr ⟨Opcode.matches_or_bits i.layout_eq, ?_⟩
    intro hcall
    rw [Shadowed, and_iff_right hcall, ← word_of_call hcall hfits] at hclear
    exact not_or.mp hclear
  have hoperands : i.op.layout.decode i.word = i.operands := decode_word hfits
  rcases i with ⟨op, operands, hlayout⟩
  rw [decode?, hop, Option.map_some, Option.some.injEq]
  congr 1

/-- The instruction that the word of an instruction belongs to. It is the same
    one, unless that is shadowed. -/
def resolve (i : Instruction) : Instruction :=
  if i.op = .call ∧ i.operands.nnn = 0x0E0 then ⟨.clear, .bare, rfl⟩
  else if i.op = .call ∧ i.operands.nnn = 0x0EE then ⟨.ret, .bare, rfl⟩
  else i

theorem resolve_of_not_shadowed {i : Instruction} (h : ¬i.Shadowed) : i.resolve = i := by
  rw [resolve, if_neg fun hclear => h ⟨hclear.1, Or.inl hclear.2⟩,
    if_neg fun hret => h ⟨hret.1, Or.inr hret.2⟩]

/-- The word of an instruction decodes, to the instruction itself unless it is
    shadowed. -/
theorem decode?_word_eq_resolve {i : Instruction} (hfits : i.operands.Fits) :
    decode? i.word = some i.resolve := by
  by_cases hshadowed : i.Shadowed
  · -- There are two words that are shadowed, both of them calls.
    rcases hshadowed with ⟨hcall, hclear | hret⟩
    · rw [word_of_call hcall hfits, hclear, resolve, if_pos ⟨hcall, hclear⟩, decode?,
        Opcode.ofWord?_clear]
      rfl
    · have hne : ¬(i.op = .call ∧ i.operands.nnn = 0x0E0) := by
        rw [hret]
        exact fun h => absurd h.2 (by decide)
      rw [word_of_call hcall hfits, hret, resolve, if_neg hne, if_pos ⟨hcall, hret⟩, decode?,
        Opcode.ofWord?_ret]
      rfl
  · rw [decode?_word hfits hshadowed, resolve_of_not_shadowed hshadowed]

end Instruction

end Chip8

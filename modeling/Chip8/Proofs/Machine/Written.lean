import Chip8.Assembly.Source
import Chip8.Proofs.Encoding.Words
import Chip8.Proofs.Machine.Fetch
import Chip8.Proofs.Machine.Operation
import Chip8.Proofs.Notation.Statement
import Chip8.Proofs.Source.Placement

/-!
# What Runs Is What Was Written

The assembler finds an instruction by its mnemonic, the machine by its word.
This module follows an instruction from one to the other: from its line, into
the bytes of the program at the place where its statement stands, into memory,
and back out when the machine fetches at that address.

The instruction comes back as it was written, mnemonic and operands. The two
exceptions are the calls whose addresses make their words those of `clear` and
`ret`. The assembler accepts them, and the machine fetches the instruction
that the word belongs to.

## Theorems

* `fits_of_mem_placed`: The operands of an assembled instruction fit.
* `bytes_ofStatements_append`: Where the bytes of a statement lie.
* `fetch_written`: An instruction of a source, fetched from its address.
-/

namespace Chip8

namespace Statement

-- The operands of an instruction that is read from a row fit their fields.
theorem fits_of_read {row : Text} {i : Instruction}
    (h : read row = .ok (some (.instruction i))) : i.operands.Fits := by
  rcases read_cases h with ⟨_, hnone⟩ | ⟨_, _, _, _, hdata⟩ | ⟨_, _, _, hread, _, heq⟩
  · exact nomatch hnone
  · exact nomatch hdata
  · cases heq
    exact Layout.fits_of_read hread

end Statement

namespace Source

theorem fits_of_mem_placed {src : Text} {placed : List Placed} (h : statements src = .ok placed)
    {line : Nat} {i : Instruction} (hmem : ⟨line, .instruction i⟩ ∈ placed) :
    i.operands.Fits := by
  rcases exists_row_of_mem_placed h hmem with ⟨_, row, _, hread⟩
  exact Statement.fits_of_read hread

end Source

namespace Program

/-- The bytes of a statement lie behind the bytes of the statements in front of
    it. -/
theorem bytes_ofStatements_append (earlier : List Placed) (p : Placed) (later : List Placed) :
    (ofStatements (earlier ++ p :: later)).bytes
      = (ofStatements earlier).bytes ++ (p.bytes ++ (ofStatements later).bytes) := by
  simp only [ofStatements, List.flatMap_append, List.flatMap_cons]

end Program

namespace Machine

theorem setRegister_ip (m : Machine) (value : UInt16) :
    m.setRegister Register.ip.number value = (.ok (), { m with ip := value }) := by
  rw [setRegister, Register.ofNumber?_number]

/-- An instruction of a source is what the machine fetches at the address of
    its bytes, once the program is loaded. The two calls that share their words
    with `clear` and `ret` are fetched as these. -/
theorem fetch_written {src : Text} {program : Program} {earlier later : List Placed}
    {line : Nat} {i : Instruction} (hassemble : Source.assemble src = .ok program)
    (hfit : program.bytes.length ≤ memorySize - programStart)
    (hplaced : Source.statements src = .ok (earlier ++ ⟨line, .instruction i⟩ :: later))
    (m : Machine) :
    (m.after [.load program.bytes, .setRegister Register.ip.number
      (programStart + (Program.ofStatements earlier).bytes.length).toUInt16]).fetch
        = .ok i.resolve := by
  have hfits : i.operands.Fits :=
    Source.fits_of_mem_placed hplaced (List.mem_append_right _ List.mem_cons_self)
  have hbytes : program.bytes = (Program.ofStatements earlier).bytes ++
      (i.word >>> 8).toUInt8 :: i.word.toUInt8 :: (Program.ofStatements later).bytes := by
    rw [Source.assemble, hplaced] at hassemble
    cases hassemble
    exact Program.bytes_ofStatements_append _ _ _
  have hfit := Nat.add_le_of_le_sub' (show programStart ≤ memorySize by decide) hfit
  have hholds : (Memory.ofProgram program.bytes).Holds ((Program.ofStatements earlier).bytes ++
      (i.word >>> 8).toUInt8 :: i.word.toUInt8 :: (Program.ofStatements later).bytes) := by
    rw [← hbytes]
    exact Memory.holds_ofProgram hfit
  -- An address in memory is no wider than the instruction pointer.
  have hlength : (Program.ofStatements earlier).bytes.length < program.bytes.length := by
    rw [hbytes, List.length_append, List.length_cons]
    omega
  have hip : (programStart + (Program.ofStatements earlier).bytes.length).toUInt16.toNat
      = programStart + (Program.ofStatements earlier).bytes.length :=
    UInt16.toNat_ofNat_of_lt (Nat.lt_of_lt_of_le (by omega) (Nat.le_trans hfit (by decide)))
  rw [after_cons, after_cons, after_nil, Operation.apply, Operation.apply, load_of_fit hfit,
    setRegister_ip, fetch_of_holds rfl hholds hip, wordOfBytes_bytes,
    Instruction.decode?_word_eq_resolve hfits]

/-- An instruction behind a single data byte, at an odd address. -/
theorem fetch_written_odd :
    ((idle 0).after [.load [0x07, 0x61, 0x2A], .setRegister Register.ip.number 0x201]).fetch
      = .ok ⟨.li, .registerByte 1 0x2A, rfl⟩ :=
  fetch_written
    (show Source.assemble "db 7\nli v1, 42".toList = .ok ⟨[0x07, 0x61, 0x2A], [1, 2, 2]⟩ from rfl)
    (show 3 ≤ memorySize - programStart by decide)
    (show Source.statements "db 7\nli v1, 42".toList
      = .ok ([⟨1, .data [0x07]⟩] ++ ⟨2, .instruction ⟨.li, .registerByte 1 0x2A, rfl⟩⟩ :: [])
      from rfl)
    (idle 0)

/-- A call that the assembler accepts, and the machine fetches as `clear`. -/
theorem fetch_call_as_clear :
    Source.assemble "call 0xE0".toList = .ok ⟨[0x00, 0xE0], [1, 1]⟩ ∧
      Source.statements "call 0xE0".toList
        = .ok [⟨1, .instruction ⟨.call, .address 0x0E0, rfl⟩⟩] ∧
      ((idle 0).after [.load [0x00, 0xE0], .setRegister Register.ip.number 0x200]).fetch
        = .ok ⟨.clear, .bare, rfl⟩ ∧
      (⟨.clear, .bare, rfl⟩ : Instruction) ≠ ⟨.call, .address 0x0E0, rfl⟩ := by
  refine ⟨rfl, rfl, ?_, by decide⟩
  have hholds : (Memory.ofProgram [0x00, 0xE0]).Holds ([] ++ 0x00 :: 0xE0 :: []) :=
    Memory.holds_ofProgram (by decide)
  have hdecode : Instruction.decode? (wordOfBytes 0x00 0xE0) = some ⟨.clear, .bare, rfl⟩ := by
    decide +kernel
  have hfetch := fetch_of_holds (m := { start [0x00, 0xE0] (idle 0).random with ip := 0x200 })
    rfl hholds rfl
  rw [after_cons, after_cons, after_nil, Operation.apply, Operation.apply,
    load_of_fit (by decide), setRegister_ip, hfetch, hdecode]

end Machine

end Chip8

import Chip8.Proofs.Listing.FixedPoint
import Chip8.Proofs.Listing.Reach

/-!
# Listings Cover Their Bytes

What a listing shows at which offset. Its items follow one another without gaps
and without overlaps, and each shows the bytes at its own offset. An instruction
is shown only where control reaches one. The other way round there is an
exception, as reached words may overlap: an instruction is not shown if an item
in front of it starts at a reached offset and has its first byte.

The disassembler collects the items in reverse while it walks over the bytes.
`Tiled` says what it walks over, one constructor for every way to go on, and
nothing about marks: what is taken for code is any property of offsets. The
proofs are inductions on it. They look at the bytes as what is left of all bytes
behind an offset, because instructions are found at offsets of the whole.

## Main definitions

* `Tiled`: Items as they are laid for what is taken for code.
* `IsTiling`: Items that cover bytes and show code where it is reached.
* `Shows`, `IsShown`: What an item says of the bytes, and which instructions the
  items show.

## Theorems

* `exists_tile_eq`, `tiled_items`: The disassembler lays items in this way.
* `Tiled.unique`: There is one way to lay them.
* `Tiled.offsets`: They cover the offsets of the bytes.
* `Tiled.shows`: What is shown is there.
* `Tiled.shown`: Code that is there is shown, unless its first byte is not free.
* `lines_disassemble`: The listing, line for line.
-/

namespace Chip8

open Text

namespace Disassembly

open Coverage

/-- Items that are laid for bytes from an offset on, given what is taken for
    code. -/
inductive Tiled (isCode : Nat → Prop) : Nat → List UInt8 → List (Nat × Item) → Prop where
  /-- A word that is taken for code, and decodes. -/
  | code {offset : Nat} {hi lo : UInt8} {rest : List UInt8} {i : Instruction}
      {placed : List (Nat × Item)} (hcode : isCode offset)
      (hdecode : Instruction.decode? (wordOfBytes hi lo) = some i)
      (hrest : Tiled isCode (offset + 2) rest placed) :
      Tiled isCode offset (hi :: lo :: rest) ((offset, .code i) :: placed)
  /-- A word that is taken for code and does not decode. Its bytes stay together. -/
  | word {offset : Nat} {hi lo : UInt8} {rest : List UInt8} {placed : List (Nat × Item)}
      (hcode : isCode offset) (hdecode : Instruction.decode? (wordOfBytes hi lo) = none)
      (hrest : Tiled isCode (offset + 2) rest placed) :
      Tiled isCode offset (hi :: lo :: rest)
        ((offset, .data hi) :: (offset + 1, .data lo) :: placed)
  /-- A byte that is not taken for the start of code. -/
  | byte {offset : Nat} {hi lo : UInt8} {rest : List UInt8} {placed : List (Nat × Item)}
      (hcode : ¬isCode offset) (hrest : Tiled isCode (offset + 1) (lo :: rest) placed) :
      Tiled isCode offset (hi :: lo :: rest) ((offset, .data hi) :: placed)
  /-- The last byte, which has no room for a word. -/
  | last (offset : Nat) (b : UInt8) : Tiled isCode offset [b] [(offset, .data b)]
  /-- Nothing is left. -/
  | nil (offset : Nat) : Tiled isCode offset [] []

/-- Items that cover bytes, each at the offset of the bytes that it shows, with
    code where control reaches it. -/
structure IsTiling (bytes : List UInt8) (placed : List (Nat × Item)) : Prop where
  /-- The items take up the offsets of the bytes, in order and each of them once. -/
  offsets : placed.flatMap (fun p => List.range' p.1 p.2.bytes.length) = List.range bytes.length
  /-- An item has the bytes at its offset. -/
  content : ∀ p ∈ placed, p.2.bytes = (bytes.drop p.1).take p.2.bytes.length
  /-- Instructions are shown where control reaches them. -/
  code : ∀ offset i, (offset, Item.code i) ∈ placed →
    offset ∈ codeOffsets bytes ∧ instructionAt? bytes offset = some i
  /-- Everything else is shown byte by byte. -/
  data : ∀ offset b, (offset, Item.data b) ∈ placed → bytes[offset]? = some b
  /-- Instructions that control reaches are shown, or an item at an offset that it
      reaches as well starts one byte in front of them. -/
  shown : ∀ offset ∈ codeOffsets bytes, ∀ i, instructionAt? bytes offset = some i →
    (offset, Item.code i) ∈ placed ∨
      ∃ front ∈ codeOffsets bytes, front + 1 = offset ∧ front ∈ placed.map Prod.fst

/-! ## What is laid -/

-- Items are collected in front of those that are laid already.
theorem exists_tile_eq (isCode : Nat → Bool) (laid : List (Nat × Item)) (offset : Nat)
    (bytes : List UInt8) :
    ∃ placed, tile isCode laid offset bytes = laid.reverse ++ placed ∧
      Tiled (fun o => isCode o = true) offset bytes placed := by
  -- One case for each way to lay the next item.
  fun_induction tile isCode laid offset bytes with
  | case1 laid offset hi lo rest hcode i hdecode ih =>
      rcases ih with ⟨placed, heq, htiled⟩
      refine ⟨_, ?_, .code hcode hdecode htiled⟩
      rw [heq, List.reverse_cons, List.append_assoc, List.singleton_append]
  | case2 laid offset hi lo rest hcode hdecode ih =>
      rcases ih with ⟨placed, heq, htiled⟩
      refine ⟨_, ?_, .word hcode hdecode htiled⟩
      rw [heq, List.reverse_cons, List.reverse_cons, List.append_assoc, List.append_assoc]
      rfl
  | case3 laid offset hi lo rest hcode ih =>
      rcases ih with ⟨placed, heq, htiled⟩
      refine ⟨_, ?_, .byte hcode htiled⟩
      rw [heq, List.reverse_cons, List.append_assoc, List.singleton_append]
  | case4 laid offset b => exact ⟨_, List.reverse_cons, .last offset b⟩
  | case5 laid offset => exact ⟨_, (List.append_nil _).symm, .nil offset⟩

-- The disassembler takes for code what control reaches.
theorem tiled_items (bytes : List UInt8) :
    Tiled (Reached programStart bytes) 0 bytes (items bytes) := by
  rcases exists_tile_eq (fun offset => (codeMarks bytes.toArray).getD offset false) [] 0 bytes
    with ⟨placed, heq, htiled⟩
  have hitems : items bytes = placed := heq
  -- An offset beyond the marks is not marked, as it is not reached.
  have hcode : (fun offset => (codeMarks bytes.toArray).getD offset false = true)
      = Reached programStart bytes := by
    funext offset
    rw [← isMarked_iff_reached, IsMarked, Array.getD_eq_getD_getElem?]
    cases (codeMarks bytes.toArray)[offset]? with
    | none => simp only [Option.getD_none, reduceCtorEq, Bool.false_eq_true]
    | some mark => rw [Option.getD_some, Option.some.injEq]
  rwa [hitems, ← hcode]

section

variable {isCode : Nat → Prop} {offset : Nat} {bytes : List UInt8} {placed : List (Nat × Item)}

/-- There is one way to lay items. -/
theorem Tiled.unique (h : Tiled isCode offset bytes placed) {other : List (Nat × Item)}
    (hother : Tiled isCode offset bytes other) : other = placed := by
  -- Two ways to lay the next item exclude each other, by the mark or by what is decoded.
  induction h generalizing other with
  | code hcode hdecode _ ih =>
      cases hother with
      | code _ hdecode' hrest =>
          cases hdecode.symm.trans hdecode'
          rw [ih hrest]
      | word _ hdecode' _ => exact nomatch hdecode.symm.trans hdecode'
      | byte hcode' _ => exact absurd hcode hcode'
  | word hcode hdecode _ ih =>
      cases hother with
      | code _ hdecode' _ => exact nomatch hdecode.symm.trans hdecode'
      | word _ _ hrest => rw [ih hrest]
      | byte hcode' _ => exact absurd hcode hcode'
  | byte hcode _ ih =>
      cases hother with
      | code hcode' _ _ => exact absurd hcode' hcode
      | word hcode' _ _ => exact absurd hcode' hcode
      | byte _ hrest => rw [ih hrest]
  | last offset b =>
      cases hother with
      | last => rfl
  | nil offset =>
      cases hother with
      | nil => rfl

/-- Items cover the offsets of the bytes that they are laid for. -/
theorem Tiled.offsets (h : Tiled isCode offset bytes placed) :
    placed.flatMap (fun p => List.range' p.1 p.2.bytes.length)
      = List.range' offset bytes.length := by
  induction h with
  | code _ _ _ ih =>
      rw [List.flatMap_cons, ih]
      rfl
  | word _ _ _ ih =>
      rw [List.flatMap_cons, List.flatMap_cons, ih]
      rfl
  | byte _ _ ih =>
      rw [List.flatMap_cons, ih]
      rfl
  | last => rfl
  | nil => rfl

/-- An item shows what is at its offset, and code only where there is an
    instruction that is taken for code. -/
def Shows (isCode : Nat → Prop) (whole : List UInt8) (p : Nat × Item) : Prop :=
  match p.2 with
  | .code i => isCode p.1 ∧ instructionAt? whole p.1 = some i
  | .data b => whole[p.1]? = some b

variable {whole : List UInt8}

-- The bytes behind the ones that an item is laid for.
theorem drop_add {rest : List UInt8} (front : List UInt8)
    (hdrop : whole.drop offset = front ++ rest) : whole.drop (offset + front.length) = rest := by
  rw [← List.drop_drop, hdrop, List.drop_left]

/-- What is shown is there. -/
theorem Tiled.shows (h : Tiled isCode offset bytes placed) (hdrop : whole.drop offset = bytes) :
    ∀ p ∈ placed, Shows isCode whole p := by
  -- The bytes that are left are those of the whole from this offset on.
  induction h with
  | @code offset hi lo rest i placed hcode hdecode _ ih =>
      rw [List.forall_mem_cons]
      exact ⟨⟨hcode, (instructionAt?_of_drop hdrop).trans hdecode⟩,
        ih (drop_add [hi, lo] hdrop)⟩
  | @word offset hi lo rest placed _ _ _ ih =>
      rw [List.forall_mem_cons, List.forall_mem_cons]
      exact ⟨getElem?_of_drop hdrop, getElem?_of_drop (drop_add [hi] hdrop),
        ih (drop_add [hi, lo] hdrop)⟩
  | @byte offset hi lo rest placed _ _ ih =>
      rw [List.forall_mem_cons]
      exact ⟨getElem?_of_drop hdrop, ih (drop_add [hi] hdrop)⟩
  | last offset b =>
      rw [List.forall_mem_singleton]
      exact getElem?_of_drop hdrop
  | nil offset => exact List.forall_mem_nil _

/-- An instruction is shown, or its first byte is the second one of an item that
    is taken for code. -/
def IsShown (isCode : Nat → Prop) (placed : List (Nat × Item)) (offset : Nat) (i : Instruction) :
    Prop :=
  (offset, Item.code i) ∈ placed ∨
    ∃ front, isCode front ∧ front + 1 = offset ∧ front ∈ placed.map Prod.fst

-- What is shown stays shown when there are more items.
theorem IsShown.mono {more : List (Nat × Item)} (hsub : placed ⊆ more) {i : Instruction}
    (h : IsShown isCode placed offset i) : IsShown isCode more offset i := by
  rcases h with hmem | ⟨front, hcode, hnext, hmem⟩
  · exact Or.inl (hsub hmem)
  · exact Or.inr ⟨front, hcode, hnext, List.map_subset _ hsub hmem⟩

/-- Instructions that are taken for code are shown, unless their first byte is
    not free. -/
theorem Tiled.shown (h : Tiled isCode offset bytes placed) (hdrop : whole.drop offset = bytes)
    {other : Nat} (hle : offset ≤ other) (hother : isCode other) {i : Instruction}
    (hi : instructionAt? whole other = some i) : IsShown isCode placed other i := by
  induction h with
  | @code offset hi' lo rest i' placed hcode hdecode _ ih =>
      rcases Nat.eq_or_lt_of_le hle with rfl | hlt
      · cases hi.symm.trans ((instructionAt?_of_drop hdrop).trans hdecode)
        exact Or.inl List.mem_cons_self
      · rcases Nat.eq_or_lt_of_le hlt with rfl | hlt
        · exact Or.inr ⟨offset, hcode, rfl, List.mem_cons_self⟩
        · exact (ih (drop_add [hi', lo] hdrop) hlt).mono (List.subset_cons_self _ _)
  | @word offset hi' lo rest placed hcode hdecode _ ih =>
      rcases Nat.eq_or_lt_of_le hle with rfl | hlt
      · exact nomatch hi.symm.trans ((instructionAt?_of_drop hdrop).trans hdecode)
      · rcases Nat.eq_or_lt_of_le hlt with rfl | hlt
        · exact Or.inr ⟨offset, hcode, rfl, List.mem_cons_self⟩
        · exact (ih (drop_add [hi', lo] hdrop) hlt).mono
            fun _ hmem => List.mem_cons_of_mem _ (List.mem_cons_of_mem _ hmem)
  | @byte offset hi' lo rest placed hcode _ ih =>
      rcases Nat.eq_or_lt_of_le hle with rfl | hlt
      · exact absurd hother hcode
      · exact (ih (drop_add [hi'] hdrop) hlt).mono (List.subset_cons_self _ _)
  | last offset b =>
      -- There is no room for a word.
      have hlength : whole.length - offset = 1 := by
        rw [← List.length_drop, hdrop, List.length_singleton]
      have hlt := instructionAt?_lt hi
      omega
  | nil offset =>
      have hlength : whole.length - offset = 0 := by
        rw [← List.length_drop, hdrop, List.length_nil]
      have hlt := instructionAt?_lt hi
      omega

end

/-! ## The listing -/

-- The bytes of an item that is shown are the bytes at its offset.
theorem Shows.bytes_eq {isCode : Nat → Prop} {whole : List UInt8} {p : Nat × Item}
    (h : Shows isCode whole p) : p.2.bytes = (whole.drop p.1).take p.2.bytes.length := by
  rcases p with ⟨offset, item⟩
  cases item with
  | code i =>
      rcases exists_drop_of_instructionAt? h.2 with ⟨hi, lo, rest, hdrop, hdecode⟩
      have hbytes : (Item.code i).bytes = [hi, lo] := Instruction.bytes_of_decode? hdecode
      rw [hbytes, hdrop]
      rfl
  | data b =>
      rcases List.getElem?_eq_some_iff.mp h with ⟨hlt, hb⟩
      have hbytes : (Item.data b).bytes = [b] := rfl
      rw [hbytes, List.drop_eq_getElem_cons hlt, hb]
      rfl

/-- The lines of a listing show their own offsets and bytes. Their items cover
    all bytes, and show code where control reaches it. -/
theorem lines_disassemble (bytes : List UInt8) :
    Text.lines (disassemble bytes)
        = (items bytes).map (fun p => stamp p.1 p.2.bytes ++ ' ' :: p.2.source) ∧
      IsTiling bytes (items bytes) := by
  have hcode : Reached programStart bytes = (· ∈ codeOffsets bytes) :=
    funext fun offset => propext (mem_codeOffsets_iff_reached bytes offset).symm
  have htiled := tiled_items bytes
  rw [hcode] at htiled
  -- From the start on, the bytes that are laid are all bytes.
  have hdrop : bytes.drop 0 = bytes := List.drop_zero
  have hshows := htiled.shows hdrop
  refine ⟨?_, ?_, fun p hp => (hshows p hp).bytes_eq, fun offset i hmem => hshows _ hmem,
    fun offset b hmem => hshows _ hmem, fun offset hoffset i hi =>
      htiled.shown hdrop (Nat.zero_le offset) hoffset hi⟩
  · rw [disassemble_eq_listing, lines_listing, ← items_eq_lay]
    rfl
  · rw [htiled.offsets, List.range_eq_range']

-- The jump leads to its own second byte. The word there is reached as well, but
-- only its last byte is left to be shown.
example : codeOffsets [0x12, 0x01, 0xE0] = [0, 1] ∧
    instructionAt? [0x12, 0x01, 0xE0] 1 = some ⟨.call, .address 0x1E0, rfl⟩ ∧
    items [0x12, 0x01, 0xE0] = [(0, .code ⟨.jmp, .address 0x201, rfl⟩), (2, .data 0xE0)] := by
  decide +kernel

end Disassembly

end Chip8

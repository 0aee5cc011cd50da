import Chip8.Proofs.Listing.Tiling
import Chip8.Proofs.Source.Plain

/-!
# A Block Shown as Code

The bytes of one statement are shown as code as if they were a program of their
own, and the lines that come out are then stamped with the addresses at which
they are. For the stamps it does not matter where the block was said to be, but
for what is shown it does. Jumps and calls name addresses. The search for code
takes the first byte of the block for the first byte of a program, so it looks for
their targets as far away from it as they are from the start of the program.

What is shown is therefore a listing of the block at the address of a program. It
is a listing at the address of the block if control reaches the same offsets from
either address. That is so if the block is the first one, and if no jump or call
is reached in it, as all other instructions lead a few bytes ahead. It need not be
so otherwise, and `asCode_misplaced` shows a jump inside of a block whose target is
shown as data.

## Main definitions

* `Disassembly.ListedAt`: The listing of bytes at an address.
* `Instruction.Onward`: Instructions that lead a few bytes ahead.

## Theorems

* `listedAt_items`: What the disassembler lays is the listing of a program.
* `exists_listedAt`, `ListedAt.unique`: There is one listing at each address.
* `ListedAt.move`: Listings at two addresses from which control reaches the same.
* `reached_iff_of_onward`: Without jumps and calls, the address does not matter.
* `bareLines_joinRows_between`, `lines_restamp_between`: A listing that is put in
  between other lines.
* `lines_asCode`: The lines of a block that is shown as code.
* `asCode_misplaced`: A block whose listing is another one at its own address.
-/

namespace Chip8

open Text Comment

/-! ## Listings at an address -/

/-- Instructions that lead a few bytes ahead, if anywhere. -/
def Instruction.Onward (i : Instruction) : Prop :=
  i.op ≠ .jmp ∧ i.op ≠ .call ∧ i.op ≠ .callptr

instance (i : Instruction) : Decidable i.Onward :=
  inferInstanceAs (Decidable (_ ∧ _ ∧ _))

-- How far they lead does not depend on where they are.
theorem Instruction.Onward.unboundedSuccessors_eq {i : Instruction} (h : i.Onward) (ip : Nat) :
    i.unboundedSuccessors ip = (i.unboundedSuccessors 0).map (ip + ·) := by
  rcases h with ⟨hjmp, hcall, hcallptr⟩
  cases hop : i.op with
  | jmp => exact absurd hop hjmp
  | call => exact absurd hop hcall
  | callptr => exact absurd hop hcallptr
  | _ => simp only [unboundedSuccessors, hop, List.map_cons, List.map_nil, Nat.zero_add]

namespace Coverage

variable {base base' : Nat} {bytes : List UInt8}

/-- Control reaches the same offsets from two addresses, if it passes alike
    between those that it reaches from one of them. -/
theorem reached_congr
    (h : ∀ source target, Reached base bytes source →
      (Passes base bytes source target ↔ Passes base' bytes source target)) (offset : Nat) :
    Reached base bytes offset ↔ Reached base' bytes offset := by
  constructor
  · intro hreached
    induction hreached with
    | entry hlength => exact .entry hlength
    | pass hsource hpasses ih => exact .pass ih ((h _ _ hsource).mp hpasses)
  · intro hreached
    induction hreached with
    | entry hlength => exact .entry hlength
    | pass _ hpasses ih => exact .pass ih ((h _ _ ih).mpr hpasses)

-- Where control passes to from an instruction that leads ahead.
theorem passes_iff_of_onward {source target : Nat} {i : Instruction}
    (hi : instructionAt? bytes source = some i) (honward : i.Onward)
    (hlow : programStart ≤ base) (hhigh : base + bytes.length ≤ 0x10000) :
    Passes base bytes source target ↔
      target + 1 < bytes.length ∧ ∃ ahead ∈ i.unboundedSuccessors 0, source + ahead = target := by
  have hstart : programStart = 0x200 := rfl
  have hsource := instructionAt?_lt hi
  constructor
  · rintro ⟨found, hfound, address, hmem, hbase, htarget, hlt⟩
    cases hi.symm.trans hfound
    refine ⟨hlt, ?_⟩
    -- The address does not wrap, so the instruction leads there by its distance alone.
    have hunbounded := Instruction.mem_unboundedSuccessors (by omega) hmem (Nat.le_trans hlow hbase)
    rw [honward.unboundedSuccessors_eq] at hunbounded
    rcases List.mem_map.mp hunbounded with ⟨ahead, hahead, heq⟩
    exact ⟨ahead, hahead, by omega⟩
  · rintro ⟨hlt, ahead, hahead, rfl⟩
    -- The other way about, the target is inside of the bytes and has an address.
    have haddress : (source + base + ahead).toUInt16.toNat = source + base + ahead :=
      UInt16.toNat_ofNat_of_lt' (by rw [UInt16.size]; omega)
    refine ⟨i, hi, (source + base + ahead).toUInt16, ?_, ?_, ?_, hlt⟩
    · rw [Instruction.successors_toUInt16, honward.unboundedSuccessors_eq, List.map_map]
      exact List.mem_map_of_mem hahead
    · omega
    · omega

/-- Without jumps and calls, the address does not matter. -/
theorem reached_iff_of_onward
    (honward : ∀ source i, Reached base bytes source → instructionAt? bytes source = some i →
      i.Onward)
    (hlow : programStart ≤ base) (hhigh : base + bytes.length ≤ 0x10000)
    (hlow' : programStart ≤ base') (hhigh' : base' + bytes.length ≤ 0x10000) (offset : Nat) :
    Reached base bytes offset ↔ Reached base' bytes offset := by
  refine reached_congr (fun source target hsource => ?_) offset
  cases hi : instructionAt? bytes source with
  | none =>
      refine iff_of_false ?_ ?_ <;>
        · rintro ⟨_, hfound, _⟩
          exact nomatch hi.symm.trans hfound
  | some i =>
      have hahead := honward source i hsource hi
      rw [passes_iff_of_onward hi hahead hlow hhigh, passes_iff_of_onward hi hahead hlow' hhigh']

end Coverage

namespace Disassembly

open Coverage

/-- The listing of bytes that start at an address. Control enters them at their
    first byte, and the targets of jumps and calls are addresses. -/
def ListedAt (base : Nat) (bytes : List UInt8) (placed : List (Nat × Item)) : Prop :=
  Tiled (Reached base bytes) 0 bytes placed

theorem listedAt_items (bytes : List UInt8) : ListedAt programStart bytes (items bytes) :=
  tiled_items bytes

/-- Bytes have a listing at every address. -/
theorem exists_listedAt (base : Nat) (bytes : List UInt8) :
    ∃ placed, ListedAt base bytes placed := by
  classical
  rcases exists_tile_eq (fun offset => decide (Reached base bytes offset)) [] 0 bytes
    with ⟨placed, _, htiled⟩
  simp only [decide_eq_true_iff] at htiled
  exact ⟨placed, htiled⟩

theorem ListedAt.unique {base : Nat} {bytes : List UInt8} {placed placed' : List (Nat × Item)}
    (h : ListedAt base bytes placed) (h' : ListedAt base bytes placed') : placed' = placed :=
  Tiled.unique h h'

/-- A listing is one at another address as well, if control reaches the same
    offsets from there. -/
theorem ListedAt.move {base base' : Nat} {bytes : List UInt8} {placed : List (Nat × Item)}
    (h : ListedAt base bytes placed)
    (hreached : ∀ offset, Reached base bytes offset ↔ Reached base' bytes offset) :
    ListedAt base' bytes placed := by
  rwa [ListedAt, ← funext fun offset => propext (hreached offset)]

/-- Items that are laid from some offset on, shown further behind. -/
theorem map_line_lay (offset start : Nat) (items : List Item) :
    (lay start items).map (fun p => p.2.line (offset + p.1))
      = written (lay (offset + start) items) := by
  induction items generalizing start with
  | nil => rw [lay, lay, written, List.map_nil, List.map_nil]
  | cons item items ih =>
      rw [lay, lay, List.map_cons, ih, written, written, List.map_cons, Nat.add_assoc]

end Disassembly

namespace Revision

open Disassembly Coverage

/-! ## Lines put in between others -/

theorem showLines_append (offset : Nat) {emitted : List (List UInt8)} {lines : List Text}
    (hlength : emitted.length = lines.length) (more : List (List UInt8)) (rest : List Text) :
    showLines offset (emitted ++ more) (lines ++ rest)
      = showLines offset emitted lines
        ++ showLines (offset + emitted.flatten.length) more rest := by
  induction lines generalizing offset emitted with
  | nil =>
      rw [List.length_eq_zero_iff.mp hlength]
      rfl
  | cons line lines ih =>
      cases emitted with
      | nil => exact absurd hlength nofun
      | cons bytes emitted =>
          rw [List.cons_append, List.cons_append, showLines, showLines, List.headD_cons,
            List.tail_cons, List.headD_cons, List.tail_cons,
            ih _ (Nat.succ.inj hlength), List.flatten_cons, List.length_append, Nat.add_assoc]
          rfl

theorem length_showLines (offset : Nat) (emitted : List (List UInt8)) (lines : List Text) :
    (showLines offset emitted lines).length = lines.length := by
  induction lines generalizing offset emitted with
  | nil => rfl
  | cons line lines ih => rw [showLines, List.length_cons, List.length_cons, ih]

-- Without stamps and comments, the bytes on lines are those on each line alone.
theorem showLines_of_not_mem {ls : List Text} (hnewline : ∀ l ∈ ls, '\n' ∉ l)
    (hhash : ∀ l ∈ ls, '#' ∉ l) (offset : Nat) :
    showLines offset (emitted ls) ls = showLines offset (ls.map Statement.bytesOn) ls := by
  rw [showLines_emitted hnewline, map_dropStamp_of_not_mem hhash, rowCodes_of_not_mem hhash]

/-- The lines of a text in which a listing has been put between lines without
    hashes. Those in front give up their carriage returns. -/
theorem bareLines_joinRows_between {above below : List Text} {items : List Item}
    (habove : ∀ l ∈ above, '\n' ∉ l ∧ '#' ∉ l) (hbelow : ∀ l ∈ below, '\n' ∉ l ∧ '#' ∉ l)
    (hne : items ≠ []) :
    bareLines (joinRows (above ++ (written (lay 0 items) ++ below)))
        = above.map dropReturn ++ (items.map (' ' :: ·.source) ++ Text.lines (joinRows below)) ∧
      ∀ l ∈ bareLines (joinRows (above ++ (written (lay 0 items) ++ below))), '#' ∉ l := by
  have hnewline : ∀ l ∈ below, '\n' ∉ l := fun l hl => (hbelow l hl).1
  have hshown : written (lay 0 items) ≠ [] := by
    rw [← List.length_pos_iff, length_written_lay, List.length_pos_iff]
    exact hne
  -- Lines of a listing end in no carriage return, so only those above have any to give up.
  have hlines : Text.lines (joinRows (written (lay 0 items) ++ below))
      = written (lay 0 items) ++ Text.lines (joinRows below) := by
    by_cases hnil : below = []
    · rw [hnil, List.append_nil, lines_joinRows newline_not_mem_written line_of_mem_written]
      exact (List.append_nil _).symm
    · rw [lines_joinRows_append newline_not_mem_written hnewline hnil, map_dropReturn_written]
  -- All that is around the listing is without hashes, so it has no stamps.
  have hfront : ∀ l ∈ above.map dropReturn, '#' ∉ l := by
    intro l hl
    rcases List.mem_map.mp hl with ⟨r, hr, rfl⟩
    exact hash_not_mem_dropReturn (habove r hr).2
  have hbehind : ∀ l ∈ Text.lines (joinRows below), '#' ∉ l :=
    hash_not_mem_lines (hash_not_mem_joinRows fun l hl => (hbelow l hl).2)
  have hsources : (lay 0 items).map (' ' :: ·.2.source) = items.map (' ' :: ·.source) := by
    conv_rhs => rw [← map_snd_lay 0 items, List.map_map]
    rfl
  have hbare : bareLines (joinRows (above ++ (written (lay 0 items) ++ below)))
      = above.map dropReturn ++ (items.map (' ' :: ·.source) ++ Text.lines (joinRows below)) := by
    rw [bareLines, lines_joinRows_append (fun l hl => (habove l hl).1)
        (List.forall_mem_append.mpr ⟨newline_not_mem_written, hnewline⟩)
        (List.append_ne_nil_of_left_ne_nil hshown _), hlines, List.map_append, List.map_append,
      map_dropStamp_written, hsources, map_dropStamp_of_not_mem hfront,
      map_dropStamp_of_not_mem hbehind]
  refine ⟨hbare, ?_⟩
  rw [hbare, List.forall_mem_append, List.forall_mem_append, ← hsources]
  exact ⟨hfront, hash_not_mem_sources _, hbehind⟩

/-- What a revision of the stamps makes of a listing between other lines. The
    items are shown at the offset behind the bytes in front of them. -/
theorem lines_restamp_between {above below : List Text} {items : List Item} {t : Text}
    (habove : ∀ l ∈ above, '\n' ∉ l ∧ '#' ∉ l) (hbelow : ∀ l ∈ below, '\n' ∉ l ∧ '#' ∉ l)
    (hfits : ∀ item ∈ items, item.Fits) (hne : items ≠ [])
    (h : restamp (joinRows (above ++ (written (lay 0 items) ++ below))) = .ok t) :
    ∃ above' below', above'.length = above.length ∧
      Text.lines t = above'
        ++ (written (lay (above.flatMap Statement.bytesOn).length items) ++ below') := by
  rcases bareLines_joinRows_between habove hbelow hne with ⟨hbare, hhash⟩
  rw [restamp_eq] at h
  rcases exists_of_map_eq_ok h with ⟨_, _, rfl⟩
  have hnewline : ∀ l ∈ bareLines (joinRows (above ++ (written (lay 0 items) ++ below))),
      '\n' ∉ l := fun l hl => newline_not_mem_bareLines hl
  -- Carriage returns make no difference to the bytes in front.
  have hoffset : ((above.map dropReturn).map Statement.bytesOn).flatten
      = above.flatMap Statement.bytesOn := by
    rw [List.map_map, List.flatMap_def]
    refine congrArg List.flatten (List.map_congr_left fun r _ => ?_)
    rw [Function.comp_apply, Statement.bytesOn, Statement.bytesOn, Statement.read_dropReturn]
  -- The stamps are counted through, line by line, in three parts.
  rw [lines_terminate (newline_not_mem_showLines hnewline 0 _), showLines_of_not_mem hnewline hhash,
    hbare, List.map_append, List.map_append, showLines_append 0 (List.length_map _),
    map_bytesOn_sources hfits, showLines_append _ (by rw [List.length_map, List.length_map]),
    showLines_sources, hoffset, Nat.zero_add, List.map_append, List.map_append,
    map_dropReturn_written]
  exact ⟨_, _, by rw [List.length_map, length_showLines, List.length_map], rfl⟩

/-! ## The lines of a block -/

theorem lineBytes_of_read {line : Text} {s : Statement} (hhash : '#' ∉ line)
    (hread : Statement.read line = .ok (some s)) (number : Nat) :
    lineBytes number line = .ok s.bytes := by
  rw [lineBytes, dropStamp_of_not_mem hhash, stripComments_of_not_mem hhash, Source.placeRow, hread]
  rfl

-- A line with more than one byte is shown as code by itself.
theorem asCode_of_bytes {number : Nat} {src line : Text} {front behind : List Text}
    {bytes : List UInt8} (hcontext : lineContext? number src = some (front, line, behind))
    (hline : lineBytes number line = .ok bytes) (hlong : 2 ≤ bytes.length) :
    asCode number src = restamp (joinRows (front ++ (Disassembly.lines bytes ++ behind))) := by
  match bytes, hlong with
  | hi :: lo :: rest, _ =>
      rw [asCode, hcontext, ← List.append_assoc]
      dsimp only
      rw [hline]
      dsimp only [bind, Except.bind]

/-- Any line of a source without hashes can be shown as code. -/
theorem exists_asCode_eq_ok {src : Text} {placed : List Placed} (hhash : '#' ∉ src)
    (hplaced : Source.statements src = .ok placed) (number : Nat) :
    ∃ t, asCode number src = .ok t := by
  have hassemble : Source.assemble src = .ok (Program.ofStatements placed) := by
    rw [Source.assemble, hplaced]
    rfl
  have heven : ∀ l ∈ Text.lines src, hashes (dropStamp l) % 2 = 0 := by
    intro l hl
    have hline := hash_not_mem_lines hhash l hl
    rw [dropStamp_of_not_mem hline, hashes_eq_zero_iff.mpr hline]
  rcases (keeps_edits_of_even hassemble heven).2 with ⟨t, _, ht, _, _⟩
  exact ⟨t, ht⟩

/-- The lines of a statement that is shown as code. In place of its own line there
    is a listing of its bytes as those of a program, stamped with the addresses at
    which they are. If control reaches the same offsets from the address of a
    program and from that of the statement, it is a listing at this address. -/
theorem lines_asCode {src : Text} {front behind : List Placed} {number : Nat} {s : Statement}
    (hhash : '#' ∉ src) (hplaced : Source.statements src = .ok (front ++ ⟨number, s⟩ :: behind))
    (hlong : 2 ≤ s.bytes.length) :
    ∃ t above shown below, asCode number src = .ok t ∧ above.length + 1 = number ∧
      Text.lines t = above
        ++ (shown.map (fun p => p.2.line ((front.flatMap Placed.bytes).length + p.1)) ++ below) ∧
      ListedAt programStart s.bytes shown ∧
      ((∀ offset, Reached programStart s.bytes offset ↔
          Reached (programStart + (front.flatMap Placed.bytes).length) s.bytes offset) →
        ListedAt (programStart + (front.flatMap Placed.bytes).length) s.bytes shown) := by
  have hlines := hash_not_mem_lines hhash
  have hrows := hplaced
  rw [Source.statements_eq_placeLines, Source.placeLines_of_not_mem hlines] at hrows
  rcases Source.exists_row_of_append hrows with ⟨above, line, below, hsplit, hnumber, hread, hfront⟩
  dsimp only at hnumber
  have hnewline : ∀ l ∈ Text.lines src, '\n' ∉ l := fun l hl => newline_not_mem_lines hl
  have hall : ∀ l ∈ above ++ line :: below, '\n' ∉ l ∧ '#' ∉ l := fun l hl =>
    ⟨hnewline l (hsplit ▸ hl), hlines l (hsplit ▸ hl)⟩
  rw [List.forall_mem_append, List.forall_mem_cons] at hall
  -- The edit puts the listing of the bytes in place of their line.
  have hedit : asCode number src
      = restamp (joinRows (above ++ (written (items s.bytes) ++ below))) := by
    have hcontext := lineContext?_of_lines hsplit
    rw [Nat.add_comm, ← hnumber] at hcontext
    exact asCode_of_bytes hcontext (lineBytes_of_read hall.2.1.2 hread number) hlong
  rcases exists_asCode_eq_ok hhash hplaced number with ⟨t, ht⟩
  have hfits : ∀ item ∈ (items s.bytes).map Prod.snd, item.Fits :=
    fun item hitem => (decoded_of_mem_items item hitem).fits
  have hne : (items s.bytes).map Prod.snd ≠ [] := by
    intro hnil
    have hbytes := bytes_items s.bytes
    rw [List.map_eq_nil_iff.mp hnil] at hbytes
    rw [← hbytes] at hlong
    exact absurd hlong (by decide)
  rw [items_eq_lay] at hedit
  rcases lines_restamp_between hall.1 hall.2.2 hfits hne (hedit.symm.trans ht)
    with ⟨above', below', hlength, heq⟩
  refine ⟨t, above', items s.bytes, below', ht, by omega, ?_, listedAt_items s.bytes,
    (listedAt_items s.bytes).move⟩
  rw [heq, hfront, items_eq_lay, map_line_lay, map_snd_lay]
  rfl

/-- A block without jumps and calls, behind another instruction. -/
theorem lines_asCode_onward :
    ∃ t, asCode 2 "ret\ndb 0x60, 0x05, 0x00, 0xEE\n".toList = .ok t ∧
      Text.lines t = ["#@ 0000 0200 : 00 EE # ret".toList,
        "#@ 0002 0202 : 60 05 # li v0, 0x5".toList, "#@ 0004 0204 : 00 EE # ret".toList] ∧
      ListedAt 0x202 [0x60, 0x05, 0x00, 0xEE]
        [(0, .code ⟨.li, .registerByte 0 5, rfl⟩), (2, .code ⟨.ret, .bare, rfl⟩)] := by
  have hplaced : Source.statements "ret\ndb 0x60, 0x05, 0x00, 0xEE\n".toList
      = .ok ([⟨1, .instruction ⟨.ret, .bare, rfl⟩⟩]
        ++ ⟨2, .data [0x60, 0x05, 0x00, 0xEE]⟩ :: []) := by decide +kernel
  have hoffsets : codeOffsets [0x60, 0x05, 0x00, 0xEE] = [0, 2] := by decide +kernel
  have hitems : items [0x60, 0x05, 0x00, 0xEE]
      = [(0, .code ⟨.li, .registerByte 0 5, rfl⟩), (2, .code ⟨.ret, .bare, rfl⟩)] := by
    decide +kernel
  -- Neither of the two instructions that are reached names an address.
  have hreached : ∀ offset, Reached programStart [0x60, 0x05, 0x00, 0xEE] offset ↔
      Reached 0x202 [0x60, 0x05, 0x00, 0xEE] offset := by
    refine reached_iff_of_onward ?_ (by decide) (by decide) (by decide) (by decide)
    intro source i hsource hi
    rw [← mem_codeOffsets_iff_reached, hoffsets, List.mem_cons, List.mem_singleton] at hsource
    rcases hsource with rfl | rfl
    · cases hi.symm.trans (show _ = some ⟨.li, .registerByte 0 5, rfl⟩ by decide +kernel)
      decide
    · cases hi.symm.trans (show _ = some ⟨.ret, .bare, rfl⟩ by decide +kernel)
      decide
  have hlines : (asCode 2 "ret\ndb 0x60, 0x05, 0x00, 0xEE\n".toList).map Text.lines
      = .ok ["#@ 0000 0200 : 00 EE # ret".toList, "#@ 0002 0202 : 60 05 # li v0, 0x5".toList,
        "#@ 0004 0204 : 00 EE # ret".toList] := by
    decide +kernel
  rcases lines_asCode (by decide) hplaced (by decide)
    with ⟨t, above, shown, below, ht, _, _, hlisted, hmove⟩
  have hshown : shown = items [0x60, 0x05, 0x00, 0xEE] := (listedAt_items _).unique hlisted
  rw [ht] at hlines
  exact ⟨t, ht, Except.ok.inj hlines, hitems ▸ hshown ▸ hmove hreached⟩

/-- A block behind another instruction, in which a jump leads to an instruction of
    the same block. At its own address the listing of the block shows this
    instruction, but the lines of the block do not. -/
theorem asCode_misplaced :
    let src := "ret\ndb 0x12, 0x06, 0xAB, 0xCD, 0x60, 0x05\n".toList
    let block : List UInt8 := [0x12, 0x06, 0xAB, 0xCD, 0x60, 0x05]
    let listed := [(0, Item.code ⟨.jmp, .address 0x206, rfl⟩), (2, .data 0xAB), (3, .data 0xCD),
      (4, .code ⟨.li, .registerByte 0 5, rfl⟩)]
    '#' ∉ src ∧
      Source.statements src
        = .ok ([⟨1, .instruction ⟨.ret, .bare, rfl⟩⟩] ++ ⟨2, .data block⟩ :: []) ∧
      ListedAt 0x202 block listed ∧
      ¬∃ t above below, asCode 2 src = .ok t ∧ above.length + 1 = 2 ∧
        Text.lines t = above ++ (listed.map (fun p => p.2.line (2 + p.1)) ++ below) := by
  intro src block listed
  have hjump : instructionAt? block 0 = some ⟨.jmp, .address 0x206, rfl⟩ := by decide +kernel
  have hload : instructionAt? block 4 = some ⟨.li, .registerByte 0 5, rfl⟩ := by decide +kernel
  have hclosed : FlowClosed 0x202 block {offset | offset = 0 ∨ offset = 4} := by
    refine ⟨?_, fun _ => Or.inl rfl, ?_⟩
    · rintro offset (rfl | rfl) <;> decide
    · rintro source (rfl | rfl) target ⟨i, hi, address, hmem, _, rfl, hlt⟩
      · cases hi.symm.trans hjump
        rw [List.mem_singleton.mp hmem]
        exact Or.inr rfl
      · -- Control runs out of the block.
        cases hi.symm.trans hload
        rw [List.mem_singleton.mp hmem] at hlt
        exact absurd hlt (by decide)
  have hentry : Reached 0x202 block 0 := .entry (by decide)
  have htarget : Reached 0x202 block 4 :=
    .pass hentry ⟨_, hjump, 0x206, List.mem_singleton_self _, by decide, rfl, by decide⟩
  have houtside : ∀ offset, ¬(offset = 0 ∨ offset = 4) → ¬Reached 0x202 block offset :=
    fun _ hne h => hne (hclosed.mem_of_reached h)
  refine ⟨by decide, by decide +kernel, ?_, ?_⟩
  · exact .code hentry (by decide +kernel) (.byte (houtside 2 (by decide))
      (.byte (houtside 3 (by decide)) (.code htarget (by decide +kernel) (.nil 6))))
  · rintro ⟨t, above, below, ht, hlength, hlines⟩
    have hshown : (asCode 2 src).map (fun t => ((Text.lines t).drop 1).take 4)
        ≠ .ok (listed.map fun p => p.2.line (2 + p.1)) := by decide +kernel
    rw [ht] at hshown
    refine hshown (congrArg Except.ok ?_)
    dsimp only
    rw [hlines, List.drop_left' (Nat.succ.inj hlength)]
    exact List.take_left' rfl

end Revision

end Chip8

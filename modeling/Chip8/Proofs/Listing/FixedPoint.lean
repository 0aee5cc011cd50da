import Chip8.Proofs.Listing.Coverage
import Chip8.Proofs.Listing.Edit

/-!
# Listings Are Fixed Points

A listing is written by the disassembler, and it is written anew by every
revision of its stamps and by every edit. All of them should write the same:
items one behind the other, each on a line of its own, behind a stamp with the
offset at which it starts.

Here this is the definition of a listing, and the disassembler is shown to write
one. A revision that is given lines of listings, whatever their stamps say,
writes the listing of the items on these lines. So it does not matter that an
edit takes its lines from two listings, of which the one that is put in counts
its offsets from zero. What an edit writes is the listing in which an
instruction gives way to its two bytes, or two bytes to the instruction that
they decode to, and one of these edits undoes the other.

## Main definitions

* `Disassembly.lay`: Items one behind the other, with their offsets.
* `Disassembly.listing`: The listing of items.
* `Item.Decoded`: An item that is shown as what its bytes decode to.
* `Revision.SplitAt`: Listings of which one shows an instruction as its bytes.

## Theorems

* `disassemble_eq_listing`: The disassembler writes a listing.
* `restamp_joinRows_written`: A revision writes a listing.
* `asCode_code`, `asCode_data`, `asData_code`: What edits of a listing write.
* `revisions_of_disassemble`: Revisions and edits of what the disassembler has
  written.
-/

namespace Chip8

open Text Comment

/-! ## Items -/

namespace Item

/-- An item that is shown as what two bytes decode to, or else as data. -/
def Decoded : Item → Prop
  | .code i => ∃ hi lo, Instruction.decode? (wordOfBytes hi lo) = some i
  | .data _ => True

theorem Decoded.fits {item : Item} (h : item.Decoded) : item.Fits := by
  cases item with
  | code i =>
      rcases h with ⟨_, _, hdecode⟩
      exact Instruction.fits_of_decode? hdecode
  | data b => trivial

theorem statement_injective : Function.Injective statement := by
  intro item item' h
  cases item with
  | code i =>
      cases item' with
      | code i' => exact congrArg code (Statement.instruction.inj h)
      | data b' => exact nomatch h
  | data b =>
      cases item' with
      | code i' => exact nomatch h
      | data b' => exact congrArg data (List.cons.inj (Statement.data.inj h)).1

theorem bytes_ne_nil (item : Item) : item.bytes ≠ [] := by
  cases item <;> exact List.cons_ne_nil _ _

theorem line_ne_nil (offset : Nat) (item : Item) : item.line offset ≠ [] :=
  List.append_ne_nil_of_right_ne_nil _ (List.cons_ne_nil _ _)

theorem dropReturn_line (offset : Nat) (item : Item) :
    dropReturn (item.line offset) = item.line offset := by
  refine Revision.dropReturn_of_getLast? fun hreturn => ?_
  rw [line, List.getLast?_append_of_ne_nil _ (List.cons_ne_nil _ _)] at hreturn
  exact item.isPlain_cons_source.return_not_mem (List.mem_of_getLast? hreturn)

end Item

namespace Disassembly

/-! ## Listings -/

/-- Items one behind the other, each with its offset. -/
def lay (offset : Nat) : List Item → List (Nat × Item)
  | [] => []
  | item :: items => (offset, item) :: lay (offset + item.bytes.length) items

/-- The listing of items one behind the other. -/
def listing (items : List Item) : Text :=
  terminate (written (lay 0 items))

theorem map_snd_lay (offset : Nat) (items : List Item) :
    (lay offset items).map Prod.snd = items := by
  induction items generalizing offset with
  | nil => rfl
  | cons item items ih => rw [lay, List.map_cons, ih]

theorem lay_append (offset : Nat) (front behind : List Item) :
    lay offset (front ++ behind)
      = lay offset front ++ lay (offset + (front.flatMap Item.bytes).length) behind := by
  induction front generalizing offset with
  | nil => rfl
  | cons item front ih =>
      rw [List.cons_append, lay, lay, ih, List.flatMap_cons, List.length_append, Nat.add_assoc,
        List.cons_append]

theorem length_written_lay (offset : Nat) (items : List Item) :
    (written (lay offset items)).length = items.length := by
  rw [written, List.length_map, ← List.length_map (f := Prod.snd), map_snd_lay]

theorem line_of_mem_written {placed : List (Nat × Item)} :
    ∀ l ∈ written placed, l ≠ [] ∧ dropReturn l = l := by
  intro l hl
  rcases List.mem_map.mp hl with ⟨p, _, rfl⟩
  exact ⟨p.2.line_ne_nil p.1, p.2.dropReturn_line p.1⟩

theorem map_dropReturn_written (placed : List (Nat × Item)) :
    (written placed).map dropReturn = written placed :=
  (List.map_congr_left fun l hl => (line_of_mem_written l hl).2).trans (List.map_id _)

theorem lines_listing (items : List Item) : Text.lines (listing items) = written (lay 0 items) := by
  rw [listing, lines_terminate newline_not_mem_written, map_dropReturn_written]

/-! ## What the disassembler writes -/

-- Items are laid one behind the other.
theorem exists_tile_eq_lay (isCode : Nat → Bool) (laid : List (Nat × Item)) (offset : Nat)
    (bytes : List UInt8) :
    ∃ items, tile isCode laid offset bytes = laid.reverse ++ lay offset items := by
  -- What has been laid is in reverse, and the next item goes in front of it.
  fun_induction tile isCode laid offset bytes with
  | case1 laid offset hi lo rest _ i _ ih =>
      rcases ih with ⟨items, heq⟩
      refine ⟨.code i :: items, ?_⟩
      rw [heq, List.reverse_cons, List.append_assoc]
      rfl
  | case2 laid offset hi lo rest _ _ ih =>
      rcases ih with ⟨items, heq⟩
      refine ⟨.data hi :: .data lo :: items, ?_⟩
      rw [heq, List.reverse_cons, List.reverse_cons, List.append_assoc, List.append_assoc]
      rfl
  | case3 laid offset hi lo rest _ ih =>
      rcases ih with ⟨items, heq⟩
      refine ⟨.data hi :: items, ?_⟩
      rw [heq, List.reverse_cons, List.append_assoc]
      rfl
  | case4 laid offset b => exact ⟨[.data b], List.reverse_cons⟩
  | case5 laid offset => exact ⟨[], (List.append_nil _).symm⟩

theorem items_eq_lay (bytes : List UInt8) : items bytes = lay 0 ((items bytes).map Prod.snd) := by
  rcases exists_tile_eq_lay
    (fun offset => (Coverage.codeMarks bytes.toArray).getD offset false) [] 0 bytes with ⟨laid, heq⟩
  have hitems : items bytes = lay 0 laid := heq
  rw [hitems, map_snd_lay]

/-- The disassembler writes the listing of its items. -/
theorem disassemble_eq_listing (bytes : List UInt8) :
    disassemble bytes = listing ((items bytes).map Prod.snd) := by
  rw [listing, ← items_eq_lay]
  rfl

theorem decoded_of_mem_items {bytes : List UInt8} :
    ∀ item ∈ (items bytes).map Prod.snd, item.Decoded := by
  intro item hmem
  rcases List.mem_map.mp hmem with ⟨placed, hplaced, rfl⟩
  exact forall_mem_tile (p := Item.Decoded) (fun h => ⟨_, _, h⟩) (fun _ => trivial)
    (List.forall_mem_nil _) placed hplaced

/-- Two bytes that decode are shown as one instruction. -/
theorem lines_of_decode? {hi lo : UInt8} {i : Instruction}
    (h : Instruction.decode? (wordOfBytes hi lo) = some i) :
    lines [hi, lo] = [(Item.code i).line 0] := by
  -- The first offset is always marked, however little there is behind it.
  have hmark : (Coverage.codeMarks #[hi, lo]).getD 0 false = true := by
    have hmarked : Coverage.IsMarked (Coverage.codeMarks #[hi, lo]) 0 :=
      (Coverage.codeMarks_spec #[hi, lo]).1 (Nat.lt_succ_self 1)
    rw [Array.getD_eq_getD_getElem?, hmarked]
    rfl
  have hitems : items [hi, lo] = [(0, .code i)] := by
    rw [items, tile, if_pos hmark, h]
    rfl
  rw [lines, hitems]
  rfl

end Disassembly

namespace Revision

open Disassembly

/-! ## Revisions -/

-- Behind their stamps, lines of listings have no comments.
theorem codeRows_joinRows_sources {items : List Item} (hne : items ≠ []) :
    codeRows (joinRows (items.map (' ' :: ·.source))) = items.map (' ' :: ·.source) := by
  have hsource : ∀ r ∈ items.map (' ' :: ·.source), dropStamp r = r ∧ IsPlain r := by
    intro r hr
    rcases List.mem_map.mp hr with ⟨item, _, rfl⟩
    exact ⟨dropStamp_of_head_ne (by decide) _, item.isPlain_cons_source⟩
  refine codeRows_of_not_mem ?_ fun r hr => (hsource r hr).2.hash_not_mem
  rw [rows_joinRows _ fun r hr => (hsource r hr).2.newline_not_mem]
  · exact (List.map_congr_left fun r hr => (hsource r hr).1).trans (List.map_id _)
  · exact fun h => hne (List.map_eq_nil_iff.mp h)

-- Items behind new stamps.
theorem showLines_sources (offset : Nat) (items : List Item) :
    showLines offset (items.map Item.bytes) (items.map (' ' :: ·.source))
      = written (lay offset items) := by
  induction items generalizing offset with
  | nil => rfl
  | cons item items ih =>
      rw [List.map_cons, List.map_cons, showLines, List.headD_cons, List.tail_cons, ih,
        showLine_of_ne_nil offset item.bytes_ne_nil]
      rfl

theorem map_bytesOn_sources {items : List Item} (hfits : ∀ item ∈ items, item.Fits) :
    (items.map (' ' :: ·.source)).map Statement.bytesOn = items.map Item.bytes := by
  rw [List.map_map]
  refine List.map_congr_left fun item hitem => ?_
  rw [Function.comp_apply, Statement.bytesOn_of_read (Item.read_cons_source (hfits item hitem))]
  exact item.bytes_statement

/-- A revision of a text on whose lines there are items, behind any stamps,
    writes the listing of these items. -/
theorem restamp_of_bareLines {src : Text} {items : List Item}
    (hbare : bareLines src = items.map (' ' :: ·.source)) (hfits : ∀ item ∈ items, item.Fits) :
    restamp src = .ok (listing items) := by
  by_cases hnil : items = []
  · rw [restamp_eq, hbare, hnil]
    rfl
  -- Behind blanks, the lines are code as they stand.
  have hcode := codeRows_joinRows_sources hnil
  have hread : ∀ row ∈ items.map (' ' :: ·.source), ∃ found, Statement.read row = .ok found := by
    intro row hrow
    rcases List.mem_map.mp hrow with ⟨item, hitem, rfl⟩
    exact ⟨_, Item.read_cons_source (hfits item hitem)⟩
  rcases (Source.exists_placeRows_iff 1 _ _).mpr ⟨hread, rfl⟩ with ⟨placed, hplaced, _⟩
  rw [← hcode] at hplaced
  have hemitted : emitted (items.map (' ' :: ·.source)) = items.map Item.bytes := by
    rw [emitted, hcode, map_bytesOn_sources hfits]
  rw [restamp_eq, hbare, Source.statements, hplaced, hemitted, showLines_sources]
  rfl

/-- A listing is revised to itself. -/
theorem restamp_listing {items : List Item} (hfits : ∀ item ∈ items, item.Fits) :
    restamp (listing items) = .ok (listing items) := by
  refine restamp_of_bareLines ?_ hfits
  conv_rhs => rw [← map_snd_lay 0 items, List.map_map]
  rw [bareLines, lines_listing, map_dropStamp_written]
  rfl

/-- Lines of listings are revised to the listing of their items. -/
theorem restamp_joinRows_written {placed : List (Nat × Item)}
    (hfits : ∀ item ∈ placed.map Prod.snd, item.Fits) :
    restamp (joinRows (written placed)) = .ok (listing (placed.map Prod.snd)) := by
  refine restamp_of_bareLines ?_ hfits
  rw [bareLines, lines_joinRows newline_not_mem_written line_of_mem_written, map_dropStamp_written,
    List.map_map]
  rfl

/-! ## Edits -/

section

variable {number : Nat} {src line : Text} {front behind : List Text} {hi lo : UInt8}

theorem asCode_of_two_bytes (hcontext : lineContext? number src = some (front, line, behind))
    (hline : lineBytes number line = .ok [hi, lo]) :
    asCode number src = restamp (joinRows (front ++ Disassembly.lines [hi, lo] ++ behind)) := by
  rw [asCode, hcontext]
  dsimp only
  rw [hline]
  dsimp only [bind, Except.bind]

theorem asCode_of_two_lines {next : Text}
    (hcontext : lineContext? number src = some (front, line, next :: behind))
    (hline : lineBytes number line = .ok [hi]) (hnext : lineBytes (number + 1) next = .ok [lo]) :
    asCode number src = restamp (joinRows (front ++ Disassembly.lines [hi, lo] ++ behind)) := by
  have hone : [lo].length = 1 ∨ [lo].length = 2 := Or.inl rfl
  rw [asCode, hcontext]
  dsimp only
  rw [hline]
  dsimp only [bind, Except.bind]
  rw [hnext]
  dsimp only
  rw [if_pos hone, List.singleton_append]

theorem asData_of_two_bytes (hcontext : lineContext? number src = some (front, line, behind))
    (hline : lineBytes number line = .ok [hi, lo]) :
    asData number src
      = restamp (joinRows (front ++ written [(0, .data hi), (1, .data lo)] ++ behind)) := by
  have hlong : ¬[hi, lo].length < 2 := Nat.lt_irrefl 2
  rw [asData, hcontext]
  dsimp only
  rw [hline]
  dsimp only [bind, Except.bind]
  rw [if_neg hlong]
  congr 1

end

theorem lineContext?_of_lines {src : Text} {front behind : List Text} {line : Text}
    (h : Text.lines src = front ++ line :: behind) :
    lineContext? (front.length + 1) src = some (front, line, behind) := by
  rw [lineContext?, h]
  simp only [List.drop_left, List.take_left]

theorem lineContext?_listing (front : List Item) (item : Item) (behind : List Item) :
    ∃ offset, lineContext? (front.length + 1) (listing (front ++ item :: behind))
      = some (written (lay 0 front), item.line offset,
          written (lay (offset + item.bytes.length) behind)) := by
  have hlines : Text.lines (listing (front ++ item :: behind))
      = written (lay 0 front) ++ item.line (0 + (front.flatMap Item.bytes).length)
        :: written (lay (0 + (front.flatMap Item.bytes).length + item.bytes.length) behind) := by
    rw [lines_listing, lay_append, written, List.map_append]
    rfl
  have hcontext := lineContext?_of_lines hlines
  rw [length_written_lay] at hcontext
  exact ⟨_, hcontext⟩

theorem lineBytes_line {item : Item} (hfits : item.Fits) (number offset : Nat) :
    lineBytes number (item.line offset) = .ok item.bytes := by
  rw [lineBytes, Source.placeRow, read_line (show (offset, item).2.Fits from hfits)]
  exact congrArg Except.ok item.bytes_statement

theorem lineBytes_code {hi lo : UInt8} {i : Instruction}
    (h : Instruction.decode? (wordOfBytes hi lo) = some i) (number offset : Nat) :
    lineBytes number ((Item.code i).line offset) = .ok [hi, lo] := by
  have hfits : (Item.code i).Fits := Instruction.fits_of_decode? h
  rw [lineBytes_line hfits, Item.bytes, Instruction.bytes_of_decode? h]

theorem lineBytes_data (b : UInt8) (number offset : Nat) :
    lineBytes number ((Item.data b).line offset) = .ok [b] :=
  lineBytes_line (show (Item.data b).Fits from trivial) number offset

section

variable {front behind : List Item} (hfront : ∀ item ∈ front, item.Fits)
  (hbehind : ∀ item ∈ behind, item.Fits)

include hfront hbehind

-- Lines that are put in between others become items between the others.
theorem restamp_between {shown : List (Nat × Item)}
    (hshown : ∀ item ∈ shown.map Prod.snd, item.Fits) (offset : Nat) :
    restamp (joinRows (written (lay 0 front) ++ written shown ++ written (lay offset behind)))
      = .ok (listing (front ++ (shown.map Prod.snd ++ behind))) := by
  have hsnd : (lay 0 front ++ shown ++ lay offset behind).map Prod.snd
      = front ++ (shown.map Prod.snd ++ behind) := by
    rw [List.map_append, List.map_append, map_snd_lay, map_snd_lay, List.append_assoc]
  rw [← hsnd, ← restamp_joinRows_written]
  · simp only [written, List.map_append]
  · rw [hsnd, List.forall_mem_append, List.forall_mem_append]
    exact ⟨hfront, hshown, hbehind⟩

variable {hi lo : UInt8} {i : Instruction}
  (h : Instruction.decode? (wordOfBytes hi lo) = some i)

include h

-- Two bytes that decode are put in between other items as an instruction.
theorem restamp_between_code (offset : Nat) :
    restamp (joinRows (written (lay 0 front) ++ Disassembly.lines [hi, lo]
        ++ written (lay offset behind)))
      = .ok (listing (front ++ .code i :: behind)) := by
  rw [show Disassembly.lines [hi, lo] = written [(0, .code i)] from lines_of_decode? h]
  refine restamp_between hfront hbehind ?_ offset
  rw [List.map_singleton, List.forall_mem_singleton]
  exact Instruction.fits_of_decode? h

/-- An instruction that is shown as code stays as it is. -/
theorem asCode_code :
    asCode (front.length + 1) (listing (front ++ .code i :: behind))
      = .ok (listing (front ++ .code i :: behind)) := by
  rcases lineContext?_listing front (.code i) behind with ⟨offset, hcontext⟩
  rw [asCode_of_two_bytes hcontext (lineBytes_code h _ offset)]
  exact restamp_between_code hfront hbehind h _

/-- An instruction that is shown as data gives way to its two bytes. -/
theorem asData_code :
    asData (front.length + 1) (listing (front ++ .code i :: behind))
      = .ok (listing (front ++ .data hi :: .data lo :: behind)) := by
  rcases lineContext?_listing front (.code i) behind with ⟨offset, hcontext⟩
  have hdata : ∀ item ∈ [(0, Item.data hi), (1, Item.data lo)].map Prod.snd, item.Fits :=
    List.forall_mem_cons.mpr ⟨trivial, List.forall_mem_singleton.mpr trivial⟩
  rw [asData_of_two_bytes hcontext (lineBytes_code h _ offset)]
  exact restamp_between hfront hbehind hdata _

/-- Two bytes that are shown as code give way to what they decode to. -/
theorem asCode_data :
    asCode (front.length + 1) (listing (front ++ .data hi :: .data lo :: behind))
      = .ok (listing (front ++ .code i :: behind)) := by
  rcases lineContext?_listing front (.data hi) (.data lo :: behind) with ⟨offset, hcontext⟩
  rw [asCode_of_two_lines hcontext (lineBytes_data hi _ offset) (lineBytes_data lo _ (offset + 1))]
  exact restamp_between_code hfront hbehind h _

end

/-! ## What the disassembler has written -/

-- The statement on a line of a listing is that of an item between others.
theorem exists_between_of_mem {items : List (Nat × Item)} {number : Nat} (item : Item)
    (hmem : ⟨number, item.statement⟩ ∈
      (items.zipIdx 1).map fun r => Placed.mk r.2 r.1.2.statement) :
    ∃ front behind, items.map Prod.snd = front ++ item :: behind ∧ number = front.length + 1 := by
  rcases List.mem_map.mp hmem with ⟨⟨⟨offset, found⟩, index⟩, hindex, heq⟩
  rw [Placed.mk.injEq] at heq
  rcases heq with ⟨rfl, hstatement⟩
  -- Placed statements do not name their items, but there is only one for each.
  have hfound : found = item := Item.statement_injective hstatement
  rw [hfound, List.mem_zipIdx_iff_le_and_getElem?_sub] at hindex
  rcases hindex with ⟨hfirst, hget⟩
  dsimp only at hfirst hget
  rcases List.getElem?_eq_some_iff.mp hget with ⟨hlt, hget⟩
  refine ⟨(items.take (index - 1)).map Prod.snd, (items.drop (index - 1 + 1)).map Prod.snd, ?_, ?_⟩
  · conv_lhs => rw [← List.take_append_drop (index - 1) items, List.drop_eq_getElem_cons hlt, hget]
    rw [List.map_append, List.map_cons]
  · rw [List.length_map, List.length_take]
    omega

/-- Two listings that are the same but for one instruction. The first one has it
    on a line of the given number, and the second one has its two bytes there, each
    on a line of its own. -/
def SplitAt (number : Nat) (t t' : Text) : Prop :=
  ∃ front i hi lo behind, Instruction.decode? (wordOfBytes hi lo) = some i ∧
    number = front.length + 1 ∧ t = listing (front ++ .code i :: behind) ∧
    t' = listing (front ++ .data hi :: .data lo :: behind)

/-- What the disassembler has written is revised to itself. To show one of its
    instructions as code changes nothing. To show it as data splits it, and that is
    taken back by showing it as code again. In the same way, two bytes of data that
    decode are joined when they are shown as code, and split again when that is shown
    as data. -/
theorem revisions_of_disassemble (bytes : List UInt8) :
    restamp (disassemble bytes) = .ok (disassemble bytes) ∧
      ∃ placed, Source.statements (disassemble bytes) = .ok placed ∧
        (∀ n i, ⟨n, .instruction i⟩ ∈ placed →
          asCode n (disassemble bytes) = .ok (disassemble bytes) ∧
            ∃ t, SplitAt n (disassemble bytes) t ∧ asData n (disassemble bytes) = .ok t ∧
              asCode n t = .ok (disassemble bytes)) ∧
        (∀ n hi lo, ⟨n, .data [hi]⟩ ∈ placed → ⟨n + 1, .data [lo]⟩ ∈ placed →
          (Instruction.decode? (wordOfBytes hi lo)).isSome →
            ∃ t, SplitAt n t (disassemble bytes) ∧ asCode n (disassemble bytes) = .ok t ∧
              asData n t = .ok (disassemble bytes)) := by
  have hlisting := disassemble_eq_listing bytes
  have hfits : ∀ item ∈ (items bytes).map Prod.snd, item.Fits :=
    fun item hitem => (decoded_of_mem_items item hitem).fits
  refine ⟨?_, _, statements_disassemble bytes, ?_, ?_⟩
  · rw [hlisting]
    exact restamp_listing hfits
  · intro n i hmem
    rcases exists_between_of_mem (.code i) hmem with ⟨front, behind, hitems, rfl⟩
    have hcode : (Item.code i).Decoded := by
      have hmem : Item.code i ∈ (items bytes).map Prod.snd := by
        rw [hitems]
        exact List.mem_append_right front List.mem_cons_self
      exact decoded_of_mem_items _ hmem
    rcases hcode with ⟨hi, lo, hdecode⟩
    rw [hitems, List.forall_mem_append, List.forall_mem_cons] at hfits
    rcases hfits with ⟨hfront, _, hbehind⟩
    rw [hlisting, hitems]
    exact ⟨asCode_code hfront hbehind hdecode, _,
      ⟨front, i, hi, lo, behind, hdecode, rfl, rfl, rfl⟩,
      asData_code hfront hbehind hdecode, asCode_data hfront hbehind hdecode⟩
  · intro n hi lo hmem hnext hdecode
    rcases Option.isSome_iff_exists.mp hdecode with ⟨i, hdecode⟩
    rcases exists_between_of_mem (.data hi) hmem with ⟨front, behind, hitems, rfl⟩
    rcases exists_between_of_mem (.data lo) hnext with ⟨front', behind', hitems', hlength⟩
    -- The second byte is the one right behind the first.
    have hboth : front ++ [Item.data hi] = front' ∧ behind = .data lo :: behind' := by
      refine List.append_inj ?_ ?_
      · rw [List.append_assoc, List.singleton_append, ← hitems, hitems']
      · rw [List.length_append, List.length_singleton]
        omega
    rw [hboth.2] at hitems
    rw [hitems, List.forall_mem_append, List.forall_mem_cons, List.forall_mem_cons] at hfits
    rcases hfits with ⟨hfront, _, _, hbehind⟩
    rw [hlisting, hitems]
    exact ⟨_, ⟨front, i, hi, lo, behind', hdecode, rfl, rfl, rfl⟩,
      asCode_data hfront hbehind hdecode, asData_code hfront hbehind hdecode⟩

/-- A jump over two bytes of data that would clear the screen. -/
theorem revisions_of_disassemble_jump :
    let listed := disassemble [0x12, 0x04, 0x00, 0xE0, 0x00, 0xEE]
    Source.statements listed
        = .ok [⟨1, .instruction ⟨.jmp, .address 0x204, rfl⟩⟩, ⟨2, .data [0x00]⟩, ⟨3, .data [0xE0]⟩,
            ⟨4, .instruction ⟨.ret, .bare, rfl⟩⟩] ∧
      (asCode 1 listed = .ok listed ∧
        ∃ t, SplitAt 1 listed t ∧ asData 1 listed = .ok t ∧ asCode 1 t = .ok listed) ∧
      ∃ t, SplitAt 2 t listed ∧ asCode 2 listed = .ok t ∧ asData 2 t = .ok listed := by
  intro listed
  rcases revisions_of_disassemble [0x12, 0x04, 0x00, 0xE0, 0x00, 0xEE] with
    ⟨_, placed, hplaced, hcode, hdata⟩
  have hstatements : Source.statements listed
      = .ok [⟨1, .instruction ⟨.jmp, .address 0x204, rfl⟩⟩, ⟨2, .data [0x00]⟩, ⟨3, .data [0xE0]⟩,
          ⟨4, .instruction ⟨.ret, .bare, rfl⟩⟩] := by decide +kernel
  cases hplaced.symm.trans hstatements
  exact ⟨hstatements, hcode 1 ⟨.jmp, .address 0x204, rfl⟩ (by decide),
    hdata 2 0x00 0xE0 (by decide) (by decide) (by decide +kernel)⟩

end Revision

end Chip8

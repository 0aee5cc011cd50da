import Chip8.Listing.Item
import Chip8.Proofs.Notation.Statement
import Chip8.Proofs.Source.Comment

/-!
# The Stamps of a Listing

What a listing puts in front of its lines has the form of a stamp, whatever
offset and bytes it shows. The only hashes in it are the first character and
the last. Between them there are digits, blanks and a colon.

## Theorems

* `isStamp_stamp`: The stamps that are written are recognised.
* `newline_not_mem_stamp`: They do not break their line.
* `getLast?_stamp`: They end in a hash.
-/

namespace Chip8

open Text Comment

theorem isPlain_intercalate {ts : List Text} (hts : ∀ t ∈ ts, IsPlain t) :
    IsPlain ([' '].intercalate ts) := by
  induction ts with
  | nil => exact fun c hc => nomatch hc
  | cons t ts ih =>
      have ht := hts t List.mem_cons_self
      have hrest := ih fun u hu => hts u (List.mem_cons_of_mem t hu)
      by_cases hnil : ts = []
      · rw [hnil, List.intercalate_singleton]
        exact ht
      · rw [List.intercalate_cons_of_ne_nil hnil]
        exact (ht.append (by decide)).append hrest

-- The bytes of a stamp are plain text up to the closing hash.
theorem exists_stampBytes_eq (bytes : List UInt8) :
    ∃ body, IsPlain body ∧ stampBytes bytes = body ++ ['#'] := by
  have hbytes : ∀ t ∈ bytes.map byteText, IsPlain t := by
    intro t ht
    rcases List.mem_map.mp ht with ⟨b, _, rfl⟩
    exact isPlain_paddedHex _ _
  unfold stampBytes
  split
  · -- A single byte leaves room for another one.
    rename_i b
    refine ⟨byteText b ++ "    ".toList, (isPlain_paddedHex _ _).append (by decide), ?_⟩
    rw [List.append_assoc]
    rfl
  · refine ⟨[' '].intercalate (bytes.map byteText) ++ [' '],
      (isPlain_intercalate hbytes).append (by decide), ?_⟩
    rw [List.append_assoc]
    rfl

-- A stamp is plain text between its first two characters and its last.
theorem exists_stamp_eq (offset : Nat) (bytes : List UInt8) :
    ∃ body, IsPlain body ∧ stamp offset bytes = '#' :: '@' :: ' ' :: (body ++ ['#']) := by
  rcases exists_stampBytes_eq bytes with ⟨body, hbody, heq⟩
  refine ⟨paddedHex 4 offset ++ ' ' :: paddedHex 4 (offset + programStart) ++ " : ".toList ++ body,
    ?_, ?_⟩
  · have haddress := IsPlain.cons (c := ' ') (by decide)
      (isPlain_paddedHex 4 (offset + programStart))
    exact (((isPlain_paddedHex 4 offset).append haddress).append (by decide)).append hbody
  · unfold stamp
    rw [heq]
    simp only [List.append_assoc]
    rfl

/-- The stamps of a listing have the form by which stamps are recognised. -/
theorem isStamp_stamp (offset : Nat) (bytes : List UInt8) : IsStamp (stamp offset bytes) := by
  rcases exists_stamp_eq offset bytes with ⟨body, hbody, heq⟩
  exact ⟨' ', body, by decide, hbody.hash_not_mem, heq⟩

theorem newline_not_mem_stamp (offset : Nat) (bytes : List UInt8) :
    '\n' ∉ stamp offset bytes := by
  rcases exists_stamp_eq offset bytes with ⟨body, hbody, heq⟩
  rw [heq]
  simp only [List.mem_cons, List.mem_append, List.not_mem_nil, or_false, not_or]
  exact ⟨by decide, by decide, by decide, hbody.newline_not_mem, by decide⟩

theorem getLast?_stamp (offset : Nat) (bytes : List UInt8) :
    (stamp offset bytes).getLast? = some '#' := by
  rcases exists_stamp_eq offset bytes with ⟨body, _, heq⟩
  rw [heq]
  exact List.getLast?_concat (l := '#' :: '@' :: ' ' :: body)

end Chip8

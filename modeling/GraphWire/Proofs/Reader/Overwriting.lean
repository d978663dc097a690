import GraphWire.Proofs.Reader.Agreement
import Mathlib.Tactic.IntervalCases
import Mathlib.Tactic.Positivity

/-!
# Reading around overwritten bytes

When a chunk of a buffer is replaced by other bytes, every chunk that does not overlap it stays
where it is.  A reader that looks at nothing else cannot tell the difference: what it reads of a
slot depends on the table, its vtable and the value of that slot, and of a vector or a string on its
count and the bytes behind it.
-/

namespace GraphWire

/-! ## Bytes -/

/-- The bytes with a chunk put over those that begin at an offset. -/
def overwrite (bytes : List UInt8) (offset : ℕ) (fresh : List UInt8) : List UInt8 :=
  bytes.take (bytes.length - offset)
    ++ (fresh ++ bytes.drop (bytes.length - offset + fresh.length))

/-- Chunks of some lengths at two offsets do not overlap. -/
def Apart (offset length offset' length' : ℕ) : Prop :=
  offset' + length ≤ offset ∨ offset + length' ≤ offset'

section

variable {bytes fresh : List UInt8} {offset : ℕ}

theorem length_overwrite (hwithin : offset ≤ bytes.length) (hfresh : fresh.length ≤ offset) :
    (overwrite bytes offset fresh).length = bytes.length := by
  simp only [overwrite, List.length_append, List.length_take, List.length_drop]
  omega

/-- What is in front of the chunk stays. -/
theorem overwrite_append (front : List UInt8) (hwithin : offset ≤ bytes.length) :
    overwrite (front ++ bytes) offset fresh = front ++ overwrite bytes offset fresh := by
  have hplace : (front ++ bytes).length - offset = front.length + (bytes.length - offset) := by
    rw [List.length_append]
    omega
  unfold overwrite
  rw [hplace, List.take_length_add_append, Nat.add_assoc, List.drop_length_add_append,
    List.append_assoc]

/-- What is behind the chunk stays. -/
theorem suffix_overwrite (bytes : List UInt8) (offset : ℕ) (fresh : List UInt8) :
    bytes.drop (bytes.length - offset + fresh.length) <:+ overwrite bytes offset fresh := by
  unfold overwrite
  rw [← List.append_assoc]
  exact List.suffix_append _ _

theorem placed_overwrite (hwithin : offset ≤ bytes.length) (hfresh : fresh.length ≤ offset) :
    Placed (overwrite bytes offset fresh) fresh offset := by
  refine ⟨_, List.suffix_append _ _, ?_⟩
  rw [List.length_drop]
  omega

/-- A chunk that does not overlap the one that is replaced stays where it is. -/
theorem Placed.overwrite {chunk : List UInt8} {offset' : ℕ}
    (hplaced : Placed bytes chunk offset') (hwithin : offset ≤ bytes.length)
    (hfresh : fresh.length ≤ offset) (hapart : Apart offset fresh.length offset' chunk.length) :
    Placed (overwrite bytes offset fresh) chunk offset' := by
  obtain ⟨rest, hsuffix, hoffset⟩ := hplaced
  rcases hapart with hbehind | hfront
  · have hrest : chunk ++ rest <:+ bytes.drop (bytes.length - offset + fresh.length) := by
      apply List.suffix_of_suffix_length_le hsuffix (List.drop_suffix _ _)
      rw [List.length_append, List.length_drop]
      omega
    exact ⟨rest, hrest.trans (suffix_overwrite _ _ _), hoffset⟩
  · obtain ⟨front, rfl⟩ := hsuffix
    have hrest : offset ≤ rest.length := by omega
    have hlater : offset ≤ (chunk ++ rest).length := by
      rw [List.length_append]
      omega
    rw [overwrite_append front hlater, overwrite_append chunk hrest]
    refine ⟨_, List.suffix_append _ _, ?_⟩
    rw [length_overwrite hrest hfresh]
    exact hoffset

end

/-! ## Contents and tables -/

/-- Every word is the word of some value, among the unsigned integers of its width. -/
theorem IsWidth.exists_scalar {width : ℕ} (hwidth : IsWidth width) : ∃ type : Scalar,
    type.width = width ∧ ∀ word < 256 ^ width, ∃ value, type.word value = .ok word := by
  have hinteger (type : IntegerType) (hunsigned : type.signed = false) (word : ℕ)
      (hword : word < 256 ^ type.width) : ∃ value, (Scalar.integer type).word value = .ok word := by
    exact ⟨(word : Number), Scalar.word_natCast hunsigned hword⟩
  obtain ⟨exponent, hexponent, rfl⟩ := hwidth
  interval_cases exponent
  · exact ⟨.uint8, rfl, hinteger .uint8 rfl⟩
  · exact ⟨.uint16, rfl, hinteger .uint16 rfl⟩
  · exact ⟨.uint32, rfl, hinteger .uint32 rfl⟩
  · refine ⟨.uint64, rfl, fun word hword => ⟨(word : ℤ), ?_⟩⟩
    have hmod : (word : ℤ) % TwosComplement.cardinality 8 = word :=
      Int.emod_eq_of_lt (by positivity) (by exact_mod_cast hword)
    simp only [Scalar.word, TwosComplement.word, hmod, Int.toNat_natCast]

/-- The slot with another content, if its value is at an offset. -/
def FilledSlot.refill (value : FilledSlot) (offset : ℕ) (content : Content) : FilledSlot :=
  if value.offset = offset then { value with content } else value

@[simp]
theorem FilledSlot.entry_refill (value : FilledSlot) (offset : ℕ) (content : Content) :
    (value.refill offset content).entry = value.entry := by
  unfold refill
  split <;> rfl

section

variable {bytes fresh : List UInt8} {offset : ℕ} (hwithin : offset ≤ bytes.length)
  (hfresh : fresh.length ≤ offset)

include hwithin hfresh

theorem Content.PlacedAt.overwrite {content : Content} {offset' : ℕ}
    (hplaced : content.PlacedAt bytes offset')
    (hapart : Apart offset fresh.length offset' content.width) :
    content.PlacedAt (overwrite bytes offset fresh) offset' := by
  cases content with
  | scalar type value =>
      obtain ⟨word, hword, hchunk⟩ := hplaced
      refine ⟨word, hword, hchunk.overwrite hwithin hfresh ?_⟩
      rwa [LittleEndian.length_split]
  | reference target =>
      obtain ⟨hpositive, htarget, hlimit, hchunk⟩ := hplaced
      refine ⟨hpositive, htarget, hlimit, hchunk.overwrite hwithin hfresh ?_⟩
      rwa [LittleEndian.length_split]

/-- The chunk that has been put somewhere is a content there, if it has a width. -/
theorem exists_content_overwrite (hwidth : IsWidth fresh.length) :
    ∃ content : Content, content.width = fresh.length ∧
      content.PlacedAt (overwrite bytes offset fresh) offset := by
  obtain ⟨type, htype, hvalues⟩ := hwidth.exists_scalar
  obtain ⟨value, hvalue⟩ := hvalues _ (LittleEndian.combine_lt fresh)
  refine ⟨.scalar type value, htype, _, hvalue, ?_⟩
  rw [htype, LittleEndian.split_combine]
  exact placed_overwrite hwithin hfresh

/-- A table of which one value is replaced. -/
theorem TableLayout.overwrite {table start vtable : ℕ} {filled : List FilledSlot}
    (hlayout : TableLayout bytes table start vtable filled)
    (hdistance : Apart offset fresh.length table 4)
    (hwords : Apart offset fresh.length vtable
      (2 * (vtableWords table start (filled.map FilledSlot.entry)).length))
    (hvalues : ∀ value ∈ filled, value.offset ≠ offset →
      Apart offset fresh.length value.offset value.content.width)
    {content : Content}
    (hsame : ∀ value ∈ filled, value.offset = offset → value.content.width = content.width)
    (hcontent : content.PlacedAt (GraphWire.overwrite bytes offset fresh) offset) :
    TableLayout (GraphWire.overwrite bytes offset fresh) table start vtable
      (filled.map (·.refill offset content)) := by
  have hentries : (filled.map (·.refill offset content)).map FilledSlot.entry
      = filled.map FilledSlot.entry := by
    rw [List.map_map]
    exact List.map_congr_left fun value _ => value.entry_refill offset content
  have hplaced := hlayout.distance.overwrite hwithin hfresh
    (by rwa [Build.vtableDistance, LittleEndian.length_split])
  have hlisted := hlayout.words.overwrite hwithin hfresh
    (by rwa [LittleEndian.length_splitAll])
  refine ⟨hplaced, ?_, ?_, hlayout.table_le, hlayout.vtable_le, ?_, ?_⟩
  · rwa [hentries]
  · rw [hentries]
    exact hlayout.small
  · rw [hentries]
    exact hlayout.ascending
  · intro other hother
    obtain ⟨value, hvalue, rfl⟩ := List.mem_map.mp hother
    obtain ⟨hstart, hbelow, hstored⟩ := hlayout.values value hvalue
    unfold FilledSlot.refill
    split
    · next hplace =>
        rw [hsame value hvalue hplace] at hstart
        exact ⟨hstart, hbelow, hplace ▸ hcontent⟩
    · next hplace =>
        exact ⟨hstart, hbelow, hstored.overwrite hwithin hfresh (hvalues value hvalue hplace)⟩

end

/-! ## Rows -/

/-- The count of a row and its bytes are a chunk. -/
theorem Row.At.chunk {row : Row} {bytes : List UInt8} (hrow : row.At bytes) :
    ∃ chunk, chunk.length = 4 + row.size ∧ Placed bytes chunk row.offset := by
  obtain ⟨⟨rest, hsuffix, hoffset⟩, -, hroom⟩ := hrow
  rw [LittleEndian.length_split] at hoffset
  refine ⟨LittleEndian.split 4 row.count ++ rest.take row.size, ?_, rest.drop row.size, ?_, ?_⟩
  · rw [List.length_append, LittleEndian.length_split, List.length_take]
    omega
  · rwa [List.append_assoc, List.take_append_drop]
  · rw [List.length_append, LittleEndian.length_split, List.length_take, List.length_drop]
    omega

/-- The window is as long as it was. -/
theorem Window.length_eq_of_overwrite {window window' : Window} {offset : ℕ} {fresh : List UInt8}
    (hwindow : window'.toList = overwrite window.toList offset fresh)
    (hwithin : offset ≤ window.toList.length) (hfresh : fresh.length ≤ offset) :
    window'.length = window.length := by
  rw [← window'.length_toList, hwindow, length_overwrite hwithin hfresh, window.length_toList]

/-- A row that the chunk does not overlap is in both windows. -/
theorem Row.At.shares {window window' : Window} {row : Row} {offset : ℕ} {fresh : List UInt8}
    (hrow : row.At window.toList)
    (hwindow : window'.toList = overwrite window.toList offset fresh)
    (hwithin : offset ≤ window.toList.length) (hfresh : fresh.length ≤ offset)
    (hapart : Apart offset fresh.length row.offset (4 + row.size)) : window.Shares window' row := by
  obtain ⟨chunk, hlength, hplaced⟩ := hrow.chunk
  have hsame := Window.length_eq_of_overwrite hwindow hwithin hfresh
  have hplaced' : Placed window'.toList chunk row.offset := by
    rw [hwindow]
    exact hplaced.overwrite hwithin hfresh (hlength ▸ hapart)
  have hagree := Window.agree_of_placed hsame hplaced hplaced'
  rw [hlength, ← Nat.add_assoc] at hagree
  exact ⟨hagree, hrow⟩

end GraphWire

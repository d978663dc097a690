import GraphWire.Builder.Table
import GraphWire.Proofs.Builder.Content

/-!
# Tables in a buffer

A table is found through two distances: its own to its vtable, and for each slot an entry of the
vtable to the value.  `TableLayout` says where all of them are, and the lemmas here follow a reader
from the table to the value of a slot, or to its absence.
-/

namespace GraphWire

/-! ## Entries of slots -/

/-- The entry of a slot: the distance from the table to the value of the slot, or zero. -/
def entryOf (table : ℕ) (entries : List (ℕ × ℕ)) (slot : ℕ) : ℕ :=
  match entries.lookup slot with
  | some offset => table - offset
  | none => 0

/-- The slots of a list of entries ascend from a first one on. -/
def Ascending {α : Type} (first : ℕ) : List (ℕ × α) → Prop
  | [] => True
  | (slot, _) :: rest => first ≤ slot ∧ Ascending (slot + 1) rest

theorem Ascending.le {α : Type} {first : ℕ} {entries : List (ℕ × α)}
    (hascending : Ascending first entries) {entry : ℕ × α} (hentry : entry ∈ entries) :
    first ≤ entry.1 := by
  induction entries generalizing first with
  | nil => simp at hentry
  | cons head rest ih =>
      obtain ⟨hfirst, hrest⟩ := hascending
      rcases List.mem_cons.mp hentry with rfl | hlater
      · exact hfirst
      · have hrest' := ih hrest hlater
        omega

theorem lookup_eq_none_of_forall {α : Type} {entries : List (ℕ × α)} {slot : ℕ}
    (hentries : ∀ entry ∈ entries, entry.1 ≠ slot) : entries.lookup slot = none := by
  rw [List.lookup_eq_none_iff]
  intro entry hentry
  rw [bne_iff_ne]
  exact (hentries entry hentry).symm

/-- The words of the entries are the entries of the slots, and zero behind the last of them. -/
theorem slotEntries_getElem? (table first index : ℕ) {entries : List (ℕ × ℕ)}
    (hascending : Ascending first entries) :
    (slotEntries table first entries)[index]?.getD 0 = entryOf table entries (first + index) := by
  induction entries generalizing first index with
  | nil => simp [slotEntries, entryOf]
  | cons entry rest ih =>
      obtain ⟨next, offset⟩ := entry
      obtain ⟨hfirst, hrest⟩ := hascending
      simp only [slotEntries]
      have hlength : (List.replicate (next - first) 0).length = next - first :=
        List.length_replicate
      rcases Nat.lt_trichotomy index (next - first) with hbefore | hat | hafter
      · have hother : (first + index == next) = false := by
          rw [beq_eq_false_iff_ne]
          omega
        have hnone : rest.lookup (first + index) = none := by
          apply lookup_eq_none_of_forall
          intro later hlater
          have hbelow := hrest.le hlater
          omega
        rw [List.getElem?_append_left (by omega)]
        simp [entryOf, List.lookup_cons, hother, hnone, hbefore]
      · have hsame : (first + index == next) = true := by
          rw [beq_iff_eq]
          omega
        rw [List.getElem?_append_right (by omega), hlength, hat, Nat.sub_self]
        rw [hat] at hsame
        simp [entryOf, List.lookup_cons, hsame]
      · have hother : (first + index == next) = false := by
          rw [beq_eq_false_iff_ne]
          omega
        have hindex : index - (next - first) = index - (next - first) - 1 + 1 := by omega
        have hslot : next + 1 + (index - (next - first) - 1) = first + index := by omega
        rw [List.getElem?_append_right (by omega), hlength, hindex, List.getElem?_cons_succ,
          ih _ _ hrest, hslot]
        simp [entryOf, List.lookup_cons, hother]

theorem lookup_of_mem {first slot offset : ℕ} {entries : List (ℕ × ℕ)}
    (hascending : Ascending first entries) (hentry : (slot, offset) ∈ entries) :
    entries.lookup slot = some offset := by
  induction entries generalizing first with
  | nil => simp at hentry
  | cons head rest ih =>
      obtain ⟨next, other⟩ := head
      obtain ⟨-, hrest⟩ := hascending
      rcases List.mem_cons.mp hentry with hsame | hlater
      · cases hsame
        simp
      · have hother : (slot == next) = false := by
          have hbelow := hrest.le hlater
          rw [beq_eq_false_iff_ne]
          omega
        rw [List.lookup_cons, hother]
        exact ih hrest hlater

/-- An entry is zero or the distance to the value of a slot. -/
theorem mem_slotEntries {table first word : ℕ} {entries : List (ℕ × ℕ)}
    (hword : word ∈ slotEntries table first entries) :
    word = 0 ∨ ∃ entry ∈ entries, word = table - entry.2 := by
  induction entries generalizing first with
  | nil => simp [slotEntries] at hword
  | cons entry rest ih =>
      obtain ⟨next, offset⟩ := entry
      simp only [slotEntries, List.mem_append, List.mem_cons] at hword
      rcases hword with hzero | rfl | hlater
      · exact Or.inl (List.eq_of_mem_replicate hzero)
      · exact Or.inr ⟨(next, offset), by simp, rfl⟩
      · rcases ih hlater with hzero | ⟨entry, hentry, hword⟩
        · exact Or.inl hzero
        · exact Or.inr ⟨entry, List.mem_cons_of_mem _ hentry, hword⟩

/-- How many slots there are up to the last one that has an entry. -/
def slotCount (entries : List (ℕ × ℕ)) : ℕ :=
  entries.foldr (fun entry count => max (entry.1 + 1) count) 0

theorem slotCount_le_iff {entries : List (ℕ × ℕ)} {count : ℕ} :
    slotCount entries ≤ count ↔ ∀ entry ∈ entries, entry.1 < count := by
  induction entries with
  | nil => simp [slotCount]
  | cons entry rest ih =>
      have hcount : slotCount (entry :: rest) = max (entry.1 + 1) (slotCount rest) := rfl
      rw [hcount, max_le_iff, Nat.succ_le_iff, ih, List.forall_mem_cons]

theorem length_slotEntries (table : ℕ) {first : ℕ} {entries : List (ℕ × ℕ)}
    (hascending : Ascending first entries) :
    (slotEntries table first entries).length = slotCount entries - first := by
  induction entries generalizing first with
  | nil => simp [slotEntries, slotCount]
  | cons entry rest ih =>
      obtain ⟨next, offset⟩ := entry
      obtain ⟨hfirst, hrest⟩ := hascending
      have hlater := ih hrest
      have hcount : slotCount ((next, offset) :: rest) = max (next + 1) (slotCount rest) := rfl
      simp only [slotEntries, List.length_append, List.length_replicate, List.length_cons]
      omega

/-- The words of the entries are one for each slot up to the last. -/
theorem slotEntries_eq_map (table : ℕ) {entries : List (ℕ × ℕ)}
    (hascending : Ascending 0 entries) :
    slotEntries table 0 entries = (List.range (slotCount entries)).map (entryOf table entries) := by
  have hlength := length_slotEntries table hascending
  rw [Nat.sub_zero] at hlength
  apply List.ext_getElem
  · rw [hlength, List.length_map, List.length_range]
  · intro index hindex _
    have hentry := slotEntries_getElem? table 0 index hascending
    rw [List.getElem?_eq_getElem hindex, Option.getD_some, Nat.zero_add] at hentry
    rw [hentry, List.getElem_map, List.getElem_range]

/-! ## Layouts -/

/-- A slot with a value, and where the value is. -/
structure FilledSlot where
  slot : ℕ
  offset : ℕ
  content : Content
deriving DecidableEq

namespace FilledSlot

/-- The entry that a builder keeps for the slot. -/
def entry (filled : FilledSlot) : ℕ × ℕ :=
  (filled.slot, filled.offset)

/-- The slot with what it holds, wherever that is. -/
def holding (filled : FilledSlot) : ℕ × Content :=
  (filled.slot, filled.content)

end FilledSlot

/-- The words of a vtable: its size, the size of its table and the entries of the slots. -/
def vtableWords (table start : ℕ) (entries : List (ℕ × ℕ)) : List ℕ :=
  let words := slotEntries table 0 entries
  (words.length + Layout.vtableHeaderEntries) * Layout.entryWidth :: (table - start) :: words

/-- Where the parts of a table are: its values between `start` and the table itself, and its vtable
anywhere. -/
structure TableLayout (bytes : List UInt8) (table start vtable : ℕ) (filled : List FilledSlot) :
    Prop where
  distance : Placed bytes (Build.vtableDistance vtable table) table
  words : Placed bytes
    (LittleEndian.splitAll 2 (vtableWords table start (filled.map FilledSlot.entry))) vtable
  small : ∀ word ∈ vtableWords table start (filled.map FilledSlot.entry), word ≤ Layout.maxEntry
  table_le : table ≤ Layout.maxBufferSize
  vtable_le : vtable ≤ Layout.maxBufferSize
  ascending : Ascending 0 (filled.map FilledSlot.entry)
  values : ∀ value ∈ filled, start + value.content.width ≤ value.offset ∧ value.offset < table ∧
    value.content.PlacedAt bytes value.offset

/-- A table at an offset whose slots hold some contents, and whose other slots are absent. -/
def TableAt (bytes : List UInt8) (table : ℕ) (slots : List (ℕ × Content)) : Prop :=
  ∃ start vtable filled, TableLayout bytes table start vtable filled ∧
    filled.map FilledSlot.holding = slots

namespace TableLayout

variable {bytes : List UInt8} {table start vtable : ℕ} {filled : List FilledSlot}

theorem mono {more : List UInt8} (hlayout : TableLayout bytes table start vtable filled)
    (hsuffix : bytes <:+ more) : TableLayout more table start vtable filled where
  distance := hlayout.distance.mono hsuffix
  words := hlayout.words.mono hsuffix
  small := hlayout.small
  table_le := hlayout.table_le
  vtable_le := hlayout.vtable_le
  ascending := hlayout.ascending
  values := by
    intro value hvalue
    obtain ⟨hstart, hbelow, hplaced⟩ := hlayout.values value hvalue
    exact ⟨hstart, hbelow, hplaced.mono hsuffix⟩

variable {window : Window}

/-- The words of the vtable are read where the vtable is. -/
theorem load_word (hlayout : TableLayout window.toList table start vtable filled) {index word : ℕ}
    (hword : (vtableWords table start (filled.map FilledSlot.entry))[index]? = some word) :
    window.load (window.length - vtable + 2 * index) 2 = .ok word := by
  have hlength := hlayout.words.le_length
  have hwords := hlayout.words.length_le
  rw [Window.length_toList] at hlength
  rw [LittleEndian.length_splitAll] at hwords
  have hindex : index < (vtableWords table start (filled.map FilledSlot.entry)).length :=
    (List.getElem?_eq_some_iff.mp hword).1
  have hsmall := hlayout.small word (List.mem_of_getElem? hword)
  have hentry : Layout.maxEntry < 256 ^ 2 := by decide
  have hplace : window.length - vtable + 2 * index = window.length - (vtable - 2 * index) := by
    omega
  rw [hplace]
  exact Window.load_placed (hlayout.words.word hword) (by omega)

/-- The distance of a table leads a reader to its vtable. -/
theorem vtable_eq (hlayout : TableLayout window.toList table start vtable filled) :
    window.vtable (window.length - table : ℕ) = .ok ⟨window.length - vtable,
      2 * (vtableWords table start (filled.map FilledSlot.entry)).length⟩ := by
  have htable := hlayout.distance.le_length
  have hhead := hlayout.distance.length_le
  have hvtable := hlayout.words.le_length
  have hwords := hlayout.words.length_le
  rw [Window.length_toList] at htable hvtable
  rw [LittleEndian.length_splitAll] at hwords
  rw [Build.vtableDistance, LittleEndian.length_split] at hhead
  have hlimit : Layout.maxBufferSize = 2147483647 := rfl
  have htable_le := hlayout.table_le
  have hvtable_le := hlayout.vtable_le
  have hcount : (vtableWords table start (filled.map FilledSlot.entry)).length
      = (slotEntries table 0 (filled.map FilledSlot.entry)).length + 2 := rfl
  have hdistance : TwosComplement.ofWord true 4 (TwosComplement.word 4 ((vtable : ℤ) - table))
      = (vtable : ℤ) - table := by
    apply IntegerType.int32.ofWord_word
    · have hleast : IntegerType.int32.least = -2147483648 := by decide
      omega
    · have hgreatest : IntegerType.int32.greatest = 2147483647 := by decide
      omega
  have hload : window.load (window.length - table) 4
      = .ok (TwosComplement.word 4 ((vtable : ℤ) - table)) :=
    Window.load_placed hlayout.distance (TwosComplement.word_lt 4 _)
  -- A distance of zero would leave the position as it was given, which is the same one.
  have hposition : (if (vtable : ℤ) - table = 0 then ((window.length - table : ℕ) : Number)
      else .ofInt ((window.length - table : ℕ) - ((vtable : ℤ) - table)))
      = ((window.length - vtable : ℕ) : Number) := by
    have hnumber : ((window.length - table : ℕ) : ℤ) - ((vtable : ℤ) - table)
        = ((window.length - vtable : ℕ) : ℤ) := by omega
    split
    · next hzero =>
        have hsame : vtable = table := by omega
        rw [hsame]
    · rw [hnumber]
      rfl
  have hsize : window.load (window.length - vtable + 2 * 0) 2
      = .ok (((slotEntries table 0 (filled.map FilledSlot.entry)).length + 2) * 2) :=
    hlayout.load_word rfl
  rw [Nat.mul_zero, Nat.add_zero] at hsize
  have hvalid : ¬(((slotEntries table 0 (filled.map FilledSlot.entry)).length + 2) * 2 < 4 ∨
      ((slotEntries table 0 (filled.map FilledSlot.entry)).length + 2) * 2 % 2 ≠ 0) := by
    omega
  simp only [Window.vtable, Window.claim_natCast (show window.length - table + 4 ≤ window.length by
      omega), bind, Except.bind, hload, hdistance, hposition,
    Window.claim_natCast (show window.length - vtable + 4 ≤ window.length by omega), hsize,
    if_neg hvalid, Window.claim_natCast (show window.length - vtable
      + ((slotEntries table 0 (filled.map FilledSlot.entry)).length + 2) * 2 ≤ window.length by
      omega)]
  rw [hcount, Nat.mul_comm 2]
  rfl

/-- The entry of a slot is read from the vtable, or is zero behind its end. -/
theorem entry_eq (hlayout : TableLayout window.toList table start vtable filled) (slot : ℕ) :
    window.entry ⟨window.length - vtable,
        2 * (vtableWords table start (filled.map FilledSlot.entry)).length⟩ slot
      = .ok (entryOf table (filled.map FilledSlot.entry) slot) := by
  have hcount : (vtableWords table start (filled.map FilledSlot.entry)).length
      = (slotEntries table 0 (filled.map FilledSlot.entry)).length + 2 := rfl
  have hentry := slotEntries_getElem? table 0 slot hlayout.ascending
  rw [Nat.zero_add] at hentry
  simp only [Window.entry, Number.toNat?_natCast]
  by_cases hbehind : (slotEntries table 0 (filled.map FilledSlot.entry)).length ≤ slot
  · rw [List.getElem?_eq_none hbehind, Option.getD_none] at hentry
    rw [if_pos (by rw [hcount]; simp only [Layout.vtableHeaderEntries, Layout.entryWidth]; omega),
      ← hentry]
  · obtain ⟨word, hword⟩ : ∃ word,
        (slotEntries table 0 (filled.map FilledSlot.entry))[slot]? = some word :=
      ⟨_, List.getElem?_eq_getElem (by omega)⟩
    rw [hword, Option.getD_some] at hentry
    rw [if_neg (by rw [hcount]; simp only [Layout.vtableHeaderEntries, Layout.entryWidth]; omega),
      ← hentry]
    have hplace : window.length - vtable + (Layout.vtableHeaderEntries + slot) * Layout.entryWidth
        = window.length - vtable + 2 * (slot + 2) := by
      simp only [Layout.vtableHeaderEntries, Layout.entryWidth]
      omega
    rw [hplace]
    exact hlayout.load_word hword

/-- A slot without a value is absent, whatever width is asked for. -/
theorem fieldOffset_absent (hlayout : TableLayout window.toList table start vtable filled)
    {slot : ℕ} (habsent : ∀ value ∈ filled, value.slot ≠ slot) (width : Number) :
    window.fieldOffset (window.length - table : ℕ) slot width = .ok 0 := by
  have hnone : (filled.map FilledSlot.entry).lookup slot = none := by
    apply lookup_eq_none_of_forall
    intro entry hentry
    obtain ⟨value, hvalue, rfl⟩ := List.mem_map.mp hentry
    exact habsent value hvalue
  have hzero : entryOf table (filled.map FilledSlot.entry) slot = 0 := by
    rw [entryOf, hnone]
  simp only [Window.fieldOffset, hlayout.vtable_eq, bind, Except.bind, hlayout.entry_eq, hzero]
  rfl

/-- A slot with a value has the distance to it, for every width up to that of the value. -/
theorem fieldOffset_filled (hlayout : TableLayout window.toList table start vtable filled)
    {value : FilledSlot} (hvalue : value ∈ filled) {width : ℕ}
    (hwidth : width ≤ value.content.width) :
    window.fieldOffset (window.length - table : ℕ) value.slot width
      = .ok (table - value.offset) := by
  obtain ⟨hstart, hbelow, -⟩ := hlayout.values value hvalue
  have hlookup : (filled.map FilledSlot.entry).lookup value.slot = some value.offset :=
    lookup_of_mem hlayout.ascending (List.mem_map_of_mem hvalue)
  have hentry : entryOf table (filled.map FilledSlot.entry) value.slot = table - value.offset := by
    rw [entryOf, hlookup]
  have hpositive : table - value.offset ≠ 0 := by omega
  have hsize : window.load (window.length - vtable + 2 * 1) 2 = .ok (table - start) :=
    hlayout.load_word rfl
  have hinside : ¬table - start < table - value.offset + width := by omega
  simp only [Window.fieldOffset, hlayout.vtable_eq, bind, Except.bind, hlayout.entry_eq, hentry,
    if_neg hpositive]
  rw [Nat.mul_one] at hsize
  simp only [hsize, Window.overruns, Number.toNat?_natCast, hinside, decide_false]
  rfl

end TableLayout

namespace TableAt

variable {bytes : List UInt8} {table : ℕ} {slots : List (ℕ × Content)}

theorem mono {more : List UInt8} (htable : TableAt bytes table slots) (hsuffix : bytes <:+ more) :
    TableAt more table slots := by
  obtain ⟨start, vtable, filled, hlayout, hslots⟩ := htable
  exact ⟨start, vtable, filled, hlayout.mono hsuffix, hslots⟩

variable {window : Window}

/-- A slot that holds a content has a value, and the content is read at its position. -/
theorem filled (htable : TableAt window.toList table slots) {slot : ℕ} {content : Content}
    (hslot : (slot, content) ∈ slots) :
    Table.hasField ⟨window, (window.length - table : ℕ)⟩ slot = .ok true ∧
      ∃ position : ℕ,
        Table.fieldPosition? ⟨window, (window.length - table : ℕ)⟩ slot content.width
          = .ok (some position) ∧
        content.ReadAt window position := by
  obtain ⟨start, vtable, filled, hlayout, rfl⟩ := htable
  obtain ⟨value, hvalue, hsame⟩ := List.mem_map.mp hslot
  cases hsame
  obtain ⟨hstart, hbelow, hplaced⟩ := hlayout.values value hvalue
  have htable := hlayout.distance.le_length
  rw [Window.length_toList] at htable
  have hpositive : table - value.offset ≠ 0 := by omega
  have hplace : window.length - table + (table - value.offset) = window.length - value.offset := by
    omega
  constructor
  · have hone : window.fieldOffset (window.length - table : ℕ) value.slot 1 = _ :=
      hlayout.fieldOffset_filled hvalue value.content.isWidth.pos
    simp only [Table.hasField, hone, bind, Except.bind, pure, Except.pure]
    simpa using hpositive
  · refine ⟨window.length - value.offset, ?_, hplaced.readAt⟩
    have hfield := hlayout.fieldOffset_filled hvalue (le_refl value.content.width)
    simp only [Table.fieldPosition?, hfield, bind, Except.bind, if_neg hpositive,
      Number.toNat?_natCast, Option.getD_some, hplace, pure, Except.pure]

/-- A slot that holds nothing is absent, whatever a reader expects in it. -/
theorem absent (htable : TableAt window.toList table slots) {slot : ℕ}
    (habsent : slot ∉ slots.map Prod.fst) :
    Table.hasField ⟨window, (window.length - table : ℕ)⟩ slot = .ok false ∧
      ∀ width,
        Table.fieldPosition? ⟨window, (window.length - table : ℕ)⟩ slot width = .ok none := by
  obtain ⟨start, vtable, filled, hlayout, rfl⟩ := htable
  have hnot (value : FilledSlot) (hvalue : value ∈ filled) : value.slot ≠ slot := by
    rintro rfl
    apply habsent
    rw [List.map_map]
    exact List.mem_map_of_mem hvalue
  constructor
  · simp only [Table.hasField, hlayout.fieldOffset_absent hnot, bind, Except.bind]
    rfl
  · intro width
    simp only [Table.fieldPosition?, hlayout.fieldOffset_absent hnot, bind, Except.bind]
    rfl

end TableAt

end GraphWire

import GraphWire.Proofs.Builder.TableLayout
import GraphWire.Proofs.Builder.Vector

/-!
# Objects of a buffer

An object is what was asked to be written: slots with their contents, elements of one width, or the
bytes of a string.  `Item.At` says that its bytes are at an offset, and `Item.FoundAt` what a reader
finds there who knows the offset and nothing else of the schema.
-/

namespace GraphWire

/-- An object that can be closed. -/
inductive Item where
  /-- The slots that hold a content, lowest slot first. -/
  | table (slots : List (ℕ × Content))
  | vector (width : ℕ) (contents : List Content)
  | string (bytes : List UInt8)

/-- The object is stored at an offset. -/
def Item.At (bytes : List UInt8) (offset : ℕ) : Item → Prop
  | .table slots => TableAt bytes offset slots
  | .vector width contents => VectorAt bytes offset width contents
  | .string text => StringAt bytes offset text

/-! ## What a reader finds -/

/-- The content of a slot as the reader of its own type gives it: a scalar whatever the default, or
the table at the target of a reference. -/
def Table.Gives (table : Table) (slot : ℕ) : Content → Prop
  | .scalar type value => ∀ default, table.scalar type slot default = .ok (type.stored value)
  | .reference target =>
      table.table? slot = .ok (some ⟨table.window, (table.window.length - target : ℕ)⟩)

/-- A slot with a value: the content is where the slot leads to. -/
structure Table.Holds (table : Table) (slot : ℕ) (content : Content) : Prop where
  present : table.hasField slot = .ok true
  position : ∃ position : ℕ, table.fieldPosition? slot content.width = .ok (some position) ∧
    content.ReadAt table.window position
  gives : table.Gives slot content

/-- A slot without a value, to every reader. -/
structure Table.Lacks (table : Table) (slot : ℕ) : Prop where
  absent : table.hasField slot = .ok false
  position : ∀ width, table.fieldPosition? slot width = .ok none
  scalar : ∀ (type : Scalar) (default : type.Value), table.scalar type slot default = .ok default
  text : table.string? slot = .ok none
  reference : table.table? slot = .ok none
  vectorLength : ∀ stride, table.vectorLength slot stride = .ok 0
  scalars : ∀ type, table.scalars type slot = .ok none
  scalarView : ∀ type, table.scalarView type slot = .ok none
  tables : table.tables slot = .ok none
  unionTag : table.unionTag slot = .ok 0

/-- A slot leads to a position by the reference that it holds. -/
def Table.LeadsTo (table : Table) (slot : Number) (start : ℕ) : Prop :=
  ∃ position : ℕ, table.fieldPosition? slot 4 = .ok (some position) ∧
    table.window.indirect position = .ok start

/-- A vector in a slot, to the readers of slots.  Whole lists are read of four-byte elements
only. -/
structure Table.HoldsVector (table : Table) (slot : Number) (width : ℕ) (contents : List Content) :
    Prop where
  length : table.vectorLength slot width = .ok contents.length
  scalar : ∀ (index : ℕ) (type : Scalar) (value : type.Value),
    contents[index]? = some (.scalar type value) →
      table.element type slot index = .ok (type.stored value)
  reference : ∀ index target : ℕ, contents[index]? = some (.reference target) →
    table.tableElement slot index
      = .ok ⟨table.window, (table.window.length - target : ℕ)⟩
  scalars : ∀ (type : Scalar) (values : List type.Value), width = 4 →
    contents = values.map (.scalar type) →
      table.scalars type slot = .ok (some (values.map type.stored))
  references : ∀ targets : List ℕ, width = 4 → contents = targets.map .reference →
    table.tables slot = .ok (some (targets.map fun target =>
      ⟨table.window, (table.window.length - target : ℕ)⟩))

/-- A vector at a position: its count, and the elements behind it, for every reference to it. -/
structure Window.HoldsVector (window : Window) (start width : ℕ) (contents : List Content) :
    Prop where
  count : window.readWord 4 start = .ok contents.length
  vectorLength : ∀ position, window.indirect position = .ok start →
    window.vectorLength position width = .ok contents.length
  vector : ∀ position, window.indirect position = .ok start →
    window.vector position = .ok (start + 4)
  elements : ∀ (index : ℕ) (content : Content), contents[index]? = some content →
    content.ReadAt window (start + 4 + width * index : ℕ)
  slot : ∀ position slot, Table.LeadsTo ⟨window, position⟩ slot start →
    Table.HoldsVector ⟨window, position⟩ slot width contents

/-- A string at a position, for every reference to it, and the zero byte behind it. -/
structure Window.HoldsString (window : Window) (start : ℕ) (text : List UInt8) : Prop where
  stringBytes : ∀ position, window.indirect position = .ok start →
    window.stringBytes position = .ok text
  string : ∀ position decoded, window.indirect position = .ok start →
    Utf8.decode? text = some decoded → window.string position = .ok decoded
  slot : ∀ position slot decoded, Table.LeadsTo ⟨window, position⟩ slot start →
    Utf8.decode? text = some decoded →
      Table.string? ⟨window, position⟩ slot = .ok (some decoded)
  terminated : window.readWord 1 (start + 4 + text.length : ℕ) = .ok 0

/-- What a reader finds at the position of an object. -/
def Item.FoundAt (window : Window) (start : ℕ) : Item → Prop
  | .table slots =>
      (∀ slot content, (slot, content) ∈ slots → Table.Holds ⟨window, start⟩ slot content) ∧
      ∀ slot, slot ∉ slots.map Prod.fst → Table.Lacks ⟨window, start⟩ slot
  | .vector width contents => window.HoldsVector start width contents
  | .string text => window.HoldsString start text

/-! ## From the bytes to the readers -/

variable {window : Window} {offset : ℕ}

theorem Item.At.mono {bytes more : List UInt8} {item : Item} (hitem : item.At bytes offset)
    (hsuffix : bytes <:+ more) : item.At more offset := by
  cases item with
  | table slots => exact TableAt.mono hitem hsuffix
  | vector width contents => exact VectorAt.mono hitem hsuffix
  | string text => exact StringAt.mono hitem hsuffix

theorem Item.At.le_length {bytes : List UInt8} {item : Item} (hitem : item.At bytes offset) :
    offset ≤ bytes.length := by
  cases item with
  | table slots =>
      obtain ⟨start, vtable, filled, hlayout, -⟩ := hitem
      exact hlayout.distance.le_length
  | vector width contents => exact (VectorAt.count hitem).le_length
  | string text => exact (StringAt.placed hitem).le_length

theorem TableAt.holds {slots : List (ℕ × Content)} (htable : TableAt window.toList offset slots)
    {slot : ℕ} {content : Content} (hslot : (slot, content) ∈ slots) :
    Table.Holds ⟨window, (window.length - offset : ℕ)⟩ slot content := by
  obtain ⟨hpresent, position, hposition, hread⟩ := htable.filled hslot
  refine ⟨hpresent, ⟨position, hposition, hread⟩, ?_⟩
  cases content with
  | scalar type value =>
      intro default
      change Table.fieldPosition? _ _ type.width = _ at hposition
      simp only [Table.scalar, hposition]
      exact hread
  | reference target =>
      change Table.fieldPosition? _ _ 4 = _ at hposition
      change window.indirect position = _ at hread
      simp only [Table.Gives, Table.table?, hposition, bind, Except.bind, hread]
      rfl

theorem TableAt.lacks {slots : List (ℕ × Content)} (htable : TableAt window.toList offset slots)
    {slot : ℕ} (hslot : slot ∉ slots.map Prod.fst) :
    Table.Lacks ⟨window, (window.length - offset : ℕ)⟩ slot := by
  obtain ⟨habsent, hposition⟩ := htable.absent hslot
  constructor
  · exact habsent
  · exact hposition
  · intro type default
    simp only [Table.scalar, hposition]
    rfl
  · simp only [Table.string?, hposition]
    rfl
  · simp only [Table.table?, hposition]
    rfl
  · intro stride
    simp only [Table.vectorLength, hposition]
    rfl
  · intro type
    simp only [Table.scalars, Table.elements, hposition]
    rfl
  · intro type
    simp only [Table.scalarView, hposition]
    rfl
  · simp only [Table.tables, Table.elements, hposition]
    rfl
  · simp only [Table.unionTag, hposition]
    rfl

/-! ## Vectors in slots -/

section

variable {position slot : Number} {width : ℕ} {contents : List Content}

/-- An element lies as many widths behind the first as its index says. -/
theorem elementPosition_eq_of_leadsTo (hvector : VectorAt window.toList offset width contents)
    (hleads : Table.LeadsTo ⟨window, position⟩ slot (window.length - offset)) {index : ℕ}
    (hindex : index < contents.length) :
    Table.elementPosition ⟨window, position⟩ slot index width
      = .ok ((window.length - offset + 4 + width * index : ℕ) : Number) := by
  obtain ⟨place, hplace, htarget⟩ := hleads
  have hfound : Table.elementIndex? index contents.length = some index := by
    simp [Table.elementIndex?, Option.filter, hindex]
  simp only [Table.elementPosition, hplace, hvector.vectorLength htarget, VectorAt.vector htarget,
    hfound, Number.toNat?_natCast, AccessError.lift_ok, bind, Except.bind, Nat.mul_comm index]
  rfl

/-- The elements of a vector that a slot leads to are read in order. -/
theorem elements_eq_of_leadsTo (hvector : VectorAt window.toList offset 4 contents)
    (hleads : Table.LeadsTo ⟨window, position⟩ slot (window.length - offset)) {α : Type}
    {read : ℕ → Except Malformed α} {items : List α} (hlength : contents.length = items.length)
    (hread : ∀ place item, items[place]? = some item →
      read (window.length - offset + 4 + 4 * place) = .ok item) :
    Table.elements ⟨window, position⟩ slot read = .ok (some items) := by
  obtain ⟨place, hplace, htarget⟩ := hleads
  have hwithin := hvector.count.le_length
  have hroom := hvector.room
  rw [Window.length_toList] at hwithin
  have hcount : window.vectorLength place 4 = .ok contents.length := hvector.vectorLength htarget
  have hinside : window.length - offset + 4 + 4 * items.length ≤ window.length := by omega
  simp only [Table.elements, hplace, bind, Except.bind, hcount, VectorAt.vector htarget,
    Window.cover, hlength, if_pos hinside, mapM_range_eq hread]
  rfl

/-- A vector that a slot leads to is there for the readers of slots. -/
theorem VectorAt.inSlot (hvector : VectorAt window.toList offset width contents)
    (hleads : Table.LeadsTo ⟨window, position⟩ slot (window.length - offset)) :
    Table.HoldsVector ⟨window, position⟩ slot width contents := by
  have hbelow {index : ℕ} {content : Content} (hcontent : contents[index]? = some content) :
      index < contents.length := (List.getElem?_eq_some_iff.mp hcontent).1
  constructor
  · obtain ⟨place, hplace, htarget⟩ := hleads
    simp only [Table.vectorLength, hplace, bind, Except.bind, hvector.vectorLength htarget]
  · intro index type value hcontent
    obtain rfl : type.width = width := (hvector.elements index _ hcontent).1
    have hread := hvector.readAt hcontent
    change window.read type _ = _ at hread
    simp only [Table.element, elementPosition_eq_of_leadsTo hvector hleads (hbelow hcontent), hread,
      AccessError.lift_ok, bind, Except.bind]
  · intro index target hcontent
    obtain rfl : 4 = width := (hvector.elements index _ hcontent).1
    have hread := hvector.readAt hcontent
    have hplace : Table.elementPosition ⟨window, position⟩ slot index 4 = _ :=
      elementPosition_eq_of_leadsTo hvector hleads (hbelow hcontent)
    change window.indirect _ = _ at hread
    simp only [Table.tableElement, hplace, hread, AccessError.lift_ok, bind, Except.bind]
    rfl
  · rintro type values rfl rfl
    apply elements_eq_of_leadsTo hvector hleads (by simp)
    intro place item hitem
    rw [List.getElem?_map, Option.map_eq_some_iff] at hitem
    obtain ⟨value, hvalue, rfl⟩ := hitem
    exact hvector.readAt (by rw [List.getElem?_map, hvalue]; rfl)
  · rintro targets rfl rfl
    apply elements_eq_of_leadsTo hvector hleads (by simp)
    intro place item hitem
    rw [List.getElem?_map, Option.map_eq_some_iff] at hitem
    obtain ⟨target, htarget, rfl⟩ := hitem
    have hread := hvector.readAt (show _ = some (Content.reference target) by
      rw [List.getElem?_map, htarget]
      rfl)
    change window.indirect _ = _ at hread
    simp only [hread, bind, Except.bind]
    rfl

end

/-! ## Objects -/

theorem VectorAt.holds {width : ℕ} {contents : List Content}
    (hvector : VectorAt window.toList offset width contents) :
    window.HoldsVector (window.length - offset) width contents where
  count := Window.readWord_placed hvector.count hvector.small
  vectorLength := fun _ hposition => hvector.vectorLength hposition
  vector := fun _ hposition => VectorAt.vector hposition
  elements := fun _ _ hcontent => hvector.readAt hcontent
  slot := fun _ _ hleads => hvector.inSlot hleads

theorem StringAt.holds {text : List UInt8} (hstring : StringAt window.toList offset text) :
    window.HoldsString (window.length - offset) text := by
  have hread (position : Number) (decoded : String)
      (hposition : window.indirect position = .ok (window.length - offset))
      (hdecoded : Utf8.decode? text = some decoded) : window.string position = .ok decoded := by
    simp only [Window.string, hstring.stringBytes hposition, VectorAt.vector hposition, bind,
      Except.bind, hdecoded]
    rfl
  constructor
  · intro position hposition
    exact hstring.stringBytes hposition
  · exact hread
  · rintro position slot decoded ⟨place, hplace, htarget⟩ hdecoded
    simp only [Table.string?, hplace, bind, Except.bind, hread place decoded htarget hdecoded]
    rfl
  · exact hstring.terminated

/-- What is stored at an offset is found at the position that lies as far from the end. -/
theorem Item.At.found {item : Item} (hitem : item.At window.toList offset) :
    item.FoundAt window (window.length - offset) := by
  cases item with
  | table slots =>
      have htable : TableAt window.toList offset slots := hitem
      exact ⟨fun _ _ hslot => htable.holds hslot, fun _ hslot => htable.lacks hslot⟩
  | vector width contents => exact VectorAt.holds hitem
  | string text => exact StringAt.holds hitem

end GraphWire

import GraphWire.Reader.Window

/-!
# Tables

A `Table` is a window and a position in it.  Making one reads nothing; each accessor looks the slot
up in the vtable and reads the value.  An absent scalar has its default, an absent string, table or
vector is `none`, and a vector that is present and empty is `some []`.
-/

namespace GraphWire

/-- A table view: where to read and at which position the table starts. -/
structure Table where
  window : Window
  position : Number

/-- A union that is present: its tag and the position of the variant's table. -/
structure UnionSlot where
  tag : Nat
  position : Nat
deriving DecidableEq, Repr

namespace Table

def hasField (table : Table) (slot : Number) : Except Malformed Bool := do
  let offset ← table.window.fieldOffset table.position slot 1
  return offset != 0

def fieldPosition? (table : Table) (slot width : Number) : Except Malformed (Option Nat) := do
  let offset ← table.window.fieldOffset table.position slot width
  if offset = 0 then return none
  return some (table.position.toNat?.getD 0 + offset)

def scalar (table : Table) (type : Scalar) (slot : Number) (default : type.Value) :
    Except Malformed type.Value := do
  match ← table.fieldPosition? slot type.width with
  | none => return default
  | some position => table.window.read type position

def string? (table : Table) (slot : Number) : Except Malformed (Option String) := do
  match ← table.fieldPosition? slot 4 with
  | none => return none
  | some position => some <$> table.window.string position

def table? (table : Table) (slot : Number) : Except Malformed (Option Table) := do
  match ← table.fieldPosition? slot 4 with
  | none => return none
  | some position =>
      let target ← table.window.indirect position
      return some ⟨table.window, target⟩

/-! ## Vectors -/

/-- The element count of the vector in a slot, zero when there is none. -/
def vectorLength (table : Table) (slot stride : Number) : Except Malformed Nat := do
  match ← table.fieldPosition? slot 4 with
  | none => return 0
  | some position => table.window.vectorLength position stride

/-- The index of an element, if the number is one below the length. -/
def elementIndex? (index : Number) (length : Nat) : Option Nat :=
  index.toNat?.filter (· < length)

def elementPosition (table : Table) (slot index stride : Number) : Except AccessError Number := do
  match ← table.fieldPosition? slot 4 with
  | none => throw (.outOfBounds index 0 slot)
  | some position =>
      let length ← table.window.vectorLength position stride
      match elementIndex? index length with
      | none => throw (.outOfBounds index length slot)
      | some element =>
          let start ← table.window.vector position
          match stride.toNat? with
          | some stride => return ((start + element * stride : Nat) : Number)
          | none => return start + index * stride

def element (table : Table) (type : Scalar) (slot index : Number) :
    Except AccessError type.Value := do
  let position ← table.elementPosition slot index type.width
  table.window.read type position

def tableElement (table : Table) (slot index : Number) : Except AccessError Table := do
  let position ← table.elementPosition slot index 4
  let target ← table.window.indirect position
  return ⟨table.window, target⟩

/-- The elements of the vector in a slot, four bytes apart, each as `read` finds it at its
position.  The list is made at its full length before the first element is read, so the elements
must be in the window by then. -/
def elements {α : Type} (table : Table) (slot : Number) (read : Nat → Except Malformed α) :
    Except Malformed (Option (List α)) := do
  match ← table.fieldPosition? slot 4 with
  | none => return none
  | some position =>
      let length ← table.window.vectorLength position 4
      let start ← table.window.vector position
      table.window.cover start (4 * length)
      some <$> (List.range length).mapM fun index => read (start + 4 * index)

/-- A vector of four-byte scalars, read one element after the other. -/
def scalars (table : Table) (type : Scalar) (slot : Number) :
    Except Malformed (Option (List type.Value)) :=
  table.elements slot fun position => table.window.read type position

def tables (table : Table) (slot : Number) : Except Malformed (Option (List Table)) :=
  table.elements slot fun position => do
    let target ← table.window.indirect position
    return ⟨table.window, target⟩

/-- The word with a given index in the backing array taken as an array of four-byte words. -/
def backingWord (window : Window) (index : Nat) : Nat :=
  LittleEndian.combine (window.backing.extract (4 * index) (4 * index + 4)).toList

/-- A vector of four-byte scalars as a word view.  When the elements are aligned in the backing
array they are words of that array; otherwise they are gathered one by one.  The words of the host
are taken to be little-endian; on any other host all elements would be gathered. -/
def scalarView (table : Table) (type : Scalar) (slot : Number) :
    Except Malformed (Option (List type.Value)) := do
  match ← table.fieldPosition? slot 4 with
  | none => return none
  | some position =>
      let length ← table.window.vectorLength position 4
      let start ← table.window.vector position
      let absolute := table.window.start + start
      if absolute % 4 = 0 then
        return some ((List.range length).map fun index =>
          type.ofWord (backingWord table.window (absolute / 4 + index)))
      else
        some <$> (List.range length).mapM fun index =>
          table.window.read type ((start + 4 * index : Nat) : Number)

/-! ## Unions -/

def nextSlot (slot : Number) : Number :=
  match slot.toNat? with
  | some slot => ((slot + 1 : Nat) : Number)
  | none => slot + 1

/-- The tag of the union in a slot as it is stored, zero when the slot is absent. -/
def unionTag (table : Table) (slot : Number) : Except Malformed Nat := do
  match ← table.fieldPosition? slot 1 with
  | none => return 0
  | some position => table.window.readWord 1 position

/-- The union with a tag, whose payload is in the slot after that of the tag.  Tag and payload must
be both absent or both present. -/
def unionPayload (table : Table) (slot : Number) (tag : Nat) :
    Except Malformed (Option UnionSlot) := do
  match ← table.fieldPosition? (nextSlot slot) 4 with
  | none =>
      if tag = 0 then return none
      throw (.tagWithoutPayload slot table.position tag)
  | some position =>
      if tag = 0 then throw (.payloadWithoutTag slot table.position)
      let target ← table.window.indirect position
      return some ⟨tag, target⟩

/-- The union whose tag is in a slot and whose payload is in the next one. -/
def union? (table : Table) (slot : Number) : Except Malformed (Option UnionSlot) := do
  let tag ← table.unionTag slot
  table.unionPayload slot tag

/-- The error for a tag that the table holds outside a closed set. -/
def unknownTag (table : Table) (what : String) (tag : Number) : Malformed :=
  .unknownTag what tag table.position

end Table

end GraphWire

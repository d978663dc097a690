import GraphWire.Number.Arithmetic
import GraphWire.Reader.Malformed
import GraphWire.Text.Identifier
import GraphWire.Text.Utf8
import GraphWire.Wire.Scalar

/-!
# Bounds-checked reading

A `Window` is a range of a larger byte array.  `Window.claim` refuses a range that is not inside the
window; `Window.load` and `Window.bytesAt` take bytes without a check of their own, so each of them
needs a claim in front of it and fails in its own way where there is none.  Positions count from the
front of the window, so what is read depends on the bytes of the window alone (`Window.toList`),
wherever it lies.

Positions and slots are numbers, since a caller may offer any number for them.  Natural numbers are
handled by exact arithmetic; for others the position of a vtable entry, the end of a value and the
byte length of a vector are the rounded sums and products of `GraphWire.Number.Arithmetic`.

On the wire three kinds of distance lead from one place to another: an offset (unsigned, forwards
from itself), the distance of a table back to its vtable (signed), and a vtable entry (unsigned,
forwards from the table).
-/

namespace GraphWire

/-- A range of a byte array. -/
structure Window where
  backing : Array UInt8
  start : Nat
  length : Nat
  fits : start + length ≤ backing.size

/-- A vtable whose stated bytes lie inside the window. -/
structure Vtable where
  start : Nat
  size : Nat
deriving DecidableEq, Repr

namespace Window

def ofArray (bytes : Array UInt8) : Window :=
  ⟨bytes, 0, bytes.size, by omega⟩

def ofList (bytes : List UInt8) : Window :=
  ofArray bytes.toArray

def toList (window : Window) : List UInt8 :=
  (window.backing.extract window.start (window.start + window.length)).toList

/-- The window that ends after at most `length` bytes. -/
def take (window : Window) (length : Nat) : Window :=
  ⟨window.backing, window.start, min length window.length, by have hfits := window.fits; omega⟩

@[simp]
theorem length_toList (window : Window) : window.toList.length = window.length := by
  have hfits := window.fits
  simp [toList]
  omega

@[simp]
theorem toList_ofList (bytes : List UInt8) : (ofList bytes).toList = bytes := by
  simp [ofList, ofArray, toList]

@[simp]
theorem length_ofList (bytes : List UInt8) : (ofList bytes).length = bytes.length := rfl

@[simp]
theorem toList_take (window : Window) (length : Nat) :
    (window.take length).toList = window.toList.take length := by
  have hfits := window.fits
  simp only [take, toList, Array.toList_extract, List.extract_eq_take_drop, List.take_take]
  congr 1
  omega

/-! ## Words and scalars -/

/-- The bytes from an index on, as many as there are up to `size`. -/
def slice (window : Window) (index size : Nat) : List UInt8 :=
  (window.backing.extract (window.start + index)
    (min (window.start + index + size) (window.start + window.length))).toList

/-- What is read depends on the bytes of the window alone. -/
theorem slice_eq (window : Window) (index size : Nat) :
    window.slice index size = (window.toList.drop index).take size := by
  have hfits := window.fits
  simp only [slice, toList, Array.toList_extract, List.extract_eq_take_drop, List.drop_take,
    List.drop_drop, List.take_take]
  congr 1
  omega

def wordAt (window : Window) (index width : Nat) : Nat :=
  LittleEndian.combine (window.slice index width)

/-- Fails for a range that is not inside the window and that nothing has claimed. -/
def cover (window : Window) (index size : Nat) : Except Malformed Unit :=
  if index + size ≤ window.length then .ok () else .error (.uncovered index size window.length)

def bytesAt (window : Window) (index size : Nat) : Except Malformed (List UInt8) := do
  window.cover index size
  return window.slice index size

def load (window : Window) (index width : Nat) : Except Malformed Nat := do
  window.cover index width
  return window.wordAt index width

/-- The index of a position, if `size` bytes from there on lie inside the window. -/
def claim (window : Window) (position : Number) (size : Nat) : Except Malformed Nat :=
  match position.toNat? with
  | some index =>
      if index + size ≤ window.length then .ok index
      else .error (.outside size position window.length)
  | none => .error (.outside size position window.length)

def readWord (window : Window) (width : Nat) (position : Number) : Except Malformed Nat := do
  let index ← window.claim position width
  window.load index width

def read (window : Window) (scalar : Scalar) (position : Number) :
    Except Malformed scalar.Value := do
  let word ← window.readWord scalar.width position
  return scalar.ofWord word

/-! ## Offsets and slots -/

/-- The target of the offset stored at a position, which must lie inside the window. -/
def indirect (window : Window) (position : Number) : Except Malformed Nat := do
  let index ← window.claim position 4
  let distance ← window.load index 4
  let target := index + distance
  if window.length ≤ target then throw (.offsetPastEnd position target window.length)
  return target

def vtable (window : Window) (table : Number) : Except Malformed Vtable := do
  let index ← window.claim table 4
  let word ← window.load index 4
  let distance := TwosComplement.ofWord true 4 word
  let position := if distance = 0 then table else .ofInt (index - distance)
  let start ← window.claim position 4
  let size ← window.load start 2
  if size < 4 ∨ size % 2 ≠ 0 then throw (.vtableSize position size)
  let _ ← window.claim position size
  return ⟨start, size⟩

/-- The entry of a slot in a vtable.  A vtable that ends before the slot says nothing about it, so
its entry is zero: that is how tables written by an older schema are read. -/
def entry (window : Window) (vtable : Vtable) (slot : Number) : Except Malformed Nat :=
  match slot.toNat? with
  | some slot =>
      let position := (Layout.vtableHeaderEntries + slot) * Layout.entryWidth
      if vtable.size ≤ position then .ok 0
      else window.load (vtable.start + position) 2
  | none =>
      let position := Layout.entryPosition slot
      if Number.atMost vtable.size position then .ok 0
      else window.readWord 2 (vtable.start + position)

/-- Whether `width` bytes from `offset` on end after `size`. -/
def overruns (offset : Nat) (width : Number) (size : Nat) : Bool :=
  match width.toNat? with
  | some width => size < offset + width
  | none => Number.below size (offset + width)

/-- The distance from a table to the value of a slot, or zero when the slot is absent. -/
def fieldOffset (window : Window) (table slot width : Number) : Except Malformed Nat := do
  let vtable ← window.vtable table
  let offset ← window.entry vtable slot
  if offset = 0 then return 0
  let tableSize ← window.load (vtable.start + 2) 2
  if overruns offset width tableSize then
    throw (.slotOverrun slot table width offset tableSize)
  return offset

/-! ## Vectors and strings -/

/-- Whether `count` elements take more than the available bytes. -/
def exceeds (count : Nat) (stride : Number) (available : Nat) : Bool :=
  match stride.toNat? with
  | some stride => available < count * stride
  | none => Number.below available (count * stride)

/-- The element count of the vector whose offset is stored at a position; the elements must end
inside the window. -/
def vectorLength (window : Window) (position stride : Number) : Except Malformed Nat := do
  let start ← window.indirect position
  let index ← window.claim start 4
  let count ← window.load index 4
  let available := window.length - (index + 4)
  if exceeds count stride available then throw (.vectorOverrun start count stride available)
  return count

/-- Where the elements of the vector begin whose offset is stored at a position. -/
def vector (window : Window) (position : Number) : Except Malformed Nat := do
  let start ← window.indirect position
  return start + 4

/-- The bytes of the string whose offset is stored at a position, without the terminator. -/
def stringBytes (window : Window) (position : Number) : Except Malformed (List UInt8) := do
  let count ← window.vectorLength position 1
  let start ← window.vector position
  window.bytesAt start count

def string (window : Window) (position : Number) : Except Malformed String := do
  let bytes ← window.stringBytes position
  let start ← window.vector position
  match Utf8.decode? bytes with
  | some text => return text
  | none => throw (.text start)

/-! ## The head of a buffer -/

def rootOffsetPosition (sizePrefixed : Bool) : Nat :=
  if sizePrefixed then Layout.sizePrefixWidth else 0

def rootTable (window : Window) (sizePrefixed : Bool) : Except Malformed Nat :=
  window.indirect (rootOffsetPosition sizePrefixed)

/-- The identifier bytes, or nothing when the buffer ends before them. -/
def identifier? (window : Window) (sizePrefixed : Bool) : Option String :=
  let index := rootOffsetPosition sizePrefixed + Layout.offsetWidth
  if index + Layout.identifierLength ≤ window.length then
    some (Identifier.ofBytes (window.slice index Layout.identifierLength))
  else none

def hasIdentifier (window : Window) (identifier : String) (sizePrefixed : Bool) : Bool :=
  window.identifier? sizePrefixed == some identifier

/-- The window without what lies behind the bytes that its size prefix declares.  Those bytes belong
to the next buffer. -/
def frame (window : Window) : Except Malformed Window := do
  let index ← window.claim 0 Layout.sizePrefixWidth
  let declared ← window.load index Layout.sizePrefixWidth
  let available := window.length - Layout.sizePrefixWidth
  if available < declared then throw (.sizePrefix declared available)
  return window.take (Layout.sizePrefixWidth + declared)

end Window

end GraphWire

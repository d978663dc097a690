import GraphWire.Number.Arithmetic

/-!
# Layout of a buffer

A finished buffer reads, front to back:

* the size prefix, optional: the byte length of everything after it;
* the root offset: the distance from this word to the root table;
* the identifier, optional: four ASCII bytes;
* the body: tables, vtables, vectors and strings.

All words are little-endian.  A table starts with the signed distance back to its vtable; a vtable
holds its own byte length, the byte length of the table and one entry per slot, each entry the
distance from the table to the slot's value or zero.
-/

namespace GraphWire.Layout

def entryWidth : Nat := 2

/-- The width of an offset, of a vector length and of the root offset. -/
def offsetWidth : Nat := 4

def sizePrefixWidth : Nat := 4

def identifierLength : Nat := 4

/-- The entries at the head of a vtable before those of the slots. -/
def vtableHeaderEntries : Nat := 2

/-- The largest capacity of a builder, because offsets are 32-bit signed on the way to a vtable. -/
def maxBufferSize : Nat := 0x7fffffff

def defaultInitialSize : Nat := 1024

def modelIdentifier : String := "MODL"

/-- The schema version that the tables of this library have. -/
def schemaVersion : Int := 1

def maxEntry : Nat := 0xffff

/-- The position of a slot's entry inside a vtable, for any number given as a slot. -/
def entryPosition (slot : Number) : Number :=
  (vtableHeaderEntries + slot) * entryWidth

end GraphWire.Layout

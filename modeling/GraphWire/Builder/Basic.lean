import GraphWire.Builder.Store
import GraphWire.Log
import GraphWire.Options
import GraphWire.Wire.Scalar

/-!
# The state of a builder

A buffer is written back to front: every value is put in front of what is already there, and the
distance of an object from the end, its offset, never changes afterwards.  A builder is one over any
`Store` that holds the bytes.  A program runs it over a `Scratch`, an array with free space in front;
what is said of builders is said over a `Region`, the list of the written bytes.

At most one table or vector is open, and none once the buffer is finished: `Phase` has no other
states.
-/

namespace GraphWire

/-- What a caller tried to begin. -/
inductive Opening where
  | table
  | vector
  | string
  | finish
deriving DecidableEq, Repr

def Opening.name : Opening → String
  | table => "A table"
  | vector => "A vector"
  | string => "A string"
  | finish => "finish()"

/-- Why a builder refused a call. -/
inductive BuildError where
  /-- The argument can never be meant; the builder is as before. -/
  | argument (cause : ArgumentError)
  /-- A number does not fit the integer type it is written as. -/
  | unrepresentable (refused : Unrepresentable)
  /-- The buffer is sealed. -/
  | alreadyFinished
  /-- The buffer is not sealed yet. -/
  | notFinished
  | insideTable (what : Opening)
  | insideVector (what : Opening)
  /-- The buffer cannot grow any more. -/
  | capacityLimit
  /-- A reference to something that is not in the buffer. -/
  | unwrittenOffset (target : Number) (size : Nat)
  | fieldOutsideTable (slot : Number)
  | slotOutsideTable (slot : Number) (fieldCount : Nat)
  /-- A field whose slot is not below that of the field before it. -/
  | slotOrder (slot : Number) (limit : Nat)
  | noOpenTable
  | tableTooLarge (size : Nat)
  | noOpenVector
  /-- The bytes of a vector are not those of its declared elements. -/
  | vectorSize (count byteLength : Number) (written : Nat)
deriving DecidableEq

namespace BuildError

def message : BuildError → String
  | argument cause => cause.message
  | unrepresentable refused => refused.message
  | alreadyFinished => "Buffer is already finished. Call clear() to start a new one."
  | notFinished => "asUint8Array() called before finish()."
  | insideTable what =>
      s!"{what.name} cannot start while a table is open; finish children before their parent."
  | insideVector what => s!"{what.name} cannot start while a vector is open."
  | capacityLimit => s!"Buffer cannot grow beyond {Layout.maxBufferSize} bytes."
  | unwrittenOffset target size =>
      s!"Offset {target} does not refer to a written object (buffer holds {size} bytes)."
  | fieldOutsideTable slot => s!"Field for slot {slot} added outside startTable()/endTable()."
  | slotOutsideTable slot fieldCount =>
      s!"Slot {slot} is outside the open table's {fieldCount} slot(s)."
  | slotOrder slot limit =>
      s!"Slot {slot} added after slot {limit}; fields must be added in strictly descending slot "
        ++ "order."
  | noOpenTable => "endTable() called without a matching startTable()."
  | tableTooLarge size =>
      s!"Table is {size} bytes; vtable entries are u16 and address at most {Layout.maxEntry}."
  | noOpenVector => "endVector() called without a matching startVector()."
  | vectorSize count byteLength written =>
      s!"Vector declared {count} element(s) ({byteLength} bytes) but {written} bytes were written."

end BuildError

structure OpenTable where
  fieldCount : Nat
  /-- The size of the region when the table was opened. -/
  start : Nat
  /-- Only slots below this one may still be added. -/
  limit : Nat
  /-- The slots with a value and the offsets of the values, lowest slot first. -/
  entries : List (Nat × Nat)
deriving DecidableEq, Repr

structure OpenVector where
  count : Number
  /-- The bytes that the elements are to take: a number as the caller gave it, so maybe one that no
  elements can add up to. -/
  byteLength : Number
  /-- The size of the region when the vector was opened. -/
  start : Nat
deriving DecidableEq

/-- What a builder is in the middle of. -/
inductive Phase where
  | idle
  | table (opened : OpenTable)
  | vector (opened : OpenVector)
  | finished
deriving DecidableEq

structure StoredVtable where
  bytes : List UInt8
  offset : Nat
deriving DecidableEq, Repr

structure Builder (σ : Type := Region) where
  forceDefaults : Bool
  dedupeVtables : Bool
  /-- The size of the buffer, written and free bytes together. -/
  capacity : Nat
  written : σ
  /-- The largest alignment asked for so far. -/
  alignment : Number
  phase : Phase
  /-- The vtables that later tables may share, latest first. -/
  vtables : List StoredVtable
  vtableCount : Nat
  /-- The records logged so far, latest first. -/
  log : List Event

namespace Builder

def new (settings : BuilderSettings) (σ : Type := Region) [Store σ] : Builder σ where
  forceDefaults := settings.forceDefaults
  dedupeVtables := settings.dedupeVtables
  capacity := settings.initialSize
  written := Store.blank settings.initialSize
  alignment := 1
  phase := .idle
  vtables := []
  vtableCount := 0
  log := []

variable {σ : Type} [Store σ]

/-- The builder with everything written discarded.  It keeps its capacity and its log. -/
def cleared (builder : Builder σ) : Builder σ where
  forceDefaults := builder.forceDefaults
  dedupeVtables := builder.dedupeVtables
  capacity := builder.capacity
  written := Store.erase builder.written
  alignment := 1
  phase := .idle
  vtables := []
  vtableCount := 0
  log := builder.log

/-- The number of bytes written, which is also the offset of the latest object. -/
def offset (builder : Builder σ) : Nat :=
  Store.size builder.written

/-- The log records, oldest first. -/
def events (builder : Builder σ) : List Event :=
  builder.log.reverse

end Builder

/-- A computation that works on a builder over a store.  After an error the builder is as the
failing step left it, which shows in its capacity and its log. -/
abbrev BuildOver (σ : Type) := EStateM BuildError (Builder σ)

abbrev Build := BuildOver Region

end GraphWire

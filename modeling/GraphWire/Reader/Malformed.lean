import GraphWire.Number.Decimal

/-!
# Contradictions in a buffer

Each way in which the bytes of a buffer can contradict the format is a cause of its own, with what
is needed to describe it.  A field that is merely absent is never an error, so absent and corrupt
stay apart.
-/

namespace GraphWire

/-- How the bytes of a buffer contradict the format. -/
inductive Malformed where
  /-- A read that is not inside the buffer, or not at an integer position. -/
  | outside (size : Nat) (position : Number) (length : Nat)
  /-- An offset that leads past the end. -/
  | offsetPastEnd (position : Number) (target length : Nat)
  /-- A vtable whose stated size is odd or smaller than its own head. -/
  | vtableSize (vtable : Number) (size : Nat)
  /-- A value that does not end inside its table. -/
  | slotOverrun (slot table width : Number) (offset tableSize : Nat)
  /-- A vector whose elements do not end inside the buffer. -/
  | vectorOverrun (vector count : Nat) (stride : Number) (available : Nat)
  /-- A string that is not valid UTF-8. -/
  | text (start : Nat)
  /-- A union without a variant that carries a payload. -/
  | payloadWithoutTag (slot table : Number)
  /-- A union variant without a payload. -/
  | tagWithoutPayload (slot table : Number) (tag : Nat)
  /-- A tag outside the closed set of a union or an enumeration. -/
  | unknownTag (what : String) (tag table : Number)
  /-- A size prefix that declares more bytes than follow it. -/
  | sizePrefix (declared available : Nat)
  /-- A load outside the buffer that no check stands in front of.  This would be an error of the
  reader and not of the bytes. -/
  | uncovered (index size length : Nat)
deriving DecidableEq

namespace Malformed

/-- The position that the contradiction is reported for. -/
def position : Malformed → Number
  | outside _ position _ => position
  | offsetPastEnd position _ _ => position
  | vtableSize vtable _ => vtable
  | slotOverrun _ table _ _ _ => table
  | vectorOverrun vector _ _ _ => vector
  | text start => start
  | payloadWithoutTag _ table => table
  | tagWithoutPayload _ table _ => table
  | unknownTag _ _ table => table
  | sizePrefix _ _ => 0
  | uncovered index _ _ => index

def message : Malformed → String
  | outside size position length =>
      s!"Read of {size} byte(s) at {position} is outside the buffer (length {length})."
  | offsetPastEnd position target length =>
      s!"uoffset at {position} points to {target}, past the end of the buffer (length {length})."
  | vtableSize vtable size => s!"Vtable at {vtable} declares invalid size {size}."
  | slotOverrun slot table width offset tableSize =>
      s!"Slot {slot} of table at {table}: {width} byte(s) at offset {offset} overrun the table size "
        ++ s!"{tableSize}."
  | vectorOverrun vector count stride available =>
      s!"Vector at {vector} claims {count} element(s) of {stride} byte(s); only {available} byte(s) "
        ++ "remain."
  | text start =>
      s!"String at {start} is not valid UTF-8: The encoded data was not valid for encoding utf-8"
  | payloadWithoutTag slot table =>
      s!"Union at slot {slot} of table {table} has tag NONE but carries a payload."
  | tagWithoutPayload slot table tag =>
      s!"Union at slot {slot} of table {table} has tag {tag} but no payload."
  | unknownTag what tag table => s!"Unknown {what} tag {tag} in table at {table}."
  | sizePrefix declared available =>
      s!"Size prefix declares {declared} bytes but only {available} follow it."
  | uncovered .. => "Offset is outside the bounds of the DataView"

/-- Whether the bytes are at fault, and not a load without a check. -/
def inBytes : Malformed → Bool
  | uncovered .. => false
  | _ => true

end Malformed

/-- Why an access by index failed. -/
inductive AccessError where
  /-- The bytes contradict the format. -/
  | malformed (cause : Malformed)
  /-- The vector has no such element. -/
  | outOfBounds (index : Number) (length : Nat) (slot : Number)
deriving DecidableEq

namespace AccessError

def message : AccessError → String
  | malformed cause => cause.message
  | outOfBounds index length slot =>
      s!"Index {index} is out of bounds for vector of length {length} (slot {slot})."

end AccessError

instance : MonadLift (Except Malformed) (Except AccessError) :=
  ⟨Except.mapError AccessError.malformed⟩

end GraphWire

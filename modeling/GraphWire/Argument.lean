import GraphWire.Number.Decimal
import GraphWire.Text.Identifier

/-!
# Rejected arguments

An argument that can never be meant, whatever the state of a builder or the bytes of a buffer, is
refused before anything happens.
-/

namespace GraphWire

/-- Why an argument was refused. -/
inductive ArgumentError where
  /-- The starting capacity of a builder is not an integer in range. -/
  | initialSize (size : Number)
  /-- The expected schema version is not an integer. -/
  | expectedVersion (version : Number)
  /-- The text is not four ASCII characters. -/
  | identifier (text : String)
  /-- The number of slots of a table is not a natural number. -/
  | fieldCount (count : Number)
  /-- The number of slots of a table is past the limit. -/
  | tooManyFields
  /-- The number of elements of a vector is not a natural number. -/
  | elementCount (count : Number)
deriving DecidableEq

namespace ArgumentError

def message : ArgumentError → String
  | initialSize size =>
      s!"initialSize must be an integer in [1, {Layout.maxBufferSize}]; got {size}."
  | expectedVersion version => s!"expectedSchemaVersion must be an integer; got {version}."
  | identifier text =>
      s!"File identifier must be {Layout.identifierLength} ASCII characters; got '{text}'."
  | fieldCount count =>
      s!"startTable: numFields must be a non-negative integer; got {count}."
  | tooManyFields => "Invalid array length"
  | elementCount count =>
      s!"startVector: numElems must be a non-negative integer; got {count}."

end ArgumentError

/-- Refuses a text that cannot serve as an identifier. -/
def Identifier.check (text : String) : Except ArgumentError Unit :=
  if Identifier.valid text then .ok () else .error (.identifier text)

end GraphWire

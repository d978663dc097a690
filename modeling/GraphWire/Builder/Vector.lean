import GraphWire.Builder.Space
import GraphWire.Text.Utf8

/-!
# Writing vectors and strings

A vector is its element count followed by its elements.  The count is written last, in front of the
first element, so opening a vector pads for the whole of it: then neither the elements nor the
count need any padding between them.  A string is a vector of bytes with a zero byte behind it that
does not count.
-/

namespace GraphWire.Build

variable {σ : Type} [Store σ]

/-- Opens a vector of the given byte length where nothing is open.  Its elements are then written
last first. -/
def openVector (count byteLength alignment : Number) : BuildOver σ Unit := do
  prepare Layout.offsetWidth byteLength
  prepare alignment byteLength
  modify fun builder =>
    { builder with phase := .vector ⟨count, byteLength, builder.offset⟩ }

def startVector (elementSize count alignment : Number) : BuildOver σ Unit := do
  requireWritable
  requireIdle .vector
  if count.toNat?.isNone then throw (.argument (.elementCount count))
  openVector count (elementSize * count) alignment

def endVector : BuildOver σ Nat := do
  let builder ← get
  match builder.phase with
  | .vector opened =>
      let written := builder.offset - opened.start
      if opened.byteLength.toNat? ≠ some written then
        throw (.vectorSize opened.count opened.byteLength written)
      set { builder with phase := .idle }
      write .uint32 opened.count
      return (← get).offset
  | _ => throw .noOpenVector

/-- Writes a vector of elements that all have one width, given how to write them. -/
def vectorOf (width count : Nat) (elements : BuildOver σ Unit) : BuildOver σ Nat := do
  requireWritable
  requireIdle .vector
  openVector count (width * count : Nat) width
  elements
  endVector

def scalars (type : Scalar) (values : List type.Value) : BuildOver σ Nat :=
  vectorOf type.width values.length (writeAll (write type) values)

def offsets (targets : List Number) : BuildOver σ Nat :=
  vectorOf Layout.offsetWidth targets.length (writeAll writeOffset targets)

def stringBytes (bytes : List UInt8) : BuildOver σ Nat := do
  requireWritable
  requireIdle .string
  write .int8 (0 : Number)
  vectorOf 1 bytes.length (push bytes)

def string (text : String) : BuildOver σ Nat :=
  stringBytes (Utf8.encode text)

end GraphWire.Build

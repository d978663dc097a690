import GraphWire.Builder.Space

/-!
# Finishing a buffer

Finishing writes the head of the buffer: the optional size prefix, the root offset and the optional
identifier.  One reservation for all of it, at the largest alignment of the buffer, comes first, so
that the three lie next to each other and every position is aligned from the front as well.
-/

namespace GraphWire

/-- What the head of a buffer holds besides the root offset. -/
structure FinishOptions where
  identifier : Option String := none
  sizePrefix : Bool := false
deriving DecidableEq, Repr

namespace Build

variable {σ : Type} [Store σ]

/-- Makes room for the whole head and writes the identifier, its last part. -/
def beginHead (options : FinishOptions) : BuildOver σ Unit := do
  let prefixWidth := if options.sizePrefix then Layout.sizePrefixWidth else 0
  let alignment := (← get).alignment
  match options.identifier with
  | some identifier =>
      match Identifier.check identifier with
      | .error cause => throw (.argument cause)
      | .ok () =>
          prepare alignment (Layout.offsetWidth + Layout.identifierLength + prefixWidth : Nat)
          push (Identifier.toBytes identifier)
  | none => prepare alignment (Layout.offsetWidth + prefixWidth : Nat)

/-- Writes the byte length of everything so far. -/
def writeSize : BuildOver σ Unit := do
  let size := (← get).offset
  write .uint32 (size : Number)

/-- Seals the buffer, which changes no byte of it. -/
def markFinished (identifier : Option String) : BuildOver σ Unit :=
  modify fun builder =>
    { builder with
      phase := .finished
      log := .finished builder.offset builder.vtableCount identifier :: builder.log }

def finish (root : Number) (options : FinishOptions) : BuildOver σ Unit := do
  requireWritable
  requireIdle .finish
  beginHead options
  writeOffset root
  if options.sizePrefix then writeSize
  markFinished options.identifier

def bytes : BuildOver σ (List UInt8) := do
  let builder ← get
  match builder.phase with
  | .finished => return Store.bytes builder.written
  | _ => throw .notFinished

def clear : BuildOver σ Unit :=
  modify Builder.cleared

end Build

end GraphWire

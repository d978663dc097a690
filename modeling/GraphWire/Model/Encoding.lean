import GraphWire.Builder.Finish
import GraphWire.Builder.Table
import GraphWire.Builder.Vector
import GraphWire.Schema.Model

/-!
# Encoding models

Each part of a model is written by a `Build` computation that gives the offset of its table.  The
children of a table come before it, in the order that is fixed here, since the bytes of a buffer
depend on it; then the table itself is written from its list of fields.
-/

namespace GraphWire

variable {σ : Type} [Store σ]

/-- A reference field for a child that may be absent. -/
def Build.reference (child : Option (BuildOver σ Nat)) : BuildOver σ Field := do
  match child with
  | none => return .reference 0
  | some write =>
      let offset ← write
      return .reference (offset : Number)

/-- The code of a union tag, zero for an absent union. -/
def tagCode {α : Type} [Tag α] (tag : Option α) : Number :=
  match tag with
  | none => 0
  | some member => (Tag.code member : Number)

def tagField {α : Type} [Tag α] (tag : Option α) : Field :=
  .scalar .uint8 (tagCode tag) (0 : Number)

/-- The field for a value of an attribute, after writing what the field refers to. -/
def AttrType.writeField : (type : AttrType) → Option type.Value → BuildOver σ Field
  | .scalar type, value => return .scalar type (value.getD type.zero) type.zero
  | .padMode, value => return .scalar .int8 (value.getD (0 : Number)) (0 : Number)
  | .indices, value => Build.reference (value.map (Build.scalars .uint32))

/-- The fields of an attribute record, after writing what they refer to. -/
def AttrRecord.writeFields : {fields : List AttrField} → AttrRecord fields → BuildOver σ (List Field)
  | [], .nil => return []
  | head :: _, .cons value rest => do
      let field ← head.type.writeField value
      let others ← rest.writeFields
      return field :: others

def Attrs.write (attrs : Attrs) : BuildOver σ Nat := do
  let fields ← attrs.record.writeFields
  Build.table fields

def Payload.write (payload : Payload) : BuildOver σ Nat := do
  let data ← match payload.kind with
    | .floats => Build.reference (payload.data.map (Build.scalars .float32))
    | .ints => Build.reference (payload.data.map (Build.scalars .int32))
  Build.table [data]

def Operator.write (operator : Operator) : BuildOver σ Nat := do
  let inputs ← Build.reference (operator.inputs.map (Build.scalars .uint32))
  let attrs ← Build.reference (operator.attrs.map Attrs.write)
  Build.table
    [.scalar .int8 operator.type (0 : Number), tagField (operator.attrs.map Attrs.kind), attrs,
      inputs]

def Constant.write (constant : Constant) : BuildOver σ Nat := do
  let shape ← Build.reference (constant.shape.map (Build.scalars .uint32))
  let data ← Build.reference (constant.data.map Payload.write)
  Build.table [shape, tagField (constant.data.map Payload.kind), data]

/-- Writes the table of a value node, which has no fields. -/
def Build.valueNode : BuildOver σ Nat :=
  Build.table []

def NodeData.write : NodeData → BuildOver σ Nat
  | .operator content => content.write
  | .constant content => content.write
  | .value => Build.valueNode

def Node.write (node : Node) : BuildOver σ Nat := do
  let id ← Build.reference ((node.id.map Utf16.text).map Build.string)
  let data ← Build.reference (node.data.map NodeData.write)
  Build.table [id, tagField (node.data.map NodeData.kind), data]

/-- Writes a list of nodes and then the vector of references to them. -/
def Graph.writeNodes (nodes : List Node) : BuildOver σ Nat := do
  let offsets ← nodes.mapM Node.write
  Build.offsets (offsets.map fun (offset : Nat) => (offset : Number))

def Graph.write (graph : Graph) : BuildOver σ Nat := do
  let nodes ← Build.reference (graph.nodes.map Graph.writeNodes)
  Build.table [nodes]

def Model.write (model : Model) : BuildOver σ Nat := do
  let graph ← Build.reference (model.graph.map Graph.write)
  Build.table [.scalar .int32 model.schemaVersion (0 : Number), graph]

structure EncodeOptions extends BuilderOptions where
  /-- Put the byte length of the rest in front of the buffer. -/
  sizePrefix : Option Bool := none

/-- An outcome together with the records logged on the way, oldest first. -/
structure Logged (ε α : Type) where
  events : List Event
  outcome : Except ε α

def Build.runNew {α : Type} (options : BuilderOptions) (computation : BuildOver σ α) :
    Logged BuildError α :=
  match options.resolve with
  | .error cause => ⟨[], .error (.argument cause)⟩
  | .ok settings =>
      match computation (Builder.new settings σ) with
      | .ok value builder => ⟨builder.events, .ok value⟩
      | .error error builder => ⟨builder.events, .error error⟩

/-- Writes a whole buffer with a model as its root. -/
def Model.writeBuffer (model : Model) (sizePrefix : Bool) : BuildOver σ (List UInt8) := do
  let root ← model.write
  Build.finish (root : Number) { identifier := some Layout.modelIdentifier, sizePrefix }
  Build.bytes

def Model.encode (model : Model) (options : EncodeOptions) (σ : Type := Region) [Store σ] :
    Logged BuildError (List UInt8) :=
  Build.runNew options.toBuilderOptions
    (model.writeBuffer (options.sizePrefix.getD false) : BuildOver σ (List UInt8))

end GraphWire

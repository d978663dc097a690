import GraphWire.Reader.Table
import GraphWire.Schema.Model

/-!
# Views of a model

A view of each part of a model is a table whose accessors know the slots.  A view reads nothing
until it is asked, so damage to one field leaves the others readable; the `unpack` functions read
all there is below a view and give the plain value.
-/

namespace GraphWire

/-- Refuses a number that stands for no member of an enumeration. -/
def Table.member {α : Type} [Tag α] (table : Table) (what : String) (number : Number) :
    Except Malformed α :=
  match Tag.ofNumber? number with
  | some member => .ok member
  | none => .error (table.unknownTag what number)

/-- A vector of four-byte scalars in a slot of a table. -/
structure VectorView where
  table : Table
  type : Scalar
  slot : Number

namespace VectorView

/-- The number of elements, zero when the vector is absent. -/
def length (view : VectorView) : Except Malformed Nat :=
  view.table.vectorLength view.slot 4

def get (view : VectorView) (index : Number) : Except AccessError view.type.Value :=
  view.table.element view.type view.slot index

/-- All elements, read one by one. -/
def toList (view : VectorView) : Except Malformed (Option (List view.type.Value)) :=
  view.table.scalars view.type view.slot

/-- All elements as a word view. -/
def words (view : VectorView) : Except Malformed (Option (List view.type.Value)) :=
  view.table.scalarView view.type view.slot

end VectorView

/-- The tag of a union as it is stored, zero when it is absent. -/
def Table.tag (table : Table) (slot : Number) : Except Malformed Number :=
  table.scalar .uint8 slot (0 : Number)

/-! ## Attributes -/

structure AttrsView where
  kind : AttrsKind
  table : Table

/-- The attribute record at a position of an owner's window, for the tag that the owner holds. -/
def AttrsView.ofUnion (owner : Table) (tag position : Number) : Except Malformed AttrsView := do
  let kind ← owner.member "OperatorAttrs" tag
  return ⟨kind, ⟨owner.window, position⟩⟩

def AttrType.read (table : Table) (slot : Nat) :
    (type : AttrType) → Except Malformed (Option type.Value)
  | .scalar type => some <$> table.scalar type slot type.zero
  | .padMode => do
      let code ← table.scalar .int8 slot (0 : Number)
      let _ ← (table.member "PadMode" code : Except Malformed PadMode)
      return some code
  | .indices => table.scalars .uint32 slot

/-- The values of a list of fields from a slot on. -/
def AttrRecord.read (table : Table) :
    (fields : List AttrField) → (slot : Nat) → Except Malformed (AttrRecord fields)
  | [], _ => return .nil
  | field :: fields, slot => do
      let value ← field.type.read table slot
      let rest ← AttrRecord.read table fields (slot + 1)
      return .cons value rest

def AttrsView.unpack (view : AttrsView) : Except Malformed Attrs := do
  let record ← AttrRecord.read view.table view.kind.fields 0
  return ⟨view.kind, record⟩

/-! ## Constants -/

structure PayloadView where
  kind : PayloadKind
  table : Table

namespace PayloadView

/-- The vector of the elements. -/
def vector (view : PayloadView) : VectorView :=
  ⟨view.table, view.kind.scalar, 0⟩

/-- The elements, as the scalar type of the payload reads them. -/
def data (view : PayloadView) : Except Malformed (Option (List Number)) :=
  match view.kind with
  | .floats => view.table.scalars .float32 0
  | .ints => view.table.scalars .int32 0

/-- The payload with all its elements. -/
def unpack (view : PayloadView) : Except Malformed Payload := do
  let data ← view.data
  return ⟨view.kind, data⟩

end PayloadView

structure ConstantView where
  table : Table

namespace ConstantView

def shapeVector (view : ConstantView) : VectorView :=
  ⟨view.table, .uint32, 0⟩

def shape (view : ConstantView) : Except Malformed (Option (List Number)) :=
  view.shapeVector.toList

/-- The stored tag of the payload. -/
def dataType (view : ConstantView) : Except Malformed Number :=
  view.table.tag 1

/-- The elements, of the kind that the tag says. -/
def data (view : ConstantView) : Except Malformed (Option PayloadView) := do
  match ← view.table.union? 1 with
  | none => return none
  | some slot =>
      let kind ← view.table.member "ConstantData" slot.tag
      return some ⟨kind, ⟨view.table.window, slot.position⟩⟩

/-- The constant with all its fields. -/
def unpack (view : ConstantView) : Except Malformed Constant := do
  let data ← match ← view.data with
    | none => pure none
    | some payload => some <$> payload.unpack
  let shape ← view.shape
  return ⟨shape, data⟩

end ConstantView

/-! ## Operators -/

structure OperatorView where
  table : Table

namespace OperatorView

def type (view : OperatorView) : Except Malformed OperatorType := do
  let code ← view.table.scalar .int8 0 (0 : Number)
  view.table.member "OperatorType" code

/-- The attributes, of the kind that the tag says. -/
def attrs (view : OperatorView) : Except Malformed (Option AttrsView) := do
  match ← view.table.union? 1 with
  | none => return none
  | some slot => some <$> AttrsView.ofUnion view.table slot.tag slot.position

/-- The stored tag of the attributes. -/
def attrsType (view : OperatorView) : Except Malformed Number :=
  view.table.tag 1

def inputVector (view : OperatorView) : VectorView :=
  ⟨view.table, .uint32, 3⟩

def inputs (view : OperatorView) : Except Malformed (Option (List Number)) :=
  view.inputVector.toList

/-- The operator with all its fields.  The tag of the attributes is looked at before the type, and
the attributes themselves after it. -/
def unpack (view : OperatorView) : Except Malformed Operator := do
  let attrsView ← view.attrs
  let type ← view.type
  let attrs ← match attrsView with
    | none => pure none
    | some attrs => some <$> attrs.unpack
  let inputs ← view.inputs
  return ⟨Tag.code type, attrs, inputs⟩

end OperatorView

/-! ## Nodes -/

inductive NodeDataView where
  | operator (view : OperatorView)
  | constant (view : ConstantView)
  | value (table : Table)

namespace NodeDataView

def ofKind (table : Table) : NodeKind → NodeDataView
  | .operator => operator ⟨table⟩
  | .constant => constant ⟨table⟩
  | .value => value table

/-- The payload with all its fields. -/
def unpack : NodeDataView → Except Malformed NodeData
  | operator view => NodeData.operator <$> view.unpack
  | constant view => NodeData.constant <$> view.unpack
  | value _ => return .value

end NodeDataView

structure NodeView where
  table : Table

namespace NodeView

def id (view : NodeView) : Except Malformed (Option String) :=
  view.table.string? 0

/-- The stored tag of what the node is. -/
def dataType (view : NodeView) : Except Malformed Number :=
  view.table.tag 1

/-- What the node is, by its tag. -/
def data (view : NodeView) : Except Malformed (Option NodeDataView) := do
  match ← view.table.union? 1 with
  | none => return none
  | some slot =>
      let kind ← view.table.member "NodeKind" slot.tag
      return some (.ofKind ⟨view.table.window, slot.position⟩ kind)

/-- The node with all its fields. -/
def unpack (view : NodeView) : Except Malformed Node := do
  let data ← match ← view.data with
    | none => pure none
    | some data => some <$> data.unpack
  let id ← view.id
  return ⟨id.map Utf16.ofString, data⟩

end NodeView

/-! ## Graph and model -/

structure GraphView where
  table : Table

namespace GraphView

def nodes (view : GraphView) : Except Malformed (Option (List NodeView)) := do
  let tables ← view.table.tables 0
  return tables.map fun tables => tables.map NodeView.mk

/-- The number of nodes, zero when the list is absent. -/
def nodeCount (view : GraphView) : Except Malformed Nat :=
  view.table.vectorLength 0 4

def node (view : GraphView) (index : Number) : Except AccessError NodeView :=
  NodeView.mk <$> view.table.tableElement 0 index

/-- The graph with all its nodes. -/
def unpack (view : GraphView) : Except Malformed Graph := do
  match ← view.nodes with
  | none => return ⟨none⟩
  | some nodes =>
      let nodes ← nodes.mapM NodeView.unpack
      return ⟨some nodes⟩

end GraphView

structure ModelView where
  table : Table

namespace ModelView

def schemaVersion (view : ModelView) : Except Malformed Number :=
  view.table.scalar .int32 0 (0 : Number)

def graph (view : ModelView) : Except Malformed (Option GraphView) := do
  let table ← view.table.table? 1
  return table.map GraphView.mk

/-- The whole model.  The graph is found before the version is read, and read after it. -/
def unpack (view : ModelView) : Except Malformed Model := do
  let graph ← view.graph
  let version ← view.schemaVersion
  match graph with
  | none => return ⟨version, none⟩
  | some graph =>
      let graph ← graph.unpack
      return ⟨version, some graph⟩

end ModelView

end GraphWire

import GraphWire.Model.View

/-!
# Paths through the views of a model

A caller who holds a view asks it for a value or for another view, and so on from there.  A `Path`
is such a chain of accessors from one class of views to a value, so that what holds of all a caller
can find out about a buffer can be said of paths.
-/

namespace GraphWire

inductive ViewClass where
  | model
  | graph
  | node
  | operator
  | constant
  | value
  | attrs
  | payload
deriving DecidableEq, Repr

def ViewClass.View : ViewClass → Type
  | model => ModelView
  | graph => GraphView
  | node => NodeView
  | operator => OperatorView
  | constant => ConstantView
  | value => Table
  | attrs => AttrsView
  | payload => PayloadView

def ViewClass.table : (viewed : ViewClass) → viewed.View → Table
  | model, (view : ModelView) => view.table
  | graph, (view : GraphView) => view.table
  | node, (view : NodeView) => view.table
  | operator, (view : OperatorView) => view.table
  | constant, (view : ConstantView) => view.table
  | value, (table : Table) => table
  | attrs, (view : AttrsView) => view.table
  | payload, (view : PayloadView) => view.table

/-- The vectors of scalars that a view may have. -/
inductive VectorField : ViewClass → Type where
  | inputs : VectorField .operator
  | shape : VectorField .constant
  | indices (slot : Nat) : VectorField .attrs
  | data : VectorField .payload

def VectorField.view : {viewed : ViewClass} → VectorField viewed → viewed.View → VectorView
  | _, inputs, (view : OperatorView) => view.inputVector
  | _, shape, (view : ConstantView) => view.shapeVector
  | _, indices slot, (view : AttrsView) => ⟨view.table, .uint32, slot⟩
  | _, data, (view : PayloadView) => view.vector

/-- Accessors that give a value of some type. -/
inductive Getter : ViewClass → Type → Type 1 where
  | position {viewed : ViewClass} : Getter viewed Number
  /-- The bytes that the view reads from. -/
  | bytes {viewed : ViewClass} : Getter viewed (List UInt8)
  | hasField {viewed : ViewClass} (slot : Number) : Getter viewed Bool
  | schemaVersion : Getter .model Number
  | nodeCount : Getter .graph Nat
  /-- The positions of all nodes of the graph. -/
  | nodePositions : Getter .graph (Option (List Number))
  | id : Getter .node (Option String)
  | dataType : Getter .node Number
  | operatorType : Getter .operator OperatorType
  | attrsType : Getter .operator Number
  | payloadType : Getter .constant Number
  | attrsKind : Getter .attrs AttrsKind
  | field (slot : Nat) (type : AttrType) : Getter .attrs (Option type.Value)
  | payloadKind : Getter .payload PayloadKind
  | length {viewed : ViewClass} (vector : VectorField viewed) : Getter viewed Nat
  | element {viewed : ViewClass} (vector : VectorField viewed) (index : Number) :
      Getter viewed (Σ type : Scalar, type.Value)
  | list {viewed : ViewClass} (vector : VectorField viewed) :
      Getter viewed (Σ type : Scalar, Option (List type.Value))
  | words {viewed : ViewClass} (vector : VectorField viewed) :
      Getter viewed (Σ type : Scalar, Option (List type.Value))
  | wholeModel : Getter .model Model
  | wholeGraph : Getter .graph Graph
  | wholeNode : Getter .node Node
  | wholeOperator : Getter .operator Operator
  | wholeConstant : Getter .constant Constant
  | wholeAttrs : Getter .attrs Attrs
  | wholePayload : Getter .payload Payload

def Getter.read {viewed : ViewClass} {α : Type} :
    Getter viewed α → viewed.View → Except AccessError α
  | position, view => return (viewed.table view).position
  | bytes, view => return (viewed.table view).window.toList
  | hasField slot, view => (viewed.table view).hasField slot
  | schemaVersion, (view : ModelView) => view.schemaVersion
  | nodeCount, (view : GraphView) => view.nodeCount
  | nodePositions, (view : GraphView) => do
      let nodes ← view.nodes
      return nodes.map fun nodes => nodes.map fun node => node.table.position
  | id, (view : NodeView) => view.id
  | dataType, (view : NodeView) => view.dataType
  | operatorType, (view : OperatorView) => view.type
  | attrsType, (view : OperatorView) => view.attrsType
  | payloadType, (view : ConstantView) => view.dataType
  | attrsKind, (view : AttrsView) => return view.kind
  | field slot type, (view : AttrsView) => type.read view.table slot
  | payloadKind, (view : PayloadView) => return view.kind
  | length vector, view => (vector.view view).length
  | element vector index, view => do return ⟨_, ← (vector.view view).get index⟩
  | list vector, view => do return ⟨_, ← (vector.view view).toList⟩
  | words vector, view => do return ⟨_, ← (vector.view view).words⟩
  | wholeModel, (view : ModelView) => view.unpack
  | wholeGraph, (view : GraphView) => view.unpack
  | wholeNode, (view : NodeView) => view.unpack
  | wholeOperator, (view : OperatorView) => view.unpack
  | wholeConstant, (view : ConstantView) => view.unpack
  | wholeAttrs, (view : AttrsView) => view.unpack
  | wholePayload, (view : PayloadView) => view.unpack

/-- Accessors that give another view. -/
inductive Step : ViewClass → ViewClass → Type where
  | graph : Step .model .graph
  /-- The node at an index. -/
  | node (index : Number) : Step .graph .node
  /-- A node of the list of all nodes. -/
  | listed (index : Nat) : Step .graph .node
  | operator : Step .node .operator
  | constant : Step .node .constant
  | value : Step .node .value
  | attrs : Step .operator .attrs
  | data : Step .constant .payload

/-- The view that an accessor leads to, if it is present and of the class that is asked for. -/
def Step.follow : {viewed next : ViewClass} →
    Step viewed next → viewed.View → Except AccessError (Option next.View)
  | _, _, graph, (view : ModelView) => view.graph
  | _, _, node index, (view : GraphView) => some <$> view.node index
  | _, _, listed index, (view : GraphView) => do
      let nodes ← view.nodes
      return nodes.bind fun nodes => nodes[index]?
  | _, _, operator, (view : NodeView) => do
      match ← view.data with
      | some (.operator view) => return some view
      | _ => return none
  | _, _, constant, (view : NodeView) => do
      match ← view.data with
      | some (.constant view) => return some view
      | _ => return none
  | _, _, value, (view : NodeView) => do
      match ← view.data with
      | some (.value table) => return some table
      | _ => return none
  | _, _, attrs, (view : OperatorView) => view.attrs
  | _, _, data, (view : ConstantView) => view.data

/-- Steps from view to view and an accessor of the last one. -/
inductive Path : ViewClass → Type → Type 1 where
  | get {viewed : ViewClass} {α : Type} (getter : Getter viewed α) : Path viewed α
  | step {viewed next : ViewClass} {α : Type} (first : Step viewed next) (rest : Path next α) :
      Path viewed α

/-- What is at the end of a path, if every view on the way is present. -/
def Path.follow {viewed : ViewClass} {α : Type} :
    Path viewed α → viewed.View → Except AccessError (Option α)
  | get getter, view => some <$> getter.read view
  | step first rest, view => do
      match ← first.follow view with
      | some next => rest.follow next
      | none => return none

end GraphWire

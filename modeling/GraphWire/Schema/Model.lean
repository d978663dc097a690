import GraphWire.Schema.Attributes
import GraphWire.Text.Utf16

/-!
# Models

A model is a graph of nodes in evaluation order.  These are the plain values that are encoded and
decoded.  Wherever something may be absent it is an `Option`, and absent differs from empty.

Numbers are kept as they were given: an operator type, a pad mode or an index of a model that is to
be encoded may be any number, and it is the encoder that refuses what the wire cannot hold.
-/

namespace GraphWire

/-- A node that computes its value from those of other nodes. -/
structure Operator where
  /-- The number of an `OperatorType`. -/
  type : Number
  attrs : Option Attrs
  /-- Indices into the node list of the graph. -/
  inputs : Option (List Number)

/-- The elements of a constant in row-major order. -/
structure Payload where
  kind : PayloadKind
  data : Option (List Number)
deriving DecidableEq

/-- A node with a fixed value. -/
structure Constant where
  /-- The sizes of the dimensions; the empty list is the shape of a single element. -/
  shape : Option (List Number)
  data : Option Payload
deriving DecidableEq

inductive NodeData where
  | operator (operator : Operator)
  | constant (constant : Constant)
  /-- A value that is supplied when the graph is run. -/
  | value

/-- The kind of a node, which is the tag of its union. -/
def NodeData.kind : NodeData → NodeKind
  | operator _ => .operator
  | constant _ => .constant
  | value => .value

structure Node where
  id : Option Utf16
  data : Option NodeData

structure Graph where
  /-- The nodes in evaluation order. -/
  nodes : Option (List Node)

structure Model where
  schemaVersion : Number
  graph : Option Graph

/-- The nodes of a model, none when the graph or its node list is absent. -/
def Model.nodes (model : Model) : List Node :=
  (model.graph.bind Graph.nodes).getD []

end GraphWire

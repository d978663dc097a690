import GraphWire.Number.Arithmetic
import GraphWire.Schema.Model

/-!
# Validation

What a producer of a model promises and the encoding cannot see, because it takes the whole graph:
ids are distinct, constants fit their shapes, operators carry the attributes they take, and every
input of an operator is an earlier node with something to consume.  `Model.validate` lists each
violation once, in node order.
-/

namespace GraphWire

/-- One broken promise, with the index of the node that breaks it. -/
inductive Issue where
  | duplicateId (node : Nat) (id : Utf16) (first : Nat)
  | shapeMismatch (node : Nat) (kind : PayloadKind) (actual : Nat) (shape : List Number)
      (expected : Number)
  | attrsMismatch (node : Nat) (operator : OperatorType) (kind : AttrsKind)
  | danglingInput (node : Nat) (input : Number) (nodeCount : Nat)
  | selfInput (node : Nat)
  | forwardInput (node : Nat) (input : Number)
  | inputKind (node : Nat) (input : Number)
deriving DecidableEq

namespace Issue

/-- The short name of the kind of issue. -/
def code : Issue → String
  | duplicateId .. => "duplicate-id"
  | shapeMismatch .. => "shape-mismatch"
  | attrsMismatch .. => "attrs-mismatch"
  | danglingInput .. => "dangling-input"
  | selfInput .. => "self-input"
  | forwardInput .. => "forward-input"
  | inputKind .. => "input-kind"

def node : Issue → Nat
  | duplicateId node .. | shapeMismatch node .. | attrsMismatch node .. | danglingInput node ..
  | selfInput node | forwardInput node .. | inputKind node .. => node

/-- How a message names the elements of a constant. -/
def elementWord : PayloadKind → String
  | .floats => "float"
  | .ints => "int"

def message : Issue → Utf16
  | duplicateId node id first =>
      .ofString s!"node {node}: id '" ++ id ++ .ofString s!"' already used by node {first}"
  | shapeMismatch node kind actual shape expected =>
      .ofString (s!"node {node}: {elementWord kind} data has {actual} element(s), shape ["
        ++ ", ".intercalate (shape.map Number.text) ++ s!"] needs {expected}")
  | attrsMismatch node operator kind =>
      .ofString s!"node {node}: {operator.name} does not take attribute record {Tag.code kind}"
  | danglingInput node input nodeCount =>
      .ofString s!"node {node}: input {input} is outside the graph's {nodeCount} node(s)"
  | selfInput node => .ofString s!"node {node}: consumes its own output"
  | forwardInput node input =>
      .ofString s!"node {node}: input {input} comes later in evaluation order"
  | inputKind node input => .ofString s!"node {node}: input {input} has no payload to consume"

end Issue

/-- An operator type that is no member of the enumeration where its name is needed. -/
structure UnknownOperator where
  type : Number
deriving DecidableEq

def UnknownOperator.message (unknown : UnknownOperator) : String :=
  s!"Unknown OperatorType {unknown.type}."

def OperatorType.ofNumber (type : Number) : Except UnknownOperator OperatorType :=
  match Tag.ofNumber? type with
  | some operator => .ok operator
  | none => .error ⟨type⟩

/-- The number of elements of a shape: the product of its dimensions, one for the empty shape. -/
def elementCount (shape : List Number) : Number :=
  shape.foldl (· * ·) 1

def firstWithId (nodes : List Node) (id : Utf16) : Option Nat :=
  nodes.findIdx? fun node => node.id == some id

/-- The issue of a node whose id an earlier node has. -/
def idIssues (nodes : List Node) (index : Nat) (node : Node) : List Issue :=
  match node.id with
  | none => []
  | some id =>
      match (firstWithId nodes id).filter (· < index) with
      | some first => [.duplicateId index id first]
      | none => []

/-- The issue of a constant that has a payload of the wrong length for its shape. -/
def shapeIssues (index : Nat) (constant : Constant) : List Issue :=
  match constant.data with
  | none => []
  | some payload =>
      let shape := constant.shape.getD []
      let expected := elementCount shape
      let actual := (payload.data.getD []).length
      if expected.equals actual then []
      else [.shapeMismatch index payload.kind actual shape expected]

/-- The issue of an operator with attributes that it does not take. -/
def attrsIssues (index : Nat) (operator : Operator) : Except UnknownOperator (List Issue) :=
  match operator.attrs with
  | none => .ok []
  | some attrs =>
      let type : Option OperatorType := Tag.ofNumber? operator.type
      if type.bind OperatorType.attrsKind? = some attrs.kind then .ok []
      else do
        let type ← OperatorType.ofNumber operator.type
        return [.attrsMismatch index type attrs.kind]

/-- The issue of one input of the operator at an index.  An input that is no index of the node list
is dangling, whatever else may be said of it. -/
def inputIssues (nodes : List Node) (index : Nat) (input : Number) : List Issue :=
  match input.toNat?.bind fun position => nodes[position]?.map fun source => (position, source) with
  | none => [.danglingInput index input nodes.length]
  | some (position, source) =>
      if position = index then [.selfInput index]
      else if index < position then [.forwardInput index input]
      else if source.data.isNone then [.inputKind index input]
      else []

def dataIssues (nodes : List Node) (index : Nat) :
    Option NodeData → Except UnknownOperator (List Issue)
  | some (.constant constant) => .ok (shapeIssues index constant)
  | some (.operator operator) => do
      let attrs ← attrsIssues index operator
      return attrs ++ (operator.inputs.getD []).flatMap (inputIssues nodes index)
  | some .value | none => .ok []

def nodeIssues (nodes : List Node) (index : Nat) (node : Node) :
    Except UnknownOperator (List Issue) := do
  let data ← dataIssues nodes index node.data
  return idIssues nodes index node ++ data

/-- All broken promises of a model, in node order. -/
def Model.validate (model : Model) : Except UnknownOperator (List Issue) := do
  let issues ← model.nodes.zipIdx.mapM fun (node, index) => nodeIssues model.nodes index node
  return issues.flatten

inductive ValidationError where
  | violations (issues : List Issue)
  | unknownOperator (unknown : UnknownOperator)
deriving DecidableEq

def ValidationError.message : ValidationError → Utf16
  | violations issues =>
      .ofString s!"Model violates {issues.length} producer invariant(s): "
        ++ Utf16.intercalate "; "
          (issues.map fun issue => .ofString s!"[{issue.code}] " ++ issue.message)
  | unknownOperator unknown => unknown.message

def Model.checkValid (model : Model) : Except ValidationError Unit :=
  match model.validate with
  | .error unknown => .error (.unknownOperator unknown)
  | .ok issues => if issues.isEmpty then .ok () else .error (.violations issues)

end GraphWire

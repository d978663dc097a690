import GraphWire.Model.Encoding
import GraphWire.Proofs.Text.Utf16
import GraphWire.Proofs.Wire.Stored

/-!
# What a buffer keeps of a model

A buffer keeps of a model what the wire types of its fields keep of their values: a scalar attribute
that is absent is zero from then on, floats are rounded and a negative zero of an integer is a plain
one.  Whatever else may be absent stays absent, and lists keep their order.

Encoding refuses exactly the models with an integer outside its type (`Model.Fits`).
-/

namespace GraphWire

/-! ## Stored models -/

/-- The value of an attribute field after a round trip. -/
def AttrType.stored : (type : AttrType) → Option type.Value → Option type.Value
  | .scalar type, value => some (type.stored (value.getD type.zero))
  | .padMode, value => some (Scalar.int8.stored (value.getD (0 : Number)))
  | .indices, value => value.map (List.map Scalar.uint32.stored)

def Attrs.stored (attrs : Attrs) : Attrs :=
  ⟨attrs.kind, attrs.record.map AttrType.stored⟩

def Operator.stored (operator : Operator) : Operator where
  type := Scalar.int8.stored operator.type
  attrs := operator.attrs.map Attrs.stored
  inputs := operator.inputs.map (List.map Scalar.uint32.stored)

def Payload.stored (payload : Payload) : Payload where
  kind := payload.kind
  data := payload.data.map fun elements =>
    match payload.kind with
    | .floats => elements.map Scalar.float32.stored
    | .ints => elements.map Scalar.int32.stored

def Constant.stored (constant : Constant) : Constant where
  shape := constant.shape.map (List.map Scalar.uint32.stored)
  data := constant.data.map Payload.stored

def NodeData.stored : NodeData → NodeData
  | .operator content => .operator content.stored
  | .constant content => .constant content.stored
  | .value => .value

def Node.stored (node : Node) : Node where
  id := node.id
  data := node.data.map NodeData.stored

def Graph.stored (graph : Graph) : Graph where
  nodes := graph.nodes.map (List.map Node.stored)

/-- The model that a buffer keeps of a model. -/
def Model.stored (model : Model) : Model where
  schemaVersion := Scalar.int32.stored model.schemaVersion
  graph := model.graph.map Graph.stored

/-! ## Signs of zeros in attributes

A float attribute that equals its default zero is left out unless defaults are forced, so whether it
keeps the sign of a zero is no matter of the model alone.
-/

/-- The value of an attribute field without the sign of a zero. -/
def AttrType.unsigned : (type : AttrType) → Option type.Value → Option type.Value
  | .scalar type, value => value.map type.unsigned
  | .padMode, value => value
  | .indices, value => value

def Attrs.unsigned (attrs : Attrs) : Attrs :=
  ⟨attrs.kind, attrs.record.map AttrType.unsigned⟩

def NodeData.unsigned : NodeData → NodeData
  | .operator content => .operator { content with attrs := content.attrs.map Attrs.unsigned }
  | data => data

def Node.unsigned (node : Node) : Node :=
  { node with data := node.data.map NodeData.unsigned }

def Graph.unsigned (graph : Graph) : Graph :=
  ⟨graph.nodes.map (List.map Node.unsigned)⟩

/-- A model whose float attributes have lost the signs of their zeros. -/
def Model.unsigned (model : Model) : Model :=
  { model with graph := model.graph.map Graph.unsigned }

theorem AttrRecord.map_map_congr {first second last : (type : AttrType) → Option type.Value →
    Option type.Value} (hsame : ∀ type value, last type (first type value)
      = last type (second type value)) {fields : List AttrField} (record : AttrRecord fields) :
    (record.map first).map last = (record.map second).map last := by
  induction record with
  | nil => rfl
  | cons value rest ih => simp only [map, hsame, ih]

/-! ## Kept models

What is read back exactly, once it is known whether defaults are forced.
-/

/-- The value of an attribute field that is read back: zero where a default has been left out. -/
def AttrType.kept (force : Bool) : (type : AttrType) → Option type.Value → Option type.Value
  | .scalar type, value =>
      some (if force || !type.same (value.getD type.zero) type.zero then
        type.stored (value.getD type.zero) else type.zero)
  | .padMode, value => some (Scalar.int8.stored (value.getD (0 : Number)))
  | .indices, value => value.map (List.map Scalar.uint32.stored)

def Attrs.kept (force : Bool) (attrs : Attrs) : Attrs :=
  ⟨attrs.kind, attrs.record.map (AttrType.kept force)⟩

def Operator.kept (force : Bool) (operator : Operator) : Operator :=
  { operator.stored with attrs := operator.attrs.map (Attrs.kept force) }

def NodeData.kept (force : Bool) : NodeData → NodeData
  | .operator content => .operator (content.kept force)
  | .constant content => .constant content.stored
  | .value => .value

def Node.kept (force : Bool) (node : Node) : Node :=
  { node with data := node.data.map (NodeData.kept force) }

def Graph.kept (force : Bool) (graph : Graph) : Graph :=
  ⟨graph.nodes.map (List.map (Node.kept force))⟩

/-- The model that is read back from a buffer. -/
def Model.kept (force : Bool) (model : Model) : Model where
  schemaVersion := Scalar.int32.stored model.schemaVersion
  graph := model.graph.map (Graph.kept force)

theorem Model.nodes_kept (force : Bool) (model : Model) :
    (model.kept force).nodes = model.nodes.map (Node.kept force) := by
  obtain ⟨version, graph?⟩ := model
  rcases graph? with _ | ⟨_ | nodes⟩ <;> rfl

/-- What has been left out differs from what is kept of it in the sign of a zero at most. -/
theorem AttrType.unsigned_kept (force : Bool) (type : AttrType) (value : Option type.Value) :
    type.unsigned (type.kept force value) = type.unsigned (type.stored value) := by
  cases type with
  | scalar type =>
      dsimp only [kept, stored]
      split
      · rfl
      · next hkept =>
          have hsame : type.same (value.getD type.zero) type.zero = true := by simp_all
          exact congrArg some (Scalar.unsigned_stored_of_same_zero hsame).symm
  | padMode => rfl
  | indices => rfl

theorem Attrs.unsigned_kept (force : Bool) (attrs : Attrs) :
    (attrs.kept force).unsigned = attrs.stored.unsigned := by
  simp only [unsigned, kept, stored,
    AttrRecord.map_map_congr (AttrType.unsigned_kept force) attrs.record]

theorem NodeData.unsigned_kept (force : Bool) (data : NodeData) :
    (data.kept force).unsigned = data.stored.unsigned := by
  cases data with
  | operator content =>
      simp only [kept, stored, unsigned, Operator.kept, Operator.stored, Option.map_map,
        Function.comp_def, Attrs.unsigned_kept]
  | constant content => rfl
  | value => rfl

/-- The kept model and the stored one agree but for the signs of zeros in attributes. -/
theorem Model.unsigned_kept (force : Bool) (model : Model) :
    (model.kept force).unsigned = model.stored.unsigned := by
  simp only [kept, stored, unsigned, Graph.kept, Graph.stored, Graph.unsigned, Node.kept,
    Node.stored, Node.unsigned, Option.map_map, List.map_map, Function.comp_def,
    NodeData.unsigned_kept]

/-! ## Models that can be encoded -/

/-- Whether the wire can hold the value of an attribute field. -/
def AttrType.Fits : (type : AttrType) → Option type.Value → Prop
  | .scalar type, value => type.Fits (value.getD type.zero)
  | .padMode, value => Scalar.int8.Fits (value.getD (0 : Number))
  | .indices, value => ∀ indices ∈ value, ∀ index ∈ indices, Scalar.uint32.Fits index

def Attrs.Fits (attrs : Attrs) : Prop :=
  attrs.record.All AttrType.Fits

def Operator.Fits (operator : Operator) : Prop :=
  Scalar.int8.Fits operator.type ∧ (∀ attrs ∈ operator.attrs, attrs.Fits) ∧
    ∀ inputs ∈ operator.inputs, ∀ input ∈ inputs, Scalar.uint32.Fits input

def Payload.Fits (payload : Payload) : Prop :=
  payload.kind = .ints → ∀ elements ∈ payload.data, ∀ element ∈ elements,
    Scalar.int32.Fits element

def Constant.Fits (constant : Constant) : Prop :=
  (∀ shape ∈ constant.shape, ∀ size ∈ shape, Scalar.uint32.Fits size) ∧
    ∀ payload ∈ constant.data, payload.Fits

def NodeData.Fits : NodeData → Prop
  | .operator content => content.Fits
  | .constant content => content.Fits
  | .value => True

/-- Every integer of the model is one of its wire type.  An absent number counts as zero, and so
does a negative zero. -/
def Model.Fits (model : Model) : Prop :=
  Scalar.int32.Fits model.schemaVersion ∧
    ∀ node ∈ model.nodes, ∀ data ∈ node.data, data.Fits

/-! ## Models that can be read back -/

/-- Whether a reader takes the value of an attribute field, once it is stored. -/
def AttrType.Legible : (type : AttrType) → Option type.Value → Prop
  | .padMode, value => ∀ mode ∈ value, Tag.isMember PadMode mode = true
  | _, _ => True

def Attrs.Legible (attrs : Attrs) : Prop :=
  attrs.record.All AttrType.Legible

def Operator.Legible (operator : Operator) : Prop :=
  Tag.isMember OperatorType operator.type = true ∧ ∀ attrs ∈ operator.attrs, attrs.Legible

def NodeData.Legible : NodeData → Prop
  | .operator content => content.Legible
  | _ => True

def Node.Legible (node : Node) : Prop :=
  (∀ id ∈ node.id, id.WellFormed ∧ ¬id.Marked) ∧ ∀ data ∈ node.data, data.Legible

/-- Operator types and pad modes are members of their enumerations, no surrogate stands alone in an
id, and no id begins with a byte order mark. -/
def Model.Legible (model : Model) : Prop :=
  ∀ node ∈ model.nodes, node.Legible

/-- Operator types and pad modes are members of their enumerations, whatever the ids are. -/
def Model.Readable (model : Model) : Prop :=
  ∀ node ∈ model.nodes, ∀ data ∈ node.data, data.Legible

theorem Model.Legible.readable {model : Model} (hlegible : model.Legible) : model.Readable :=
  fun node hnode => (hlegible node hnode).2

def Node.reread (node : Node) : Node :=
  { node with id := node.id.map Utf16.reread }

def Graph.reread (graph : Graph) : Graph :=
  ⟨graph.nodes.map (List.map Node.reread)⟩

/-- A model whose ids have been read back: without the byte order marks in front of them, and with
U+FFFD for each surrogate that stood alone. -/
def Model.reread (model : Model) : Model :=
  { model with graph := model.graph.map Graph.reread }

theorem Model.nodes_reread (model : Model) : model.reread.nodes = model.nodes.map Node.reread := by
  obtain ⟨version, graph?⟩ := model
  rcases graph? with _ | ⟨_ | nodes⟩ <;> rfl

theorem Node.reread_eq {node : Node} (hids : ∀ id ∈ node.id, id.WellFormed ∧ ¬id.Marked) :
    node.reread = node := by
  obtain ⟨id, data⟩ := node
  cases id with
  | none => rfl
  | some id => simp only [reread, Option.map_some, Utf16.reread_eq (hids id rfl).1 (hids id rfl).2]

/-- A legible model is read back with its own ids. -/
theorem Model.Legible.reread_kept {model : Model} (hlegible : model.Legible) (force : Bool) :
    (model.kept force).reread = model.kept force := by
  obtain ⟨version, graph?⟩ := model
  rcases graph? with _ | ⟨_ | nodes⟩
  · rfl
  · rfl
  · have hnodes : (nodes.map (Node.kept force)).map Node.reread
        = nodes.map (Node.kept force) := by
      rw [List.map_map]
      apply List.map_congr_left
      intro node hnode
      exact Node.reread_eq (hlegible node hnode).1
    simp only [kept, Model.reread, Graph.kept, Graph.reread, Option.map_some, hnodes]

/-! ## Room

How many bytes the parts of a model take at most, padding and vtables included.
-/

/-- The room of a list of four-byte elements that may be absent. -/
def wordsRoom {α : Type} (items : Option (List α)) : ℕ :=
  (items.map fun items => 4 * items.length + 20).getD 0

/-- The room of a table with some number of fields. -/
def tableRoom (fields : ℕ) : ℕ :=
  17 * fields + 11

def AttrType.room : (type : AttrType) → Option type.Value → ℕ
  | .indices, value => wordsRoom value
  | _, _ => 0

def AttrRecord.room : {fields : List AttrField} → AttrRecord fields → ℕ
  | [], .nil => 0
  | field :: _, .cons value rest => field.type.room value + rest.room

def Attrs.room (attrs : Attrs) : ℕ :=
  attrs.record.room + tableRoom attrs.kind.fields.length

def Operator.room (operator : Operator) : ℕ :=
  wordsRoom operator.inputs + (operator.attrs.map Attrs.room).getD 0 + tableRoom 4

def Payload.room (payload : Payload) : ℕ :=
  wordsRoom payload.data + tableRoom 1

def Constant.room (constant : Constant) : ℕ :=
  wordsRoom constant.shape + (constant.data.map Payload.room).getD 0 + tableRoom 3

def NodeData.room : NodeData → ℕ
  | .operator content => content.room
  | .constant content => content.room
  | .value => tableRoom 0

def Node.room (node : Node) : ℕ :=
  ((node.id.map Utf16.text).map fun text => (Utf8.encode text).length + 22).getD 0
    + (node.data.map NodeData.room).getD 0 + tableRoom 3

def Graph.room (graph : Graph) : ℕ :=
  (graph.nodes.map fun nodes => (nodes.map Node.room).sum + 4 * nodes.length + 20).getD 0
    + tableRoom 1

/-- The room of a model with the head of its buffer. -/
def Model.room (model : Model) : ℕ :=
  (model.graph.map Graph.room).getD 0 + tableRoom 2 + 48

end GraphWire

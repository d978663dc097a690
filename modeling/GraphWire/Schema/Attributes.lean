import GraphWire.Schema.Tag

/-!
# Attribute records

An attribute record is a table of few fields whose types depend on its kind.  `AttrsKind.fields`
lists them in slot order, and `AttrRecord` is a value of such a list: every operation on records
(writing, reading, filling in defaults) is one recursion on the list for all kinds.

A field without a value is left out of the table.  A scalar that is left out reads as zero, `false`
or the pad mode `Same`; a list of indices that is left out reads as no list, which differs from the
empty list.
-/

namespace GraphWire

/-- What a field of an attribute record holds. -/
inductive AttrType where
  /-- A number or a flag. -/
  | scalar (type : Scalar)
  /-- A `PadMode`, stored as a signed byte. -/
  | padMode
  /-- A list of unsigned integers. -/
  | indices
deriving DecidableEq, Repr

namespace AttrType

abbrev float : AttrType := .scalar .float32
abbrev count : AttrType := .scalar .uint32
abbrev flag : AttrType := .scalar .flag

/-- The values of a field.  The number of a pad mode is not yet known to be one. -/
abbrev Value : AttrType → Type
  | scalar type => type.Value
  | padMode => Number
  | indices => List Number

end AttrType

/-- The value that a scalar field has when it is absent. -/
def Scalar.zero : (scalar : Scalar) → scalar.Value
  | .integer _ => (0 : Number)
  | .flag => false
  | .long _ => (0 : Int)
  | .float _ => (0 : Number)

/-- A field of an attribute record; its slot is its place among the fields. -/
structure AttrField where
  name : String
  type : AttrType
deriving DecidableEq, Repr

/-- The fields of a kind of attribute record, in slot order. -/
def AttrsKind.fields : AttrsKind → List AttrField
  | batchNormalization => [⟨"epsilon", .float⟩]
  | clip => [⟨"min", .float⟩, ⟨"max", .float⟩]
  | concat => [⟨"dim", .count⟩]
  | conv2d =>
      [⟨"padMode", .padMode⟩, ⟨"padHorizontal", .count⟩, ⟨"padVertical", .count⟩,
        ⟨"groups", .count⟩, ⟨"stride", .count⟩]
  | convTranspose2d => [⟨"stride", .count⟩]
  | gather => [⟨"axis", .count⟩]
  | gemm =>
      [⟨"alpha", .float⟩, ⟨"beta", .float⟩, ⟨"transposeA", .flag⟩, ⟨"transposeB", .flag⟩]
  | leakyRelu => [⟨"alpha", .float⟩]
  | maxPool2d =>
      [⟨"kernelSize", .count⟩, ⟨"padMode", .padMode⟩, ⟨"padHorizontal", .count⟩,
        ⟨"padVertical", .count⟩, ⟨"stride", .count⟩]
  | pad2d =>
      [⟨"padLeft", .count⟩, ⟨"padRight", .count⟩, ⟨"padTop", .count⟩, ⟨"padBottom", .count⟩]
  | unsqueeze => [⟨"axes", .indices⟩]

/-- Values for a list of fields, each of which may be left out. -/
inductive AttrRecord : List AttrField → Type where
  | nil : AttrRecord []
  | cons {field : AttrField} {fields : List AttrField}
      (value : Option field.type.Value) (rest : AttrRecord fields) : AttrRecord (field :: fields)

namespace AttrRecord

def map (change : (type : AttrType) → Option type.Value → Option type.Value) :
    {fields : List AttrField} → AttrRecord fields → AttrRecord fields
  | [], .nil => .nil
  | field :: _, .cons value rest => .cons (change field.type value) (rest.map change)

def All (holds : (type : AttrType) → Option type.Value → Prop) :
    {fields : List AttrField} → AttrRecord fields → Prop
  | [], .nil => True
  | field :: _, .cons value rest => holds field.type value ∧ rest.All holds

end AttrRecord

/-- The attributes of an operator: a kind and values for its fields. -/
structure Attrs where
  kind : AttrsKind
  record : AttrRecord kind.fields

end GraphWire

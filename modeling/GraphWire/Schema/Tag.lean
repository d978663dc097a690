import GraphWire.Wire.Scalar

/-!
# Tags

The closed enumerations of the model format and the numbers that stand for their members on the
wire.  The numbers never change; a new member takes the next one.  The variants of a union are
numbered from one, and zero means that the union is absent.
-/

namespace GraphWire

/-- An enumeration whose members have a number on the wire and a name. -/
class Tag (α : Type) where
  /-- All members, in the order of their numbers. -/
  all : List α
  code : α → Nat
  name : α → String

/-- The member that a number stands for, if there is one. -/
def Tag.ofNumber? {α : Type} [Tag α] (number : Number) : Option α :=
  (Tag.all : List α).find? fun member => number.equals (Tag.code member)

def Tag.isMember (α : Type) [Tag α] (number : Number) : Bool :=
  (Tag.ofNumber? number : Option α).isSome

/-- Whether a number is a tag of a union: that of a variant, or zero for an absent union. -/
def Tag.isUnionTag (α : Type) [Tag α] (number : Number) : Bool :=
  number.equals 0 || Tag.isMember α number

inductive OperatorType where
  | add | batchNormalization | clip | concat | conv2d | convTranspose2d | gather | gemm
  | globalAveragePool | leakyRelu | matMul | maxPool2d | mul | pad2d | relu | reshape | shape
  | sigmoid | slice | unsqueeze
deriving DecidableEq, Repr

namespace OperatorType

def all : List OperatorType :=
  [add, batchNormalization, clip, concat, conv2d, convTranspose2d, gather, gemm,
    globalAveragePool, leakyRelu, matMul, maxPool2d, mul, pad2d, relu, reshape, shape, sigmoid,
    slice, unsqueeze]

def name : OperatorType → String
  | add => "Add"
  | batchNormalization => "BatchNormalization"
  | clip => "Clip"
  | concat => "Concat"
  | conv2d => "Conv2d"
  | convTranspose2d => "ConvTranspose2d"
  | gather => "Gather"
  | gemm => "Gemm"
  | globalAveragePool => "GlobalAveragePool"
  | leakyRelu => "LeakyRelu"
  | matMul => "MatMul"
  | maxPool2d => "MaxPool2d"
  | mul => "Mul"
  | pad2d => "Pad2d"
  | relu => "Relu"
  | reshape => "Reshape"
  | shape => "Shape"
  | sigmoid => "Sigmoid"
  | slice => "Slice"
  | unsqueeze => "Unsqueeze"

instance : Tag OperatorType := ⟨all, fun type => type.ctorIdx, name⟩

end OperatorType

/-- How the border of an image is padded. -/
inductive PadMode where
  | same | fixed
deriving DecidableEq, Repr

namespace PadMode

def name : PadMode → String
  | same => "Same"
  | fixed => "Fixed"

instance : Tag PadMode := ⟨[same, fixed], fun mode => mode.ctorIdx, name⟩

end PadMode

/-- The attribute records that an operator can carry. -/
inductive AttrsKind where
  | batchNormalization | clip | concat | conv2d | convTranspose2d | gather | gemm | leakyRelu
  | maxPool2d | pad2d | unsqueeze
deriving DecidableEq, Repr

namespace AttrsKind

def all : List AttrsKind :=
  [batchNormalization, clip, concat, conv2d, convTranspose2d, gather, gemm, leakyRelu, maxPool2d,
    pad2d, unsqueeze]

def name : AttrsKind → String
  | batchNormalization => "BatchNormalizationAttrs"
  | clip => "ClipAttrs"
  | concat => "ConcatAttrs"
  | conv2d => "Conv2dAttrs"
  | convTranspose2d => "ConvTranspose2dAttrs"
  | gather => "GatherAttrs"
  | gemm => "GemmAttrs"
  | leakyRelu => "LeakyReluAttrs"
  | maxPool2d => "MaxPool2dAttrs"
  | pad2d => "Pad2dAttrs"
  | unsqueeze => "UnsqueezeAttrs"

instance : Tag AttrsKind := ⟨all, fun kind => kind.ctorIdx + 1, name⟩

end AttrsKind

inductive NodeKind where
  | operator | constant | value
deriving DecidableEq, Repr

namespace NodeKind

def name : NodeKind → String
  | operator => "OperatorNode"
  | constant => "ConstantNode"
  | value => "ValueNode"

instance : Tag NodeKind := ⟨[operator, constant, value], fun kind => kind.ctorIdx + 1, name⟩

end NodeKind

/-- The element types of a constant. -/
inductive PayloadKind where
  | floats | ints
deriving DecidableEq, Repr

namespace PayloadKind

def name : PayloadKind → String
  | floats => "FloatData"
  | ints => "IntData"

instance : Tag PayloadKind := ⟨[floats, ints], fun kind => kind.ctorIdx + 1, name⟩

def scalar : PayloadKind → Scalar
  | floats => .float32
  | ints => .int32

end PayloadKind

/-- The only attribute record that an operator accepts, if it accepts one. -/
def OperatorType.attrsKind? : OperatorType → Option AttrsKind
  | batchNormalization => some .batchNormalization
  | clip => some .clip
  | concat => some .concat
  | conv2d => some .conv2d
  | convTranspose2d => some .convTranspose2d
  | gather => some .gather
  | gemm => some .gemm
  | leakyRelu => some .leakyRelu
  | maxPool2d => some .maxPool2d
  | pad2d => some .pad2d
  | unsqueeze => some .unsqueeze
  | _ => none

end GraphWire

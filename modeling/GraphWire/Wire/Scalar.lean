import GraphWire.Number.Decimal
import GraphWire.Wire.LittleEndian

/-!
# Scalars on the wire

The scalar types of the format, their widths, and the two directions between a value and the word
that stores it.  A value of a short integer type is a `Number`, because a caller may offer any
number for it; the word of one that the type cannot hold is refused and never wrapped.  Integers of
eight bytes are `Int`s and are taken modulo `2 ^ 64`.
-/

namespace GraphWire

-- Powers are those of the core library, also where another power is in scope.
attribute [local instance (high)] instPowNat

namespace TwosComplement

def cardinality (width : Nat) : Nat :=
  256 ^ width

/-- The word that stores an integer, which is taken modulo the number of words. -/
def word (width : Nat) (value : Int) : Nat :=
  (value % cardinality width).toNat

def ofWord (signed : Bool) (width word : Nat) : Int :=
  if signed ∧ cardinality width ≤ 2 * word then (word : Int) - cardinality width else word

theorem cardinality_pos (width : Nat) : 0 < cardinality width :=
  Nat.pow_pos (by decide)

theorem word_lt (width : Nat) (value : Int) : word width value < cardinality width := by
  have hpositive := cardinality_pos width
  have hupper : value % cardinality width < cardinality width :=
    Int.emod_lt_of_pos value (by omega)
  have hlower : 0 ≤ value % cardinality width := Int.emod_nonneg value (by omega)
  unfold word
  omega

end TwosComplement

/-- The integer types of at most four bytes. -/
inductive IntegerType where
  | int8 | uint8 | int16 | uint16 | int32 | uint32
deriving DecidableEq, Repr

namespace IntegerType

def signed : IntegerType → Bool
  | int8 | int16 | int32 => true
  | uint8 | uint16 | uint32 => false

def width : IntegerType → Nat
  | int8 | uint8 => 1
  | int16 | uint16 => 2
  | int32 | uint32 => 4

def least (type : IntegerType) : Int :=
  if type.signed then -((TwosComplement.cardinality type.width / 2 : Nat) : Int) else 0

def greatest (type : IntegerType) : Int :=
  type.least + TwosComplement.cardinality type.width - 1

def name : IntegerType → String
  | int8 => "int8"
  | uint8 => "uint8"
  | int16 => "int16"
  | uint16 => "uint16"
  | int32 => "int32"
  | uint32 => "uint32"

/-- The integer that a number equals, if it is one of the type. -/
def value? (type : IntegerType) (number : Number) : Option Int :=
  number.toInt?.filter fun value => type.least ≤ value ∧ value ≤ type.greatest

/-- An integer of the type is read back from its word. -/
theorem ofWord_word (type : IntegerType) {value : Int} (hlow : type.least ≤ value)
    (hhigh : value ≤ type.greatest) :
    TwosComplement.ofWord type.signed type.width (TwosComplement.word type.width value)
      = value := by
  cases type <;>
    simp only [least, greatest, signed, width, TwosComplement.cardinality, TwosComplement.word,
      TwosComplement.ofWord, Nat.reducePow, Nat.reduceDiv, if_true, Bool.false_eq_true, if_false,
      true_and, false_and] at hlow hhigh ⊢ <;>
    omega

end IntegerType

/-- A number that an integer type cannot hold. -/
structure Unrepresentable where
  value : Number
  type : IntegerType
deriving DecidableEq

def Unrepresentable.message (refused : Unrepresentable) : String :=
  s!"{refused.value} is not a valid {refused.type.name} (integer in [{refused.type.least}, "
    ++ s!"{refused.type.greatest}])."

/-- The scalar types of the wire. -/
inductive Scalar where
  /-- An integer of at most four bytes. -/
  | integer (type : IntegerType)
  /-- One byte, zero for false. -/
  | flag
  /-- An integer of eight bytes. -/
  | long (signed : Bool)
  /-- A floating-point value. -/
  | float (format : FloatFormat)
deriving DecidableEq, Repr

namespace Scalar

abbrev int8 : Scalar := .integer .int8
abbrev uint8 : Scalar := .integer .uint8
abbrev int16 : Scalar := .integer .int16
abbrev uint16 : Scalar := .integer .uint16
abbrev int32 : Scalar := .integer .int32
abbrev uint32 : Scalar := .integer .uint32
abbrev int64 : Scalar := .long true
abbrev uint64 : Scalar := .long false
abbrev float32 : Scalar := .float .binary32
abbrev float64 : Scalar := .float .binary64

def width : Scalar → Nat
  | integer type => type.width
  | flag => 1
  | long _ => 8
  | float format => format.width

/-- The values of a scalar type.  A number of a short integer type is not yet known to fit. -/
abbrev Value : Scalar → Type
  | integer _ => Number
  | flag => Bool
  | long _ => Int
  | float _ => Number

def ofWord : (scalar : Scalar) → Nat → scalar.Value
  | integer type, word => .ofInt (TwosComplement.ofWord type.signed type.width word)
  | flag, word => word != 0
  | long signed, word => TwosComplement.ofWord signed 8 word
  | float format, word => format.decode word

def word : (scalar : Scalar) → scalar.Value → Except Unrepresentable Nat
  | integer type, value =>
      match type.value? value with
      | some value => .ok (TwosComplement.word type.width value)
      | none => .error ⟨value, type⟩
  | flag, value => .ok (if value then 1 else 0)
  | long _, value => .ok (TwosComplement.word 8 value)
  | float format, value => .ok (format.encode value)

/-- Whether two values are equal as values, so that one may stand for the other as a default.  The
two zeros are equal and not-a-number differs from itself. -/
def same : (scalar : Scalar) → scalar.Value → scalar.Value → Bool
  | integer _, left, right => Number.equals left right
  | flag, left, right => left == right
  | long _, left, right => left == right
  | float _, left, right => Number.equals left right

end Scalar

end GraphWire

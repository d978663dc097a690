import GraphWire.Proofs.Number.Basic
import GraphWire.Proofs.Number.Format
import GraphWire.Schema.Attributes
import GraphWire.Wire.Layout
import GraphWire.Wire.Scalar

/-!
# Stored values

What a scalar type keeps of a value: an integer keeps its value but not the sign of a zero, a long
is taken modulo `2 ^ 64`, and a float is rounded to its format.  Reading the word of a value gives
the stored value, which is all that the layout of a buffer has to preserve.
-/

namespace GraphWire

namespace Scalar

/-- What a type keeps of a value. -/
def stored : (type : Scalar) → type.Value → type.Value
  | .integer _, value => .ofInt (value.toInt?.getD 0)
  | .flag, value => value
  | .long signed, value => TwosComplement.ofWord signed 8 (TwosComplement.word 8 value)
  | .float format, value => format.round value

/-- The value without the sign of a zero, which only a float can have. -/
def unsigned : (type : Scalar) → type.Value → type.Value
  | .integer _, value => value
  | .flag, value => value
  | .long _, value => value
  | .float _, value => value.unsignedZero

/-- Whether a type can hold a value.  Only the short integer types refuse any. -/
def Fits (type : Scalar) (value : type.Value) : Prop :=
  match type, value with
  | .integer type, value => (type.value? value).isSome
  | _, _ => True

instance (type : Scalar) (value : type.Value) : Decidable (type.Fits value) :=
  match type, value with
  | .integer type, value => inferInstanceAs (Decidable ((type.value? value).isSome = true))
  | .flag, _ => isTrue trivial
  | .long _, _ => isTrue trivial
  | .float _, _ => isTrue trivial

theorem word_lt {type : Scalar} {value : type.Value} {word : ℕ}
    (hword : type.word value = .ok word) : word < 256 ^ type.width := by
  cases type with
  | integer type =>
      simp only [Scalar.word] at hword
      split at hword
      · cases hword
        exact TwosComplement.word_lt _ _
      · cases hword
  | flag =>
      cases hword
      cases value <;> decide
  | long signed =>
      cases hword
      exact TwosComplement.word_lt _ _
  | float format =>
      cases hword
      exact format.encode_lt value

/-- The word of a value is read as what the type keeps of the value. -/
theorem ofWord_word {type : Scalar} {value : type.Value} {word : ℕ}
    (hword : type.word value = .ok word) : type.ofWord word = type.stored value := by
  cases type with
  | integer type =>
      simp only [Scalar.word] at hword
      split at hword
      · next integer hinteger =>
          cases hword
          obtain ⟨hvalue, hrange⟩ := Option.filter_eq_some_iff.mp hinteger
          rw [decide_eq_true_eq] at hrange
          simp only [ofWord, stored, hvalue, Option.getD_some,
            type.ofWord_word hrange.1 hrange.2]
      · cases hword
  | flag =>
      cases hword
      cases value <;> rfl
  | long signed =>
      cases hword
      rfl
  | float format =>
      cases hword
      rfl

/-- A value is refused exactly when its type cannot hold it. -/
theorem fits_iff {type : Scalar} {value : type.Value} :
    type.Fits value ↔ ∃ word, type.word value = .ok word := by
  cases type with
  | integer type =>
      simp only [Fits, Scalar.word]
      cases type.value? value <;> simp
  | flag => simp [Fits, Scalar.word]
  | long signed => simp [Fits, Scalar.word]
  | float format => simp [Fits, Scalar.word]

theorem not_fits_of_error {type : Scalar} {value : type.Value} {refused : Unrepresentable}
    (hword : type.word value = .error refused) : ¬type.Fits value := by
  rw [fits_iff, hword]
  simp

/-- An unsigned type has the numbers that have room in its bytes. -/
theorem value?_eq_natCast {type : IntegerType} (hunsigned : type.signed = false) {number : Number}
    {value : ℕ} (hnumber : number.toNat? = some value) :
    type.value? number = if value < 256 ^ type.width then some (value : ℤ) else none := by
  have hleast : type.least = 0 := by simp [IntegerType.least, hunsigned]
  have hgreatest : (value : ℤ) ≤ type.greatest ↔ value < 256 ^ type.width := by
    rw [IntegerType.greatest, hleast, TwosComplement.cardinality]
    omega
  simp [IntegerType.value?, Number.toInt?_of_toNat? hnumber, Option.filter, hleast, hgreatest]

/-- A number of an unsigned type is its own word. -/
theorem word_natCast {type : IntegerType} (hunsigned : type.signed = false) {value : ℕ}
    (hless : value < 256 ^ type.width) :
    (integer type).word (value : Number) = .ok value := by
  have hmod : (value : ℤ) % TwosComplement.cardinality type.width = value :=
    Int.emod_eq_of_lt (by omega) (by exact_mod_cast hless)
  simp only [Scalar.word, value?_eq_natCast hunsigned (Number.toNat?_natCast value), if_pos hless,
    TwosComplement.word, hmod, Int.toNat_natCast]

/-- The word of a number of an unsigned type is the number. -/
theorem eq_of_word {type : IntegerType} (hunsigned : type.signed = false) {number : Number}
    {value word : ℕ} (hvalue : number.toNat? = some value)
    (hword : (integer type).word number = .ok word) : word = value := by
  have hstored : Number.ofInt (TwosComplement.ofWord type.signed type.width word)
      = (integer type).stored number := ofWord_word hword
  simp only [stored, Number.toInt?_of_toNat? hvalue, Option.getD_some, TwosComplement.ofWord,
    hunsigned, Bool.false_eq_true, false_and, if_false] at hstored
  exact_mod_cast Number.ofInt_injective hstored

theorem fits_iff_of_toNat? {type : IntegerType} (hunsigned : type.signed = false) {number : Number}
    {value : ℕ} (hnumber : number.toNat? = some value) :
    (integer type).Fits number ↔ value < 256 ^ type.width := by
  simp [Fits, value?_eq_natCast hunsigned hnumber]

theorem fits_natCast {type : IntegerType} (hunsigned : type.signed = false) {value : ℕ} :
    (integer type).Fits (value : Number) ↔ value < 256 ^ type.width :=
  fits_iff_of_toNat? hunsigned (Number.toNat?_natCast value)

/-- A value that may be left out for the default zero fits, so leaving it out hides no refusal. -/
theorem fits_of_same_zero {type : Scalar} {value : type.Value}
    (hsame : type.same value type.zero = true) : type.Fits value := by
  cases type with
  | integer type =>
      have hzero : Number.toInt? value = some 0 := Number.toInt?_of_equals_zero hsame
      have hrange : type.least ≤ 0 ∧ 0 ≤ type.greatest := by cases type <;> decide
      simp [Fits, IntegerType.value?, hzero, Option.filter, hrange]
  | flag => trivial
  | long signed => trivial
  | float format => trivial

/-- What is kept of such a value is zero, up to its sign. -/
theorem unsigned_stored_of_same_zero {type : Scalar} {value : type.Value}
    (hsame : type.same value type.zero = true) :
    type.unsigned (type.stored value) = type.unsigned type.zero := by
  cases type with
  | integer type =>
      have hzero : Number.toInt? value = some 0 := Number.toInt?_of_equals_zero hsame
      simp only [unsigned, stored, hzero]
      rfl
  | flag =>
      obtain rfl : value = false := beq_iff_eq.mp hsame
      rfl
  | long signed =>
      obtain rfl : value = 0 := beq_iff_eq.mp hsame
      cases signed <;> decide
  | float format =>
      have hzero : Number.toInt? value = some 0 := Number.toInt?_of_equals_zero hsame
      rcases Number.eq_ofInt_of_toInt? hzero with rfl | ⟨rfl, -⟩
      · cases format <;> decide
      · cases format <;> decide

end Scalar

/-! ## Limits of the layout -/

namespace Layout

/-- What counts bytes of a buffer has room in four of them. -/
theorem maxBufferSize_lt : maxBufferSize < 256 ^ 4 := by decide

/-- The entries of a vtable are those that have room in two bytes. -/
theorem le_maxEntry_iff {entry : ℕ} : entry ≤ maxEntry ↔ entry < 256 ^ 2 :=
  Nat.lt_succ_iff.symm

end Layout

end GraphWire

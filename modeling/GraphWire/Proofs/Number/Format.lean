import GraphWire.Number.Format
import Mathlib.Algebra.Order.Ring.Int
import Mathlib.Data.Nat.Notation

/-!
# Words and values of a format

A number is stored in a word of the format's width, and what is read from a word is one of the
values that the format has.
-/

namespace GraphWire.FloatFormat

theorem magnitudeCode_le (format : FloatFormat) (significand : ℕ) (exponent : ℤ) :
    format.magnitudeCode significand exponent ≤ format.infinityCode :=
  Nat.min_le_right _ _

theorem quietCode_lt (format : FloatFormat) : format.quietCode < format.signWeight := by
  cases format <;> decide

theorem infinityCode_lt (format : FloatFormat) : format.infinityCode < format.signWeight := by
  cases format <;> decide

theorem signWeight_eq (format : FloatFormat) : 2 * format.signWeight = 256 ^ format.width := by
  cases format <;> decide

/-- A number is stored in a word of the format's width. -/
theorem encode_lt (format : FloatFormat) (number : Number) :
    format.encode number < 256 ^ format.width := by
  have hquiet := format.quietCode_lt
  have hinfinity := format.infinityCode_lt
  rw [← signWeight_eq]
  unfold encode
  split
  · omega
  · split <;> omega
  · omega
  · omega
  · next odd precision _ =>
      have hmagnitude := format.magnitudeCode_le odd.natAbs (-precision)
      split <;> omega

/-- The values of a format: besides the special ones the dyadic rationals with few enough digits and
an exponent in range. -/
def Holds (format : FloatFormat) : Number → Prop
  | .finite value =>
      ∃ significand exponent : ℤ,
        significand.natAbs < 2 ^ (format.fractionBits + 1) ∧
        format.leastExponent ≤ exponent ∧
        exponent ≤ format.leastExponent + (2 ^ format.exponentBits - 3) ∧
        value = Dyadic.ofIntWithPrec significand (-exponent)
  | _ => True

/-- A finite magnitude code has a significand and an exponent of the format. -/
theorem unpackCode_bounds (format : FloatFormat) {code : ℕ} (hfinite : code < format.infinityCode) :
    (format.unpackCode code).1 < 2 ^ (format.fractionBits + 1) ∧
      format.leastExponent ≤ (format.unpackCode code).2 ∧
      (format.unpackCode code).2 ≤ format.leastExponent + (2 ^ format.exponentBits - 3) := by
  have hpositive : 0 < 2 ^ format.fractionBits := Nat.two_pow_pos _
  have hfraction : code % 2 ^ format.fractionBits < 2 ^ format.fractionBits :=
    Nat.mod_lt _ hpositive
  have hexponent : code / 2 ^ format.fractionBits < 2 ^ format.exponentBits - 1 := by
    rw [Nat.div_lt_iff_lt_mul hpositive]
    exact hfinite
  have hwide : (8 : ℤ) ≤ 2 ^ format.exponentBits := by cases format <;> decide
  have hcast : ((2 ^ format.exponentBits : ℕ) : ℤ) = 2 ^ format.exponentBits := by
    push_cast
    rfl
  simp only [unpackCode, Nat.pow_succ]
  split
  · exact ⟨by omega, by omega, by omega⟩
  · exact ⟨by omega, by omega, by omega⟩

/-- What a word stores is a value of the format. -/
theorem holds_decode (format : FloatFormat) (word : ℕ) : format.Holds (format.decode word) := by
  unfold decode
  simp only []
  split
  · trivial
  split
  · trivial
  split
  · split
    · trivial
    · refine ⟨0, format.leastExponent, ?_, le_refl _, by cases format <;> decide, rfl⟩
      exact Nat.two_pow_pos _
  · next hnan hinfinite hzero =>
      have hfinite : word % format.signWeight < format.infinityCode := by omega
      obtain ⟨hsignificand, hleast, hgreatest⟩ := format.unpackCode_bounds hfinite
      refine ⟨_, _, ?_, hleast, hgreatest, rfl⟩
      split <;> simpa using hsignificand

end GraphWire.FloatFormat

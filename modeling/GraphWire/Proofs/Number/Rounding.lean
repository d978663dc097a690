import GraphWire.Number.Arithmetic
import GraphWire.Proofs.Number.Format
import Mathlib.Algebra.Order.Field.Power
import Mathlib.Algebra.Order.Field.Rat
import Mathlib.Data.Nat.Notation
import Mathlib.Tactic.Linarith
import Mathlib.Tactic.Positivity
import Mathlib.Tactic.Ring

/-!
# Rounding to the nearest value

A format has the values with few enough digits and an exponent in range (`FloatFormat.Holds`).
Rounding gives the nearest of them, or an infinity when all of them are smaller.  The proof follows
the units of the last place: the rounded quotient is the nearest multiple of a unit, and a value
with a smaller unit is not nearer because it has too few digits to come close.
-/

namespace GraphWire

/-- The rounded quotient is as near as any other multiple of the divisor. -/
theorem roundHalfEven_nearest (dividend : ℕ) {divisor : ℕ} (hdivisor : 0 < divisor) (other : ℤ) :
    |(dividend : ℤ) - divisor * roundHalfEven dividend divisor|
      ≤ |(dividend : ℤ) - divisor * other| := by
  have hparts := Nat.div_add_mod dividend divisor
  have hless := Nat.mod_lt dividend hdivisor
  unfold roundHalfEven
  dsimp only
  generalize dividend / divisor = quotient at *
  generalize dividend % divisor = remainder at *
  have hlow : min (remainder : ℤ) (divisor - remainder) ≤ |(dividend : ℤ) - divisor * other| := by
    have hsplit : (dividend : ℤ) - divisor * other = divisor * (quotient - other) + remainder := by
      rw [← hparts]
      push_cast
      ring
    rw [hsplit]
    rcases le_or_gt 0 ((quotient : ℤ) - other) with hbelow | habove
    · have hproduct : 0 ≤ (divisor : ℤ) * (quotient - other) := by positivity
      exact (min_le_left _ _).trans ((le_add_of_nonneg_left hproduct).trans (le_abs_self _))
    · have hproduct : (divisor : ℤ) * (quotient - other) ≤ divisor * (-1) :=
        Int.mul_le_mul_of_nonneg_left (by omega) (by omega)
      apply (min_le_right _ _).trans
      apply le_trans _ (neg_le_abs _)
      omega
  have hfloor : (dividend : ℤ) - divisor * quotient = remainder := by
    rw [← hparts]
    push_cast
    ring
  have hceiling : (dividend : ℤ) - divisor * (quotient + 1 : ℕ) = remainder - divisor := by
    rw [← hparts]
    push_cast
    ring
  split
  · rw [hfloor, abs_of_nonneg (by omega)]
    omega
  split
  · rw [hceiling, abs_of_nonpos (by omega)]
    omega
  · rcases Nat.mod_two_eq_zero_or_one quotient with heven | hodd
    · rw [heven, Nat.add_zero, hfloor, abs_of_nonneg (by omega)]
      omega
    · rw [hodd, hceiling, abs_of_nonpos (by omega)]
      omega

/-- The rounded quotient is the whole quotient or the next number. -/
theorem roundHalfEven_bounds (dividend divisor : ℕ) :
    dividend / divisor ≤ roundHalfEven dividend divisor ∧
      roundHalfEven dividend divisor ≤ dividend / divisor + 1 := by
  unfold roundHalfEven
  dsimp only
  split
  · omega
  split
  · omega
  · omega

namespace FloatFormat

/-! ## Units of the last place -/

variable (format : FloatFormat)

/-- The exponent of the last place that is kept of a number. -/
def lastPlace (significand : ℕ) (exponent : ℤ) : ℤ :=
  max (exponent + significand.log2 - format.fractionBits) format.leastExponent

/-- The number of units of the last place that are kept of a number. -/
def units (significand : ℕ) (exponent : ℤ) : ℕ :=
  if format.lastPlace significand exponent ≤ exponent then
    significand * 2 ^ (exponent - format.lastPlace significand exponent).toNat
  else roundHalfEven significand (2 ^ (format.lastPlace significand exponent - exponent).toNat)

theorem leastExponent_le_lastPlace (significand : ℕ) (exponent : ℤ) :
    format.leastExponent ≤ format.lastPlace significand exponent :=
  le_max_right _ _

theorem magnitudeCode_eq (significand : ℕ) (exponent : ℤ) :
    format.magnitudeCode significand exponent
      = min ((format.lastPlace significand exponent - format.leastExponent).toNat
          * 2 ^ format.fractionBits + format.units significand exponent) format.infinityCode :=
  rfl

theorem two_zpow_add (first : ℤ) (second : ℕ) :
    (2 : ℚ) ^ (first + second) = 2 ^ second * 2 ^ first := by
  rw [zpow_add₀ (by norm_num), zpow_natCast, mul_comm]

section

variable {significand : ℕ} {exponent : ℤ}

/-- A carry out of the significand makes one more unit than there are significands. -/
theorem units_le :
    format.units significand exponent ≤ 2 ^ (format.fractionBits + 1) := by
  have hdigits : significand < 2 ^ (significand.log2 + 1) := Nat.lt_log2_self
  have hplace : exponent + significand.log2 - format.fractionBits
      ≤ format.lastPlace significand exponent := le_max_left _ _
  unfold units
  split
  · next hexact =>
      have hpower : significand.log2 + 1 + (exponent - format.lastPlace significand exponent).toNat
          ≤ format.fractionBits + 1 := by omega
      calc
        significand * 2 ^ (exponent - format.lastPlace significand exponent).toNat
            ≤ 2 ^ (significand.log2 + 1)
              * 2 ^ (exponent - format.lastPlace significand exponent).toNat :=
          Nat.mul_le_mul_right _ hdigits.le
        _ ≤ 2 ^ (format.fractionBits + 1) := by
          rw [← Nat.pow_add]
          exact Nat.pow_le_pow_right (by decide) hpower
  · have hpower : significand.log2 + 1
        ≤ format.fractionBits + 1 + (format.lastPlace significand exponent - exponent).toNat := by
      omega
    have hquotient : significand / 2 ^ (format.lastPlace significand exponent - exponent).toNat
        < 2 ^ (format.fractionBits + 1) := by
      rw [Nat.div_lt_iff_lt_mul (Nat.two_pow_pos _), ← Nat.pow_add]
      exact hdigits.trans_le (Nat.pow_le_pow_right (by decide) hpower)
    exact (roundHalfEven_bounds _ _).2.trans hquotient

/-- Above the least place all digits of the significand are kept. -/
theorem le_units (hpositive : significand ≠ 0)
    (hplace : format.leastExponent < format.lastPlace significand exponent) :
    2 ^ format.fractionBits ≤ format.units significand exponent := by
  have hdigits : 2 ^ significand.log2 ≤ significand := Nat.log2_self_le hpositive
  have hlast : format.lastPlace significand exponent
      = exponent + significand.log2 - format.fractionBits := by
    unfold lastPlace at hplace ⊢
    omega
  unfold units
  split
  · next hexact =>
      have hpower : format.fractionBits
          = significand.log2 + (exponent - format.lastPlace significand exponent).toNat := by omega
      rw [hpower, Nat.pow_add]
      exact Nat.mul_le_mul_right _ hdigits
  · have hpower : significand.log2
        = format.fractionBits + (format.lastPlace significand exponent - exponent).toNat := by omega
    apply le_trans _ (roundHalfEven_bounds _ _).1
    rw [Nat.le_div_iff_mul_le (Nat.two_pow_pos _), ← Nat.pow_add, ← hpower]
    exact hdigits

/-- No other multiple of the unit is nearer. -/
theorem units_nearest (other : ℤ) :
    |(significand : ℚ) * 2 ^ exponent
        - format.units significand exponent * 2 ^ format.lastPlace significand exponent|
      ≤ |(significand : ℚ) * 2 ^ exponent
        - other * 2 ^ format.lastPlace significand exponent| := by
  unfold units
  split
  · next hexact =>
      have hsplit : exponent = format.lastPlace significand exponent
          + ((exponent - format.lastPlace significand exponent).toNat : ℕ) := by omega
      have hsame : (significand : ℚ) * 2 ^ exponent
          = (significand * 2 ^ (exponent - format.lastPlace significand exponent).toNat : ℕ)
            * 2 ^ format.lastPlace significand exponent := by
        conv_lhs => rw [hsplit, two_zpow_add]
        push_cast
        ring
      rw [hsame, sub_self, abs_zero]
      exact abs_nonneg _
  · have hsplit : format.lastPlace significand exponent
        = exponent + ((format.lastPlace significand exponent - exponent).toNat : ℕ) := by omega
    generalize hgap : (format.lastPlace significand exponent - exponent).toNat = gap at *
    have hscaled (count : ℤ) : |(significand : ℚ) * 2 ^ exponent - count * 2 ^ (exponent + gap)|
        = |(significand : ℤ) - (2 ^ gap : ℕ) * count| * (2 : ℚ) ^ exponent := by
      have hpositive : (0 : ℚ) < 2 ^ exponent := by positivity
      have hfactor : (significand : ℚ) * 2 ^ exponent - count * (2 ^ gap * 2 ^ exponent)
          = ((significand - (2 ^ gap : ℕ) * count : ℤ) : ℚ) * 2 ^ exponent := by
        push_cast
        ring
      rw [two_zpow_add, hfactor, abs_mul, abs_of_pos hpositive, Int.cast_abs]
    have hnear := roundHalfEven_nearest significand (Nat.two_pow_pos gap) other
    have hcast : ((roundHalfEven significand (2 ^ gap) : ℕ) : ℚ)
        = ((roundHalfEven significand (2 ^ gap) : ℤ) : ℚ) := by push_cast; rfl
    rw [hsplit, hcast, hscaled, hscaled]
    apply mul_le_mul_of_nonneg_right _ (by positivity)
    exact_mod_cast hnear

end

/-! ## Magnitude codes -/

/-- The value of a finite magnitude code. -/
def codeValue (code : ℕ) : ℚ :=
  (format.unpackCode code).1 * 2 ^ (format.unpackCode code).2

/-- The code of some units is the code of their value, also when they carry. -/
theorem codeValue_units {places units : ℕ} (hunits : units ≤ 2 ^ (format.fractionBits + 1))
    (hfull : places = 0 ∨ 2 ^ format.fractionBits ≤ units) :
    format.codeValue (places * 2 ^ format.fractionBits + units)
      = units * 2 ^ (format.leastExponent + places) := by
  have hpositive : 0 < 2 ^ format.fractionBits := Nat.two_pow_pos _
  have hdouble : 2 ^ (format.fractionBits + 1) = 2 * 2 ^ format.fractionBits := Nat.pow_succ'
  rcases Nat.lt_or_ge units (2 ^ format.fractionBits) with hsmall | hlarge
  · obtain rfl : places = 0 := by omega
    have hdiv : (0 * 2 ^ format.fractionBits + units) / 2 ^ format.fractionBits = 0 := by
      rw [Nat.zero_mul, Nat.zero_add, Nat.div_eq_of_lt hsmall]
    have hmod : (0 * 2 ^ format.fractionBits + units) % 2 ^ format.fractionBits = units := by
      rw [Nat.zero_mul, Nat.zero_add, Nat.mod_eq_of_lt hsmall]
    unfold codeValue unpackCode
    simp only [hdiv, hmod, if_true]
    simp
  rcases Nat.lt_or_ge units (2 ^ (format.fractionBits + 1)) with hwithin | hcarry
  · have hcode : places * 2 ^ format.fractionBits + units
        = (units - 2 ^ format.fractionBits) + (places + 1) * 2 ^ format.fractionBits := by
      rw [Nat.succ_mul]
      omega
    have hdiv : (places * 2 ^ format.fractionBits + units) / 2 ^ format.fractionBits
        = places + 1 := by
      rw [hcode, Nat.add_mul_div_right _ _ hpositive, Nat.div_eq_of_lt (by omega), Nat.zero_add]
    have hmod : (places * 2 ^ format.fractionBits + units) % 2 ^ format.fractionBits
        = units - 2 ^ format.fractionBits := by
      rw [hcode, Nat.add_mul_mod_self_right, Nat.mod_eq_of_lt (by omega)]
    have hwhole : 2 ^ format.fractionBits + (units - 2 ^ format.fractionBits) = units := by omega
    unfold codeValue unpackCode
    simp only [hdiv, hmod, hwhole, Nat.succ_ne_zero, if_false, Nat.add_sub_cancel]
  · obtain rfl : units = 2 ^ (format.fractionBits + 1) := by omega
    have hcode : places * 2 ^ format.fractionBits + 2 ^ (format.fractionBits + 1)
        = (places + 2) * 2 ^ format.fractionBits := by
      rw [hdouble, Nat.add_mul]
    have hdiv : (places + 2) * 2 ^ format.fractionBits / 2 ^ format.fractionBits = places + 2 :=
      Nat.mul_div_cancel _ hpositive
    have hmod : (places + 2) * 2 ^ format.fractionBits % 2 ^ format.fractionBits = 0 :=
      Nat.mul_mod_left _ _
    have hexponent : format.leastExponent + ((places + 2 - 1 : ℕ) : ℤ)
        = format.leastExponent + places + (1 : ℕ) := by
      push_cast
      omega
    rw [hcode]
    unfold codeValue unpackCode
    simp only [hdiv, hmod, hexponent, Nat.add_eq_zero_iff, OfNat.ofNat_ne_zero, and_false, if_false]
    rw [two_zpow_add]
    push_cast
    ring

/-- The value that is stored for a magnitude is a number of units of the last place. -/
theorem codeValue_magnitudeCode {significand : ℕ} {exponent : ℤ} (hpositive : significand ≠ 0)
    (hfinite : format.magnitudeCode significand exponent < format.infinityCode) :
    format.codeValue (format.magnitudeCode significand exponent)
      = format.units significand exponent * 2 ^ format.lastPlace significand exponent := by
  have hleast := format.leastExponent_le_lastPlace significand exponent
  rw [magnitudeCode_eq] at hfinite ⊢
  rw [min_lt_iff, or_iff_left (lt_irrefl _)] at hfinite
  rw [min_eq_left hfinite.le, format.codeValue_units format.units_le]
  · congr 2
    omega
  · by_cases hplace : format.leastExponent < format.lastPlace significand exponent
    · exact Or.inr (format.le_units hpositive hplace)
    · left
      omega

/-! ## The nearest value -/

section

variable {significand : ℕ} {exponent : ℤ} {digits place : ℤ}

/-- A value with few enough digits is not nearer, whatever its last place. -/
theorem units_nearest_value (hpositive : significand ≠ 0)
    (hdigits : digits.natAbs < 2 ^ (format.fractionBits + 1))
    (hplace : format.leastExponent ≤ place) :
    |(significand : ℚ) * 2 ^ exponent
        - format.units significand exponent * 2 ^ format.lastPlace significand exponent|
      ≤ |(significand : ℚ) * 2 ^ exponent - digits * 2 ^ place| := by
  rcases le_or_gt (format.lastPlace significand exponent) place with hcoarse | hfine
  · have hsplit : place = format.lastPlace significand exponent
        + ((place - format.lastPlace significand exponent).toNat : ℕ) := by omega
    have hmultiple : (digits : ℚ) * 2 ^ place
        = (digits * 2 ^ (place - format.lastPlace significand exponent).toNat : ℤ)
          * 2 ^ format.lastPlace significand exponent := by
      conv_lhs => rw [hsplit, two_zpow_add]
      push_cast
      ring
    rw [hmultiple]
    exact format.units_nearest _
  · -- The value is at most the first number with a full significand at the last place.
    have hlast : format.lastPlace significand exponent
        = exponent + significand.log2 - format.fractionBits := by
      unfold lastPlace at hfine ⊢
      omega
    have hleading : (2 : ℚ) ^ format.fractionBits * 2 ^ format.lastPlace significand exponent
        ≤ significand * 2 ^ exponent := by
      have hpower : (2 : ℚ) ^ format.fractionBits * 2 ^ format.lastPlace significand exponent
          = 2 ^ significand.log2 * 2 ^ exponent := by
        rw [← two_zpow_add, ← two_zpow_add, hlast]
        congr 1
        omega
      have hlog : ((2 ^ significand.log2 : ℕ) : ℚ) ≤ significand :=
        Nat.cast_le.mpr (Nat.log2_self_le hpositive)
      push_cast at hlog
      rw [hpower]
      exact mul_le_mul_of_nonneg_right hlog (by positivity)
    have hvalue : (digits : ℚ) * 2 ^ place
        ≤ 2 ^ format.fractionBits * 2 ^ format.lastPlace significand exponent := by
      have hcount : (digits : ℚ) ≤ 2 ^ (format.fractionBits + 1) := by
        have hinteger : digits ≤ (2 ^ (format.fractionBits + 1) : ℕ) := by omega
        exact_mod_cast hinteger
      have hscale : (2 : ℚ) ^ (place + (1 : ℕ)) ≤ 2 ^ format.lastPlace significand exponent :=
        zpow_le_zpow_right₀ (by norm_num) (by push_cast; omega)
      calc
        (digits : ℚ) * 2 ^ place ≤ 2 ^ (format.fractionBits + 1) * 2 ^ place :=
          mul_le_mul_of_nonneg_right hcount (by positivity)
        _ = 2 ^ format.fractionBits * 2 ^ (place + (1 : ℕ)) := by
          rw [two_zpow_add]
          ring
        _ ≤ 2 ^ format.fractionBits * 2 ^ format.lastPlace significand exponent :=
          mul_le_mul_of_nonneg_left hscale (by positivity)
    have hnear := @units_nearest format significand exponent (2 ^ format.fractionBits)
    push_cast at hnear
    rw [abs_of_nonneg (sub_nonneg.mpr hleading)] at hnear
    apply hnear.trans
    apply le_trans _ (le_abs_self _)
    linarith

/-- The units of such a number make more than any significand at the greatest place. -/
theorem units_of_magnitudeCode_eq (hpositive : significand ≠ 0)
    (hcode : format.magnitudeCode significand exponent = format.infinityCode) :
    (2 : ℚ) ^ (format.fractionBits + 1)
        * 2 ^ (format.leastExponent + (2 ^ format.exponentBits - 3))
      ≤ format.units significand exponent * 2 ^ format.lastPlace significand exponent := by
  have hfraction : 0 < 2 ^ format.fractionBits := Nat.two_pow_pos _
  have hwide : 8 ≤ 2 ^ format.exponentBits := by cases format <;> decide
  have hcast : ((2 ^ format.exponentBits : ℕ) : ℤ) = 2 ^ format.exponentBits := by push_cast; rfl
  have hleast := format.leastExponent_le_lastPlace significand exponent
  have hunits := @units_le format significand exponent
  rw [magnitudeCode_eq, min_eq_right_iff, infinityCode] at hcode
  generalize hplaces : (format.lastPlace significand exponent - format.leastExponent).toNat = places
    at hcode
  have hlast : format.lastPlace significand exponent = format.leastExponent + places := by omega
  have hmany : 2 ^ format.exponentBits - 1 ≤ places + 2 := by
    apply Nat.le_of_mul_le_mul_right _ hfraction
    rw [Nat.add_mul, ← Nat.pow_succ']
    exact hcode.trans (Nat.add_le_add_left hunits _)
  rcases Nat.lt_or_ge places (2 ^ format.exponentBits - 2) with hlow | hhigh
  · obtain rfl : places = 2 ^ format.exponentBits - 3 := by omega
    have hfull : 2 ^ (format.fractionBits + 1) ≤ format.units significand exponent := by
      have hsum : 2 ^ format.exponentBits - 1 = 2 ^ format.exponentBits - 3 + 2 := by omega
      rw [hsum, Nat.add_mul, ← Nat.pow_succ'] at hcode
      exact Nat.le_of_add_le_add_left hcode
    have hplace : format.lastPlace significand exponent
        = format.leastExponent + (2 ^ format.exponentBits - 3) := by omega
    rw [hplace]
    apply mul_le_mul_of_nonneg_right _ (by positivity)
    exact_mod_cast hfull
  · have hfull : 2 ^ format.fractionBits ≤ format.units significand exponent :=
      format.le_units hpositive (by omega)
    have hplace : (2 : ℚ) ^ (format.leastExponent + (2 ^ format.exponentBits - 3) + (1 : ℕ))
        ≤ 2 ^ format.lastPlace significand exponent :=
      zpow_le_zpow_right₀ (by norm_num) (by push_cast; omega)
    calc
      (2 : ℚ) ^ (format.fractionBits + 1)
          * 2 ^ (format.leastExponent + (2 ^ format.exponentBits - 3))
          = 2 ^ format.fractionBits
            * 2 ^ (format.leastExponent + (2 ^ format.exponentBits - 3) + (1 : ℕ)) := by
        rw [two_zpow_add]
        ring
      _ ≤ 2 ^ format.fractionBits * 2 ^ format.lastPlace significand exponent :=
        mul_le_mul_of_nonneg_left hplace (by positivity)
      _ ≤ format.units significand exponent * 2 ^ format.lastPlace significand exponent := by
        apply mul_le_mul_of_nonneg_right _ (by positivity)
        exact_mod_cast hfull

/-- A number whose code is that of the infinity is greater than every value of the format. -/
theorem lt_of_magnitudeCode_eq (hpositive : significand ≠ 0)
    (hcode : format.magnitudeCode significand exponent = format.infinityCode)
    (hdigits : digits.natAbs < 2 ^ (format.fractionBits + 1))
    (hplace : format.leastExponent ≤ place)
    (hgreatest : place ≤ format.leastExponent + (2 ^ format.exponentBits - 3)) :
    |(digits : ℚ) * 2 ^ place| < significand * 2 ^ exponent := by
  have hlarge := format.units_of_magnitudeCode_eq hpositive hcode
  have hnear := @units_nearest_value format significand exponent digits.natAbs place hpositive
    (by rwa [Int.natAbs_natCast]) hplace
  have habsolute : |(digits : ℚ) * 2 ^ place| = (digits.natAbs : ℤ) * 2 ^ place := by
    have hscale : (0 : ℚ) < 2 ^ place := by positivity
    rw [abs_mul, abs_of_pos hscale, Int.natCast_natAbs, Int.cast_abs]
  have hsmall : ((digits.natAbs : ℤ) : ℚ) * 2 ^ place
      < format.units significand exponent * 2 ^ format.lastPlace significand exponent := by
    have hcount : ((digits.natAbs : ℤ) : ℚ) < 2 ^ (format.fractionBits + 1) := by
      exact_mod_cast hdigits
    have hscale : (2 : ℚ) ^ place
        ≤ 2 ^ (format.leastExponent + (2 ^ format.exponentBits - 3)) :=
      zpow_le_zpow_right₀ (by norm_num) hgreatest
    calc
      ((digits.natAbs : ℤ) : ℚ) * 2 ^ place
          < 2 ^ (format.fractionBits + 1) * 2 ^ place :=
        mul_lt_mul_of_pos_right hcount (by positivity)
      _ ≤ 2 ^ (format.fractionBits + 1)
          * 2 ^ (format.leastExponent + (2 ^ format.exponentBits - 3)) :=
        mul_le_mul_of_nonneg_left hscale (by positivity)
      _ ≤ _ := hlarge
  rw [habsolute]
  by_contra hnot
  rw [not_lt] at hnot
  rw [abs_of_nonpos (by linarith), abs_of_nonpos (by linarith)] at hnear
  linarith

end

end FloatFormat

/-! ## Rounded numbers -/

/-- The rational that a number is, if it is one. -/
def Number.toRat? : Number → Option ℚ
  | finite value => some value.toRat
  | negativeZero => some 0
  | _ => none

namespace FloatFormat

variable (format : FloatFormat)

/-- The word with a sign and a magnitude code. -/
def signedWord (negative : Bool) (code : ℕ) : ℕ :=
  (if negative then format.signWeight else 0) + code

theorem signedWord_mod (negative : Bool) {code : ℕ} (hcode : code ≤ format.infinityCode) :
    format.signedWord negative code % format.signWeight = code := by
  have hweight : code < format.signWeight := hcode.trans_lt format.infinityCode_lt
  cases negative with
  | false => rw [signedWord, if_neg Bool.false_ne_true, Nat.zero_add, Nat.mod_eq_of_lt hweight]
  | true => rw [signedWord, if_pos rfl, Nat.add_mod_left, Nat.mod_eq_of_lt hweight]

/-- A word with a sign and a magnitude code is read as the value of the code with the sign. -/
theorem decode_signedWord (negative : Bool) {code : ℕ} (hcode : code ≤ format.infinityCode) :
    format.decode (format.signedWord negative code) = .infinity negative ∧
        code = format.infinityCode ∨
      (format.decode (format.signedWord negative code)).toRat?
          = some ((if negative then -1 else 1) * format.codeValue code) ∧
        code < format.infinityCode := by
  have hweight : code < format.signWeight := hcode.trans_lt format.infinityCode_lt
  have hsign : (format.signedWord negative code / format.signWeight % 2 == 1) = negative := by
    cases negative with
    | false => simp [signedWord, Nat.div_eq_of_lt hweight]
    | true =>
        have hdiv : (format.signWeight + code) / format.signWeight = 1 := by
          rw [Nat.add_div_left _ (by omega), Nat.div_eq_of_lt hweight]
        simp [signedWord, hdiv]
  unfold decode
  simp only [hsign, format.signedWord_mod negative hcode, if_neg (Nat.not_lt.mpr hcode)]
  rcases hcode.eq_or_lt with rfl | hfinite
  · left
    simp
  · right
    refine ⟨?_, hfinite⟩
    rw [if_neg hfinite.ne]
    by_cases hzero : code = 0
    · have hvalue : format.codeValue 0 = 0 := by
        simp [codeValue, unpackCode]
      rw [if_pos hzero, hzero, hvalue, mul_zero]
      cases negative <;> rfl
    · rw [if_neg hzero]
      simp only [Number.toRat?, Dyadic.toRat_ofIntWithPrec_eq_mul_two_pow, Int.neg_neg, codeValue]
      cases negative with
      | false => simp
      | true => simp

/-- What a number is rounded to: an infinity, or the value of its magnitude code with its sign. -/
theorem round_ofOdd (odd precision : ℤ) (hodd : odd % 2 = 1) :
    format.round (.finite (.ofOdd odd precision hodd)) = .infinity (decide (odd < 0)) ∧
        format.magnitudeCode odd.natAbs (-precision) = format.infinityCode ∨
      (format.round (.finite (.ofOdd odd precision hodd))).toRat?
          = some ((if odd < 0 then -1 else 1)
              * format.codeValue (format.magnitudeCode odd.natAbs (-precision))) ∧
        format.magnitudeCode odd.natAbs (-precision) < format.infinityCode := by
  have hsigned := format.decode_signedWord (decide (odd < 0))
    (format.magnitudeCode_le odd.natAbs (-precision))
  simpa [round, encode, signedWord] using hsigned

/-- Rounding gives the nearest value of the format, or an infinity if all values are smaller. -/
theorem round_nearest (number : Dyadic) :
    (∃ value, (format.round (.finite number)).toRat? = some value ∧
      ∀ other, format.Holds (.finite other) →
        |number.toRat - value| ≤ |number.toRat - other.toRat|) ∨
    format.round (.finite number) = .infinity (decide (number.toRat < 0)) ∧
      ∀ other, format.Holds (.finite other) → |other.toRat| < |number.toRat| := by
  cases number with
  | zero =>
      left
      refine ⟨0, by cases format <;> rfl, ?_⟩
      intro other _
      have hzero : Dyadic.zero.toRat = 0 := rfl
      rw [hzero, sub_zero, abs_zero]
      exact abs_nonneg _
  | ofOdd odd precision hodd =>
      have hpositive : odd.natAbs ≠ 0 := by omega
      have hscale : (0 : ℚ) < 2 ^ (-precision) := by positivity
      have hvalue : (Dyadic.ofOdd odd precision hodd).toRat = odd * 2 ^ (-precision) :=
        Dyadic.toRat_ofOdd_eq_mul_two_pow
      have hsize : |(odd : ℚ) * 2 ^ (-precision)| = odd.natAbs * 2 ^ (-precision) := by
        rw [abs_mul, abs_of_pos hscale, ← Int.cast_abs, Int.abs_eq_natAbs, Int.cast_natCast]
      rw [hvalue]
      rcases format.round_ofOdd odd precision hodd with ⟨hround, hcode⟩ | ⟨hround, hfinite⟩
      · right
        constructor
        · have hnegative : (odd : ℚ) * 2 ^ (-precision) < 0 ↔ odd < 0 :=
            ⟨fun hless => Int.cast_lt_zero.mp (neg_of_mul_neg_left hless hscale.le),
              fun hless => mul_neg_of_neg_of_pos (Int.cast_lt_zero.mpr hless) hscale⟩
          rw [hround, decide_eq_decide.mpr hnegative]
        · rintro other ⟨digits, place, hdigits, hleast, hgreatest, rfl⟩
          rw [hsize, Dyadic.toRat_ofIntWithPrec_eq_mul_two_pow, Int.neg_neg]
          exact format.lt_of_magnitudeCode_eq hpositive hcode hdigits hleast hgreatest
      · left
        refine ⟨_, hround, ?_⟩
        rintro other ⟨digits, place, hdigits, hleast, -, rfl⟩
        rw [format.codeValue_magnitudeCode hpositive hfinite,
          Dyadic.toRat_ofIntWithPrec_eq_mul_two_pow, Int.neg_neg]
        -- The other value is taken with the sign of the number.
        by_cases hnegative : odd < 0
        · have hnear := @units_nearest_value format odd.natAbs (-precision) (-digits) place
            hpositive (by rwa [Int.natAbs_neg]) hleast
          have hodd' : (odd : ℚ) = -odd.natAbs := by
            rw [Nat.cast_natAbs, abs_of_neg hnegative]
            push_cast
            ring
          rw [if_pos hnegative, hodd', ← abs_neg, ← abs_neg (_ - (digits : ℚ) * _)]
          push_cast at hnear
          convert hnear using 2
          · ring
          · ring
        · have hnear := @units_nearest_value format odd.natAbs (-precision) digits place hpositive
            hdigits hleast
          have hodd' : (odd : ℚ) = odd.natAbs := by
            rw [Nat.cast_natAbs, abs_of_nonneg (not_lt.mp hnegative)]
          rw [if_neg hnegative, one_mul, hodd']
          exact hnear

end FloatFormat

end GraphWire

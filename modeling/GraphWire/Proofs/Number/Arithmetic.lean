import GraphWire.Proofs.Number.Basic
import GraphWire.Proofs.Number.Rounding

/-!
# Rounded sums and products

A sum or product is rounded once.  When its exact value is one that the format has it is that value,
and otherwise it does not fall below any smaller value that the format has.
-/

namespace GraphWire

namespace FloatFormat

variable (format : FloatFormat)

/-- Integers of moderate size are values of every format. -/
theorem holds_ofInt {value : ℤ} (hsmall : value.natAbs < 2 ^ (format.fractionBits + 1)) :
    format.Holds (.finite (Dyadic.ofInt value)) := by
  refine ⟨value, 0, hsmall, ?_, ?_, rfl⟩
  · cases format <;> decide
  · cases format <;> decide

/-- A value of the format is rounded to itself. -/
theorem round_of_holds {number : Dyadic} (hholds : format.Holds (.finite number)) :
    (format.round (.finite number)).toRat? = some number.toRat := by
  rcases format.round_nearest number with ⟨value, hvalue, hnearest⟩ | ⟨-, hsmaller⟩
  · have hself := hnearest number hholds
    rw [sub_self, abs_zero] at hself
    have hzero := abs_eq_zero.mp (le_antisymm hself (abs_nonneg _))
    rw [hvalue, sub_eq_zero.mp hzero]
  · exact absurd (hsmaller number hholds) (lt_irrefl _)

/-- So is every other value, and the sign of a zero is kept. -/
theorem round_eq_of_holds {number : Number} (hholds : format.Holds number) :
    format.round number = number := by
  cases number with
  | nan => cases format <;> decide
  | infinity negative => cases format <;> cases negative <;> decide
  | negativeZero => cases format <;> decide
  | finite value =>
      have hvalue := format.round_of_holds hholds
      cases hround : format.round (.finite value) with
      | nan =>
          rw [hround] at hvalue
          cases hvalue
      | infinity negative =>
          rw [hround] at hvalue
          cases hvalue
      | negativeZero =>
          rw [hround] at hvalue
          have hzero : value = 0 := Dyadic.toRat_inj.mp (Option.some.inj hvalue).symm
          rw [hzero, show format.round (.finite 0) = .finite 0 by cases format <;> decide] at hround
          cases hround
      | finite rounded =>
          rw [hround] at hvalue
          rw [Dyadic.toRat_inj.mp (Option.some.inj hvalue)]

end FloatFormat

namespace Number

/-- A number that is not below an integer. -/
def AtLeast (bound : ℤ) (number : Number) : Prop :=
  number = .infinity false ∨ ∃ value, number.toRat? = some value ∧ (bound : ℚ) ≤ value

theorem toRat_ofInt (value : ℤ) : (Dyadic.ofInt value).toRat = value :=
  Dyadic.toRat_intCast value

/-- A number that equals an integer is not below it. -/
theorem toRat?_of_toInt? {number : Number} {value : ℤ} (hvalue : number.toInt? = some value) :
    number.toRat? = some (value : ℚ) := by
  rcases eq_ofInt_of_toInt? hvalue with rfl | ⟨rfl, rfl⟩
  · rw [ofInt, toRat?, toRat_ofInt]
  · rw [toRat?, Int.cast_zero]

theorem atLeast_ofInt (value : ℤ) : AtLeast value (.ofInt value) :=
  Or.inr ⟨value, toRat?_of_toInt? (toInt?_ofInt value), le_refl _⟩

theorem AtLeast.mono {number : Number} {bound bound' : ℤ} (hnumber : number.AtLeast bound)
    (hbound : bound' ≤ bound) : number.AtLeast bound' := by
  rcases hnumber with hinfinite | ⟨value, hvalue, hle⟩
  · exact Or.inl hinfinite
  · exact Or.inr ⟨value, hvalue, (Int.cast_le.mpr hbound).trans hle⟩

/-- The greater of two numbers is not below what the first one is not below. -/
theorem AtLeast.max {left : Number} {bound : ℤ} (hleft : left.AtLeast bound) (right : Number) :
    (max left right).AtLeast bound := by
  change (if left.below right then right else left).AtLeast bound
  split
  · next hbelow =>
      rcases hleft with rfl | ⟨value, hvalue, hbound⟩
      · cases right <;> cases hbelow
      · obtain ⟨first, hfirst, rfl⟩ : ∃ first : Dyadic,
            left.unsignedZero = .finite first ∧ first.toRat = value := by
          cases left with
          | nan | infinity _ => cases hvalue
          | negativeZero | finite _ => exact ⟨_, rfl, Option.some.inj hvalue⟩
        simp only [below, hfirst] at hbelow
        cases right with
        | nan => cases hbelow
        | infinity negative =>
            cases negative with
            | true => cases hbelow
            | false => exact Or.inl rfl
        | negativeZero | finite _ =>
            have hless := Dyadic.toRat_lt_toRat_iff.mpr (of_decide_eq_true hbelow)
            exact Or.inr ⟨_, rfl, hbound.trans hless.le⟩
  · exact hleft
/-- A number that is at most another in the order of numbers is so as a rational. -/
theorem atLeast_of_atMost {number : Number} (hzero : Number.atMost 0 number = true) :
    AtLeast 0 number := by
  cases number with
  | nan => exact absurd hzero (by decide)
  | infinity negative =>
      cases negative with
      | false => exact Or.inl rfl
      | true => exact absurd hzero (by decide)
  | negativeZero => exact Or.inr ⟨0, rfl, le_refl _⟩
  | finite value =>
      refine Or.inr ⟨value.toRat, rfl, ?_⟩
      rw [atMost, Bool.or_eq_true] at hzero
      rcases hzero with hbelow | hequal
      · have hless : Dyadic.ofInt 0 < value := of_decide_eq_true hbelow
        rw [← Dyadic.toRat_lt_toRat_iff, toRat_ofInt] at hless
        exact hless.le
      · have hsame : (0 : Number) = .finite value := by
          rw [equals, Bool.and_eq_true, beq_iff_eq] at hequal
          exact hequal.2
        have hvalue : Dyadic.ofInt 0 = value := finite.inj hsame
        rw [← hvalue, toRat_ofInt]

/-- What is rounded does not fall below a smaller integer that the format has. -/
theorem atLeast_rounded_of_holds {number : Dyadic} {bound : ℤ}
    (hholds : FloatFormat.binary64.Holds (.finite (Dyadic.ofInt bound)))
    (hbound : (bound : ℚ) ≤ number.toRat) : AtLeast bound (rounded number) := by
  rcases FloatFormat.binary64.round_nearest number with ⟨value, hvalue, hnearest⟩ |
    ⟨hinfinite, hsmaller⟩
  · refine Or.inr ⟨value, hvalue, ?_⟩
    have hnear := hnearest _ hholds
    rw [toRat_ofInt, abs_of_nonneg (sub_nonneg.mpr hbound)] at hnear
    have hdistance := (le_abs_self _).trans hnear
    linarith
  · left
    have hless := hsmaller _ hholds
    rw [toRat_ofInt] at hless
    have hpositive : ¬number.toRat < 0 := by
      intro hnegative
      rw [abs_of_neg hnegative, abs_of_neg (hbound.trans_lt hnegative)] at hless
      linarith
    rw [rounded, hinfinite, decide_eq_false hpositive]

/-- Integers of moderate size are such bounds. -/
theorem atLeast_rounded {number : Dyadic} {bound : ℤ} (hsmall : bound.natAbs < 2 ^ 53)
    (hbound : (bound : ℚ) ≤ number.toRat) : AtLeast bound (rounded number) :=
  atLeast_rounded_of_holds (FloatFormat.binary64.holds_ofInt hsmall) hbound

/-! ## Exact results -/

variable {left right : Number} {first second : ℚ}

theorem finitePart_toRat {number : Number} {value : ℚ} (hvalue : number.toRat? = some value) :
    number.finitePart.toRat = value := by
  cases number with
  | nan | infinity _ => cases hvalue
  | negativeZero | finite _ => exact Option.some.inj hvalue

/-- A sum is exact or the exact sum rounded. -/
theorem add_rounded (hleft : left.toRat? = some first) (hright : right.toRat? = some second) :
    (left + right).toRat? = some (first + second) ∨
      ∃ sum : Dyadic, left + right = rounded sum ∧ sum.toRat = first + second := by
  have hsum : (left.finitePart + right.finitePart).toRat = first + second := by
    rw [Dyadic.toRat_add, finitePart_toRat hleft, finitePart_toRat hright]
  cases left with
  | nan | infinity _ => cases hleft
  | negativeZero =>
      cases right with
      | nan | infinity _ => cases hright
      | negativeZero =>
          left
          cases hleft
          cases hright
          rw [add_zero]
          rfl
      | finite value => exact Or.inr ⟨_, rfl, hsum⟩
  | finite value =>
      cases right with
      | nan | infinity _ => cases hright
      | negativeZero | finite _ => exact Or.inr ⟨_, rfl, hsum⟩

/-- A product is exact or the exact product rounded. -/
theorem mul_rounded (hleft : left.toRat? = some first) (hright : right.toRat? = some second) :
    (left * right).toRat? = some (first * second) ∨
      ∃ product : Dyadic, left * right = rounded product ∧ product.toRat = first * second := by
  have hproduct : (left.finitePart * right.finitePart).toRat = first * second := by
    rw [Dyadic.toRat_mul, finitePart_toRat hleft, finitePart_toRat hright]
  have heq : left * right = if left.finitePart * right.finitePart = 0 then
      if left.isNegative != right.isNegative then negativeZero else finite 0
      else rounded (left.finitePart * right.finitePart) := by
    cases left with
    | nan | infinity _ => cases hleft
    | negativeZero | finite _ =>
        cases right with
        | nan | infinity _ => cases hright
        | negativeZero | finite _ => rfl
  rw [heq]
  by_cases hzero : left.finitePart * right.finitePart = 0
  · left
    have hvalue : (0 : Dyadic).toRat = first * second := hzero ▸ hproduct
    rw [if_pos hzero, ← hvalue]
    split <;> rfl
  · rw [if_neg hzero]
    exact Or.inr ⟨_, rfl, hproduct⟩

/-! ## Bounds -/

theorem add_atLeast {first second : ℤ} (hleft : left.AtLeast first)
    (hright : right.AtLeast second) (hsmall : (first + second).natAbs < 2 ^ 53) :
    AtLeast (first + second) (left + right) := by
  rcases hleft with rfl | ⟨x, hx, hfirst⟩
  · left
    rcases hright with rfl | ⟨y, hy, -⟩
    · rfl
    · cases right with
      | nan | infinity _ => cases hy
      | negativeZero | finite _ => rfl
  rcases hright with rfl | ⟨y, hy, hsecond⟩
  · left
    cases left with
    | nan | infinity _ => cases hx
    | negativeZero | finite _ => rfl
  have hbound : ((first + second : ℤ) : ℚ) ≤ x + y := by
    push_cast
    exact add_le_add hfirst hsecond
  rcases add_rounded hx hy with hexact | ⟨sum, hsum, hvalue⟩
  · exact Or.inr ⟨_, hexact, hbound⟩
  · rw [hsum]
    exact atLeast_rounded hsmall (hvalue ▸ hbound)

/-- A product does not fall below a smaller integer that the format has. -/
theorem mul_atLeast {bound : ℤ}
    (hholds : FloatFormat.binary64.Holds (.finite (Dyadic.ofInt bound)))
    (hleft : left.toRat? = some first) (hright : right.toRat? = some second)
    (hbound : (bound : ℚ) ≤ first * second) : AtLeast bound (left * right) := by
  rcases mul_rounded hleft hright with hexact | ⟨product, hrounded, hvalue⟩
  · exact Or.inr ⟨_, hexact, hbound⟩
  · rw [hrounded]
    exact atLeast_rounded_of_holds hholds (hvalue ▸ hbound)

/-- A number that is a natural number as a rational equals it. -/
theorem toNat?_of_toRat? {number : Number} {value : ℕ}
    (hvalue : number.toRat? = some (value : ℚ)) : number.toNat? = some value := by
  cases number with
  | nan | infinity _ => cases hvalue
  | negativeZero =>
      obtain rfl : 0 = value := by exact_mod_cast Option.some.inj hvalue
      rfl
  | finite dyadic =>
      obtain rfl : dyadic = Dyadic.ofInt value := by
        apply Dyadic.toRat_inj.mp
        rw [Option.some.inj hvalue, toRat_ofInt, Int.cast_natCast]
      exact toNat?_ofNat value

theorem toRat?_of_toNat? {number : Number} {value : ℕ} (hvalue : number.toNat? = some value) :
    number.toRat? = some (value : ℚ) := by
  rw [toRat?_of_toInt? (toInt?_of_toNat? hvalue), Int.cast_natCast]

/-- A product that is a natural number of moderate size is exact. -/
theorem mul_eq_natCast {product : ℕ} (hleft : left.toRat? = some first)
    (hright : right.toRat? = some second) (hproduct : first * second = product)
    (hsmall : product < 2 ^ 53) : (left * right).toNat? = some product := by
  apply toNat?_of_toRat?
  rw [← hproduct]
  rcases mul_rounded hleft hright with hexact | ⟨exact, hrounded, hvalue⟩
  · exact hexact
  · have hinteger : exact = Dyadic.ofInt product := by
      apply Dyadic.toRat_inj.mp
      rw [hvalue, hproduct, toRat_ofInt, Int.cast_natCast]
    have hholds : FloatFormat.binary64.Holds (.finite exact) := by
      rw [hinteger]
      apply FloatFormat.holds_ofInt
      rwa [Int.natAbs_natCast]
    rw [hrounded, rounded, FloatFormat.round_of_holds _ hholds, hvalue]

/-- A product of natural numbers is not negative. -/
theorem mul_atLeast_zero (factor : ℕ) {count : ℕ} (hright : right.toNat? = some count) :
    AtLeast 0 ((factor : Number) * right) := by
  apply mul_atLeast (FloatFormat.binary64.holds_ofInt (by decide))
    (toRat?_of_toNat? (toNat?_natCast factor)) (toRat?_of_toNat? hright)
  push_cast
  positivity

/-- A product with a natural number is no less than zero, unless it is that of infinity and zero. -/
theorem mul_nan_or_atLeast {count : ℕ} (hleft : left.AtLeast 0)
    (hright : right.toNat? = some count) :
    left * right = .nan ∨ AtLeast 0 (left * right) := by
  have hcount := toRat?_of_toNat? hright
  rcases hleft with rfl | ⟨value, hvalue, hbound⟩
  · cases right with
    | nan | infinity _ => cases hcount
    | negativeZero => exact .inl rfl
    | finite value =>
        have hnatural : value.toRat = count := Option.some.inj hcount
        have hsign : (finite value).isNegative = false := by
          apply decide_eq_false
          rw [← Dyadic.toRat_lt_toRat_iff, hnatural]
          change ¬(count : ℚ) < 0
          exact not_lt.mpr (Nat.cast_nonneg count)
        by_cases hzero : (finite value).equals 0 = true
        · exact .inl (if_pos hzero)
        · refine .inr (.inl ((if_neg hzero).trans ?_))
          rw [hsign]
          rfl
  · right
    apply mul_atLeast (FloatFormat.binary64.holds_ofInt (by decide)) hvalue hcount
    have hfirst : 0 ≤ value := by exact_mod_cast hbound
    rw [Int.cast_zero]
    positivity

/-- A product of natural numbers that comes out below the range of exact integers is exact. -/
theorem mul_eq_of_toNat? {factor count product : ℕ} (hright : right.toNat? = some count)
    (hproduct : ((factor : Number) * right).toNat? = some product)
    (hsmall : product < 2 ^ 32) : product = factor * count := by
  have hfirst := toRat?_of_toNat? (toNat?_natCast factor)
  have hsecond := toRat?_of_toNat? hright
  rcases Nat.lt_or_ge (factor * count) (2 ^ 32) with hbelow | habove
  · have hexact := mul_eq_natCast hfirst hsecond (Nat.cast_mul factor count).symm
      (hbelow.trans (by decide))
    exact Option.some.inj (hproduct.symm.trans hexact)
  · have hbound : ((2 ^ 32 : ℤ) : ℚ) ≤ (factor : ℚ) * count := by exact_mod_cast habove
    have hatLeast := mul_atLeast (FloatFormat.binary64.holds_ofInt (by decide)) hfirst hsecond
      hbound
    rcases hatLeast with hinfinite | ⟨value, hfound, hlarge⟩
    · rw [hinfinite] at hproduct
      cases hproduct
    · rw [toRat?_of_toNat? hproduct, Option.some.injEq] at hfound
      rw [← hfound] at hlarge
      have hlarge' : (2 ^ 32 : ℤ) ≤ (product : ℤ) := by exact_mod_cast hlarge
      omega

/-! ## Whole parts -/

section

variable {odd precision : ℤ} (hodd : odd % 2 = 1)

/-- Without binary places a dyadic rational is an integer. -/
theorem toRat_ofOdd_of_nonpos (hwhole : precision ≤ 0) :
    (Dyadic.ofOdd odd precision hodd).toRat = (odd * 2 ^ (-precision).toNat : ℤ) := by
  rw [Dyadic.toRat_ofOdd_eq_mul_two_pow]
  conv_lhs => rw [← Int.toNat_of_nonneg (show 0 ≤ -precision by omega)]
  rw [zpow_natCast]
  push_cast
  rfl

/-- Otherwise it becomes one when it is scaled by its binary places. -/
theorem toRat_ofOdd_mul (hfraction : ¬precision ≤ 0) :
    (Dyadic.ofOdd odd precision hodd).toRat * (2 ^ precision.toNat : ℤ) = odd := by
  have hexponent : ((2 ^ precision.toNat : ℤ) : ℚ) = 2 ^ precision := by
    conv_rhs => rw [← Int.toNat_of_nonneg (show 0 ≤ precision by omega)]
    rw [zpow_natCast]
    push_cast
    rfl
  rw [Dyadic.toRat_ofOdd_eq_mul_two_pow, hexponent, mul_assoc, ← zpow_add₀ (by norm_num),
    neg_add_cancel, zpow_zero, mul_one]

end

/-- The least integer that is not below a number is not below a smaller integer. -/
theorem le_ceiling {value : Dyadic} {bound : ℤ} (hbound : (bound : ℚ) ≤ value.toRat) :
    bound ≤ (finite value).ceiling := by
  cases value with
  | zero =>
      have hzero : (bound : ℚ) ≤ 0 := hbound
      exact_mod_cast hzero
  | ofOdd odd precision hodd =>
      simp only [ceiling]
      split
      · next hwhole =>
          rw [toRat_ofOdd_of_nonpos hodd hwhole] at hbound
          exact_mod_cast hbound
      · next hfraction =>
          have hscale : (0 : ℚ) ≤ (2 ^ precision.toNat : ℤ) := by positivity
          have hscaled := mul_le_mul_of_nonneg_right hbound hscale
          rw [toRat_ofOdd_mul hodd hfraction] at hscaled
          have hinteger : bound * 2 ^ precision.toNat ≤ odd := by exact_mod_cast hscaled
          have hquotient : -odd / 2 ^ precision.toNat ≤ -bound := by
            apply Int.ediv_le_of_le_mul (by positivity)
            rw [Int.neg_mul]
            omega
          omega

/-- The integer part of a number between zero and an integer is between them too. -/
theorem truncated_mem {number : Number} {value : ℚ} (hvalue : number.toRat? = some value)
    {bound : ℤ} (hnonneg : 0 ≤ value) (hbound : value ≤ bound) :
    0 ≤ number.truncated ∧ number.truncated ≤ bound := by
  cases number with
  | nan | infinity _ => cases hvalue
  | negativeZero =>
      cases hvalue
      exact ⟨le_refl _, by exact_mod_cast hbound⟩
  | finite dyadic =>
      obtain rfl : dyadic.toRat = value := Option.some.inj hvalue
      cases dyadic with
      | zero => exact ⟨le_refl _, by exact_mod_cast hnonneg.trans hbound⟩
      | ofOdd odd precision hodd =>
          simp only [truncated]
          split
          · next hwhole =>
              rw [toRat_ofOdd_of_nonpos hodd hwhole] at hnonneg hbound
              exact ⟨by exact_mod_cast hnonneg, by exact_mod_cast hbound⟩
          · next hfraction =>
              have hscale : (0 : ℚ) ≤ (2 ^ precision.toNat : ℤ) := by positivity
              have hbelow := mul_nonneg hnonneg hscale
              have habove := mul_le_mul_of_nonneg_right hbound hscale
              rw [toRat_ofOdd_mul hodd hfraction] at hbelow habove
              have hpositive : 0 ≤ odd := by exact_mod_cast hbelow
              have hinteger : odd ≤ bound * 2 ^ precision.toNat := by exact_mod_cast habove
              refine ⟨Int.tdiv_nonneg hpositive (by positivity), ?_⟩
              rw [Int.tdiv_eq_ediv_of_nonneg hpositive]
              exact Int.ediv_le_of_le_mul (by positivity) hinteger

/-- Rounding a sum between zero and an integer of moderate size leaves it there. -/
theorem truncated_rounded_mem {number : Dyadic} {bound : ℤ} (hsmall : bound.natAbs < 2 ^ 53)
    (hnonneg : 0 ≤ number.toRat) (hbound : number.toRat ≤ bound) :
    0 ≤ (rounded number).truncated ∧ (rounded number).truncated ≤ bound := by
  rcases FloatFormat.binary64.round_nearest number with ⟨value, hvalue, hnearest⟩ |
    ⟨hinfinite, -⟩
  · have habove := hnearest _ (FloatFormat.binary64.holds_ofInt hsmall)
    have hzero : FloatFormat.binary64.Holds (.finite (Dyadic.ofInt 0)) :=
      FloatFormat.binary64.holds_ofInt (by decide)
    have hbelow := hnearest _ hzero
    rw [toRat_ofInt, abs_sub_comm, abs_sub_comm number.toRat,
      abs_of_nonneg (sub_nonneg.mpr hbound)] at habove
    rw [toRat_ofInt, Int.cast_zero, sub_zero, abs_of_nonneg hnonneg] at hbelow
    have hrise := (le_abs_self _).trans habove
    have hfall := (le_abs_self _).trans hbelow
    exact truncated_mem hvalue (by linarith) (by linarith)
  · rw [rounded, hinfinite]
    refine ⟨le_refl _, ?_⟩
    exact_mod_cast hnonneg.trans hbound

end Number

end GraphWire

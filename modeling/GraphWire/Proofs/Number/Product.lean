import GraphWire.Proofs.Number.Arithmetic
import Mathlib.Algebra.BigOperators.Ring.List

/-!
# Products of natural numbers

A product of many natural numbers is accumulated from the left and rounded at every step.  As long
as it stays below the range of exact integers it is exact, and above it no later factor but zero
brings it back, so rounding alone is never mistaken for an exact product.  Only an infinity is lost
for good: times zero it is not-a-number.
-/

namespace GraphWire

namespace FloatFormat

/-- An integer with few digits in front of some zeros is a value of binary64. -/
theorem holds_mul_two_pow {significand exponent : ℕ} (hsignificand : significand < 2 ^ 32)
    (hexponent : exponent ≤ 992) :
    binary64.Holds (.finite (Dyadic.ofInt (significand * 2 ^ exponent : ℕ))) := by
  -- The exponent of a format is at most 971; what is above goes into the significand.
  obtain ⟨shift, place, rfl, hshift, hplace⟩ : ∃ shift place, exponent = shift + place ∧
      shift ≤ 21 ∧ place ≤ 971 := ⟨exponent - 971, min exponent 971, by omega, by omega, by omega⟩
  have hdigits : significand * 2 ^ shift < 2 ^ (binary64.fractionBits + 1) :=
    calc significand * 2 ^ shift ≤ significand * 2 ^ 21 :=
          Nat.mul_le_mul_left _ (Nat.pow_le_pow_right (by decide) hshift)
      _ < 2 ^ 32 * 2 ^ 21 := Nat.mul_lt_mul_of_pos_right hsignificand (by decide)
      _ = 2 ^ (binary64.fractionBits + 1) := (Nat.pow_add 2 32 21).symm
  have hleast : binary64.leastExponent ≤ 0 := by decide
  have hgreatest : 971 ≤ binary64.leastExponent + (2 ^ binary64.exponentBits - 3) := by decide
  have hnatural : (0 : ℤ) ≤ place := Int.natCast_nonneg place
  have hbounded : (place : ℤ) ≤ 971 := Int.ofNat_le.mpr hplace
  refine ⟨(significand * 2 ^ shift : ℕ), place, ?_, hleast.trans hnatural,
    hbounded.trans hgreatest, ?_⟩
  · rwa [Int.natAbs_natCast]
  · apply Dyadic.toRat_inj.mp
    rw [Number.toRat_ofInt, Dyadic.toRat_ofIntWithPrec_eq_mul_two_pow, Int.neg_neg, zpow_natCast,
      Nat.pow_add]
    push_cast
    ring

end FloatFormat

namespace Number

/-! ## One factor -/

/-- The integers below this one are all values of binary64. -/
def exactLimit : ℕ := 2 ^ 53

theorem holds_exactLimit : FloatFormat.binary64.Holds (.finite (Dyadic.ofInt exactLimit)) :=
  FloatFormat.holds_mul_two_pow (show 1 < 2 ^ 32 by decide) (show 53 ≤ 992 by decide)

/-- A number that stands for a natural number in a comparison with small ones: it is exact or both
are past the exact integers. -/
def Tracks (number : Number) (value : ℕ) : Prop :=
  number.toNat? = some value ∧ value < exactLimit ∨
    number.AtLeast exactLimit ∧ exactLimit ≤ value

variable {product factor : Number} {value count : ℕ}

/-- What stands for a natural number equals the same small numbers. -/
theorem Tracks.toNat?_iff (hproduct : product.Tracks value) (hcount : count < exactLimit) :
    product.toNat? = some count ↔ value = count := by
  rcases hproduct with ⟨hexact, -⟩ | ⟨hlarge, habove⟩
  · rw [hexact, Option.some.injEq]
  · refine iff_of_false ?_ (by omega)
    intro hequal
    rcases hlarge with rfl | ⟨rational, hrational, hbound⟩
    · cases hequal
    · rw [toRat?_of_toNat? hequal, Option.some.injEq] at hrational
      rw [← hrational] at hbound
      have hle : exactLimit ≤ count := by exact_mod_cast hbound
      omega

/-- An infinity that is multiplied stays infinite, unless the factor is zero. -/
theorem infinity_mul (hfactor : factor.toNat? = some count) :
    infinity false * factor = if count = 0 then nan else infinity false := by
  rcases eq_ofInt_of_toInt? (toInt?_of_toNat? hfactor) with rfl | ⟨rfl, hzero⟩
  · change (if (ofInt count).equals (ofInt 0) then nan
      else infinity (false != (ofInt count).isNegative)) = _
    have hsign : (ofInt count).isNegative = false := by
      have horder := below_ofInt count 0
      rw [decide_eq_false (by omega)] at horder
      exact horder
    simp [hsign]
  · obtain rfl : count = 0 := by exact_mod_cast hzero
    rfl

/-- A factor keeps a number next to what it stands for, unless it is a zero after an infinity. -/
theorem Tracks.mul (hproduct : product.Tracks value) (hfactor : factor.toNat? = some count) :
    (product * factor).Tracks (value * count) ∨ product = infinity false ∧ count = 0 := by
  have hsecond := toRat?_of_toNat? hfactor
  rcases hproduct with ⟨hexact, hsmall⟩ | ⟨rfl | ⟨rational, hrational, hlarge⟩, habove⟩
  · left
    have hfirst := toRat?_of_toNat? hexact
    rcases Nat.lt_or_ge (value * count) exactLimit with hbelow | habove
    · exact Or.inl ⟨mul_eq_natCast hfirst hsecond (Nat.cast_mul value count).symm hbelow, hbelow⟩
    · refine Or.inr ⟨mul_atLeast holds_exactLimit hfirst hsecond ?_, habove⟩
      exact_mod_cast habove
  · by_cases hzero : count = 0
    · exact Or.inr ⟨rfl, hzero⟩
    · left
      rw [infinity_mul hfactor, if_neg hzero]
      have hmore : value ≤ value * count := Nat.le_mul_of_pos_right _ (by omega)
      exact Or.inr ⟨Or.inl rfl, habove.trans hmore⟩
  · left
    by_cases hzero : count = 0
    · subst hzero
      have hproduct : rational * (0 : ℕ) = ((0 : ℕ) : ℚ) := by rw [Nat.cast_zero, mul_zero]
      rw [Nat.mul_zero]
      exact Or.inl ⟨mul_eq_natCast hrational hsecond hproduct (by decide), by decide⟩
    · have hone : (1 : ℚ) ≤ count := by exact_mod_cast Nat.one_le_iff_ne_zero.mpr hzero
      have hmore : value ≤ value * count := Nat.le_mul_of_pos_right _ (by omega)
      refine Or.inr ⟨mul_atLeast holds_exactLimit hrational hsecond ?_, habove.trans hmore⟩
      have hpositive : (0 : ℚ) ≤ rational := le_trans (by exact_mod_cast Nat.zero_le _) hlarge
      exact hlarge.trans (le_mul_of_one_le_right hpositive hone)

/-! ## Many factors -/

variable {factors : List Number} {values : List ℕ}

/-- A product that has become infinite before a factor that is zero. -/
def OverflowsBeforeZero (product : Number) (factors : List Number) : Prop :=
  ∃ before zero after, factors = before ++ zero :: after ∧ zero.toNat? = some 0 ∧
    before.foldl (· * ·) product = infinity false

/-- Not-a-number stays what it is. -/
theorem nan_foldl_mul (factors : List Number) : factors.foldl (· * ·) nan = nan := by
  induction factors with
  | nil => rfl
  | cons factor factors ih => exact ih

/-- An infinity is lost to a later zero. -/
theorem OverflowsBeforeZero.foldl_mul (hoverflow : OverflowsBeforeZero product factors) :
    factors.foldl (· * ·) product = nan := by
  obtain ⟨before, zero, after, rfl, hzero, hinfinite⟩ := hoverflow
  rw [List.foldl_append, hinfinite, List.foldl_cons, infinity_mul hzero, if_pos rfl, nan_foldl_mul]

theorem OverflowsBeforeZero.prod_eq_zero (hoverflow : OverflowsBeforeZero product factors)
    (hvalues : factors.map toNat? = values.map some) : values.prod = 0 := by
  obtain ⟨before, zero, after, rfl, hzero, -⟩ := hoverflow
  have hmember : some 0 ∈ values.map some := by
    rw [← hvalues, ← hzero]
    exact List.mem_map_of_mem (by simp)
  rw [List.mem_map] at hmember
  obtain ⟨value, hvalue, hsome⟩ := hmember
  obtain rfl := Option.some.inj hsome
  exact List.prod_eq_zero hvalue

/-- An accumulated product stands for the exact one unless a zero meets an infinity. -/
theorem Tracks.foldl_mul (hproduct : product.Tracks value)
    (hvalues : factors.map toNat? = values.map some) :
    (factors.foldl (· * ·) product).Tracks (value * values.prod) ∨
      OverflowsBeforeZero product factors := by
  induction factors generalizing product value values with
  | nil =>
      obtain rfl : values = [] := List.map_eq_nil_iff.mp hvalues.symm
      rw [List.prod_nil, Nat.mul_one]
      exact Or.inl hproduct
  | cons factor factors ih =>
      cases values with
      | nil => cases hvalues
      | cons count values =>
          rw [List.map_cons, List.map_cons, List.cons.injEq] at hvalues
          obtain ⟨hfactor, hvalues⟩ := hvalues
          rcases hproduct.mul hfactor with hnext | ⟨rfl, rfl⟩
          · rw [List.prod_cons, ← Nat.mul_assoc]
            rcases ih hnext hvalues with htracks | ⟨before, zero, after, rfl, hzero, hinfinite⟩
            · exact Or.inl htracks
            · exact Or.inr ⟨factor :: before, zero, after, rfl, hzero, hinfinite⟩
          · exact Or.inr ⟨[], factor, factors, rfl, hfactor, rfl⟩

/-- An accumulated product equals a small number just if the exact product does and no zero met an
infinity on the way. -/
theorem foldl_mul_toNat?_iff (hvalues : factors.map toNat? = values.map some)
    (hcount : count < exactLimit) :
    (factors.foldl (· * ·) 1).toNat? = some count ↔
      values.prod = count ∧ ¬OverflowsBeforeZero 1 factors := by
  have hone : Tracks 1 1 := Or.inl ⟨rfl, by decide⟩
  by_cases hoverflow : OverflowsBeforeZero 1 factors
  · rw [hoverflow.foldl_mul]
    exact iff_of_false nofun fun hexact => hexact.2 hoverflow
  · have htracks := (hone.foldl_mul hvalues).resolve_right hoverflow
    rw [htracks.toNat?_iff hcount, Nat.one_mul, and_iff_left hoverflow]

/-! ## Factors of one word -/

/-- A number between zero and a bound. -/
def Within (bound : ℕ) (number : Number) : Prop :=
  ∃ value, number.toRat? = some value ∧ 0 ≤ value ∧ value ≤ bound

/-- What is rounded does not pass a greater integer that the format has. -/
theorem within_rounded {exact : Dyadic} {bound : ℕ}
    (hholds : FloatFormat.binary64.Holds (.finite (Dyadic.ofInt bound)))
    (hpositive : 0 ≤ exact.toRat) (hbound : exact.toRat ≤ bound) :
    Within bound (rounded exact) := by
  rcases FloatFormat.binary64.round_nearest exact with ⟨value, hvalue, hnearest⟩ | ⟨-, hsmaller⟩
  · refine ⟨value, hvalue, ?_, ?_⟩
    · have hzero : FloatFormat.binary64.Holds (.finite (Dyadic.ofInt 0)) :=
        FloatFormat.binary64.holds_ofInt (by decide)
      have hnear := hnearest _ hzero
      rw [toRat_ofInt, Int.cast_zero, sub_zero, abs_of_nonneg hpositive] at hnear
      have hdistance := (le_abs_self _).trans hnear
      linarith
    · have hnear := hnearest _ hholds
      rw [toRat_ofInt, Int.cast_natCast, abs_sub_comm, abs_sub_comm exact.toRat,
        abs_of_nonneg (sub_nonneg.mpr hbound)] at hnear
      have hdistance := (le_abs_self _).trans hnear
      linarith
  · have hless := hsmaller _ hholds
    rw [toRat_ofInt, Int.cast_natCast, abs_of_nonneg hpositive, Nat.abs_cast] at hless
    exact absurd hbound (not_le.mpr hless)

/-- The greatest product of some factors of one word each, but for the rounding. -/
def wordBound : ℕ → ℕ
  | 0 => 1
  | factors + 1 => (2 ^ 32 - 1) * 2 ^ (32 * factors)

theorem wordBound_le (factors : ℕ) : wordBound factors ≤ 2 ^ (32 * factors) := by
  cases factors with
  | zero => rfl
  | succ factors =>
      rw [wordBound, Nat.mul_succ, Nat.pow_add, Nat.mul_comm]
      exact Nat.mul_le_mul_left _ (by decide)

/-- One factor more takes the product to the next bound. -/
theorem Within.mul {factors : ℕ} (hproduct : Within (wordBound factors) product)
    (hfactor : factor.toNat? = some count) (hcount : count < 2 ^ 32) (hfew : factors < 32) :
    Within (wordBound (factors + 1)) (product * factor) := by
  obtain ⟨value, hvalue, hpositive, hbound⟩ := hproduct
  have hsecond := toRat?_of_toNat? hfactor
  have hnext : value * count ≤ (wordBound (factors + 1) : ℚ) := by
    have hfirst : value ≤ ((2 ^ (32 * factors) : ℕ) : ℚ) :=
      hbound.trans (by exact_mod_cast wordBound_le factors)
    have hlast : (count : ℚ) ≤ ((2 ^ 32 - 1 : ℕ) : ℚ) := by
      exact_mod_cast Nat.le_sub_one_of_lt hcount
    rw [wordBound, Nat.mul_comm, Nat.cast_mul]
    exact mul_le_mul hfirst hlast (Nat.cast_nonneg _) (Nat.cast_nonneg _)
  have hsign : 0 ≤ value * count := mul_nonneg hpositive (Nat.cast_nonneg _)
  rcases mul_rounded hvalue hsecond with hexact | ⟨exact, hrounded, hexact⟩
  · exact ⟨_, hexact, hsign, hnext⟩
  · rw [hrounded]
    apply within_rounded
    · exact FloatFormat.holds_mul_two_pow (by decide) (by omega)
    · rwa [hexact]
    · rwa [hexact]

/-- A product of at most thirty-two factors of one word each is finite. -/
theorem within_foldl_mul (hvalues : factors.map toNat? = values.map some)
    (hwords : ∀ value ∈ values, value < 2 ^ 32) (hfew : factors.length ≤ 32) :
    Within (wordBound factors.length) (factors.foldl (· * ·) 1) := by
  induction factors using List.reverseRecOn generalizing values with
  | nil => exact ⟨1, rfl, zero_le_one, by norm_num [wordBound]⟩
  | append_singleton factors factor ih =>
      rw [List.map_append] at hvalues
      obtain ⟨before, after, rfl, hbefore, hafter⟩ := List.append_eq_map_iff.mp hvalues
      obtain ⟨count, rest, rfl, hfactor, hrest⟩ := List.map_eq_cons_iff.mp hafter
      rw [List.length_append, List.length_singleton] at hfew ⊢
      have hproduct := ih hbefore.symm (fun value hvalue =>
        hwords value (List.mem_append_left _ hvalue)) (by omega)
      rw [List.foldl_append]
      exact hproduct.mul hfactor.symm (hwords count (by simp)) (by omega)

/-- So when a product overflows before a zero, more factors than that come before the zero. -/
theorem OverflowsBeforeZero.length_lt (hoverflow : OverflowsBeforeZero 1 factors)
    (hvalues : factors.map toNat? = values.map some) (hwords : ∀ value ∈ values, value < 2 ^ 32) :
    33 < factors.length := by
  obtain ⟨before, zero, after, rfl, -, hinfinite⟩ := hoverflow
  rw [List.map_append] at hvalues
  obtain ⟨first, rest, rfl, hfirst, -⟩ := List.append_eq_map_iff.mp hvalues
  rw [List.length_append, List.length_cons]
  by_contra hshort
  obtain ⟨value, hvalue, -⟩ := within_foldl_mul hfirst.symm
    (fun value hvalue => hwords value (List.mem_append_left _ hvalue)) (by omega)
  rw [hinfinite] at hvalue
  cases hvalue

end Number

end GraphWire

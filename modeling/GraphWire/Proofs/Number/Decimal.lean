import GraphWire.Proofs.Number.Interval
import Mathlib.Data.Rat.Floor
import Mathlib.Tactic.LinearCombination

/-!
# Shortest decimals

On one grid the search has to look at two points only, because all points below the value are
farther away than the last of them, and all above farther than the first.  It stops at the first
grid with a point in the interval.  That is the coarsest such grid, since the first point of a grid
above the start of the search is beyond the interval, and there is one, since the last grid of the
search is finer than the interval is wide.  A decimal with fewer digits would have a power of ten
between itself and the one that was found, which would be on a coarser grid.
-/

namespace GraphWire

namespace Decimal

def toRat (decimal : Decimal) : ℚ :=
  decimal.digits * 10 ^ decimal.exponent

end Decimal

namespace RoundingInterval

/-! ## One grid -/

/-- What the search relies on: the interval is around its value, not too narrow, and its value has
no more digits and no larger an exponent than that of a code. -/
structure Searchable (interval : RoundingInterval) : Prop where
  lower_pos : 0 < interval.lower
  lower_lt : interval.lower < interval.value
  lt_upper : interval.value < interval.upper
  upper_le : interval.upper ≤ 2 * interval.value
  wide : interval.lower + 3 ≤ interval.upper
  value_lt : interval.value < 2 ^ 55
  exponent_le : interval.exponent.natAbs ≤ 2000

theorem searchable_ofCode {format : FloatFormat} {code : ℕ} (hcode : 0 < code)
    (hfinite : code < format.infinityCode) : (ofCode format code).Searchable := by
  have hpositive := significand_pos format hcode
  obtain ⟨hdigits, hleast, hgreatest⟩ := format.unpackCode_bounds hfinite
  have hprecision : 2 ^ (format.fractionBits + 1) ≤ 2 ^ 53 := by cases format <;> decide
  have hrange : -1074 ≤ format.leastExponent ∧
      format.leastExponent + (2 ^ format.exponentBits - 3) ≤ 971 := by
    cases format <;> decide
  unfold ofCode
  dsimp only
  split_ifs
  · constructor <;> dsimp only <;> omega
  · constructor <;> dsimp only <;> omega

theorem contains_center {interval : RoundingInterval} (hinterval : interval.Searchable) :
    interval.Contains interval.center := by
  have hscale : (0 : ℚ) < 2 ^ interval.exponent := by positivity
  constructor
  · apply precedes_of_lt
    exact mul_lt_mul_of_pos_right (Nat.cast_lt.mpr hinterval.lower_lt) hscale
  · apply precedes_of_lt
    exact mul_lt_mul_of_pos_right (Nat.cast_lt.mpr hinterval.lt_upper) hscale

theorem pow_toNat {base : ℚ} (hbase : base ≠ 0) (exponent : ℤ) :
    base ^ exponent.toNat = base ^ (-exponent).toNat * base ^ exponent := by
  have hsplit : (exponent.toNat : ℤ) = (-exponent).toNat + exponent := by omega
  rw [← zpow_natCast, hsplit, zpow_add₀ hbase, zpow_natCast]

/-- The number of parts into which the common measure divides the unit. -/
def measure (interval : RoundingInterval) (step : ℤ) : ℚ :=
  2 ^ (-interval.exponent).toNat * 10 ^ (-step).toNat

variable (interval : RoundingInterval) (step : ℤ)

theorem measure_pos : 0 < interval.measure step := by
  unfold measure
  positivity

theorem unitWeight_eq :
    (interval.unitWeight step : ℚ) = interval.measure step * 2 ^ interval.exponent := by
  simp only [unitWeight, measure]
  push_cast
  rw [pow_toNat two_ne_zero interval.exponent]
  ring

theorem stepWeight_eq :
    (interval.stepWeight step : ℚ) = interval.measure step * 10 ^ step := by
  simp only [stepWeight, measure]
  push_cast
  rw [pow_toNat (by norm_num) step]
  ring

theorem hasPoint_iff (point : ℕ) :
    interval.hasPoint step point = true ↔ interval.Contains (point * 10 ^ step) := by
  have hunit (count : ℕ) : interval.measure step * (count * 2 ^ interval.exponent)
      = (count * interval.unitWeight step : ℕ) := by
    push_cast
    rw [unitWeight_eq]
    ring
  have hposition : interval.measure step * (point * 10 ^ step)
      = (point * interval.stepWeight step : ℕ) := by
    push_cast
    rw [stepWeight_eq]
    ring
  unfold Contains
  rw [← precedes_mul_iff (measure_pos interval step),
    ← @precedes_mul_iff _ (point * 10 ^ step) _ _ (measure_pos interval step), hunit, hunit,
    hposition]
  unfold hasPoint Precedes
  simp only [Nat.cast_le, Nat.cast_lt]
  cases interval.closed <;> simp

/-- The last point of the grid that is not above the value. -/
def lastBelow (interval : RoundingInterval) (step : ℤ) : ℕ :=
  interval.value * interval.unitWeight step / interval.stepWeight step

theorem stepWeight_pos : 0 < interval.stepWeight step := by
  unfold stepWeight
  positivity

/-- How far the value is above that point. -/
theorem center_sub_lastBelow :
    interval.measure step * (interval.center - interval.lastBelow step * 10 ^ step)
      = (interval.value * interval.unitWeight step % interval.stepWeight step : ℕ) := by
  have hparts := Nat.div_add_mod' (interval.value * interval.unitWeight step)
    (interval.stepWeight step)
  have hcast := congrArg (Nat.cast : ℕ → ℚ) hparts
  push_cast [unitWeight_eq, stepWeight_eq] at hcast
  unfold center lastBelow
  linear_combination -hcast

theorem lastBelow_le : interval.lastBelow step * (10 : ℚ) ^ step ≤ interval.center := by
  rw [← sub_nonneg, ← mul_nonneg_iff_of_pos_left (measure_pos interval step), center_sub_lastBelow]
  exact Nat.cast_nonneg _

theorem lt_lastBelow_add_one :
    interval.center < ((interval.lastBelow step + 1 : ℕ) : ℚ) * 10 ^ step := by
  have hrest : ((interval.value * interval.unitWeight step % interval.stepWeight step : ℕ) : ℚ)
      < interval.stepWeight step :=
    Nat.cast_lt.mpr (Nat.mod_lt _ (stepWeight_pos interval step))
  rw [← center_sub_lastBelow, stepWeight_eq] at hrest
  have hless := lt_of_mul_lt_mul_left hrest (measure_pos interval step).le
  push_cast
  linarith

variable {interval step}

theorem contains_lastBelow (hinterval : interval.Searchable) {point : ℕ}
    (hpoint : interval.Contains (point * 10 ^ step)) (hle : point ≤ interval.lastBelow step) :
    interval.Contains (interval.lastBelow step * 10 ^ step) := by
  apply hpoint.between (contains_center hinterval) _ (lastBelow_le interval step)
  exact mul_le_mul_of_nonneg_right (Nat.cast_le.mpr hle) (by positivity)

theorem contains_lastBelow_add_one (hinterval : interval.Searchable) {point : ℕ}
    (hpoint : interval.Contains (point * 10 ^ step)) (hlt : interval.lastBelow step < point) :
    interval.Contains ((interval.lastBelow step + 1 : ℕ) * 10 ^ step) := by
  apply (contains_center hinterval).between hpoint (lt_lastBelow_add_one interval step).le
  exact mul_le_mul_of_nonneg_right (Nat.cast_le.mpr hlt) (by positivity)

/-- A decimal of the interval that is as near to its value as all others of its grid. -/
structure IsNearest (interval : RoundingInterval) (decimal : Decimal) : Prop where
  contains : interval.Contains decimal.toRat
  nearest : ∀ point : ℕ, interval.Contains (point * 10 ^ decimal.exponent) →
    |decimal.toRat - interval.center| ≤ |point * 10 ^ decimal.exponent - interval.center|

/-- Of the points that are not above the value the last one is nearest. -/
theorem abs_lastBelow_le {point : ℕ} (hle : point ≤ interval.lastBelow step) :
    |interval.lastBelow step * (10 : ℚ) ^ step - interval.center|
      ≤ |point * (10 : ℚ) ^ step - interval.center| := by
  have hbelow := lastBelow_le interval step
  have hpoint : (point : ℚ) * 10 ^ step ≤ interval.lastBelow step * 10 ^ step :=
    mul_le_mul_of_nonneg_right (Nat.cast_le.mpr hle) (by positivity)
  rw [abs_of_nonpos (by linarith), abs_of_nonpos (by linarith)]
  linarith

theorem abs_lastBelow_add_one_le {point : ℕ} (hlt : interval.lastBelow step < point) :
    |(interval.lastBelow step + 1 : ℕ) * (10 : ℚ) ^ step - interval.center|
      ≤ |point * (10 : ℚ) ^ step - interval.center| := by
  have habove := lt_lastBelow_add_one interval step
  have hpoint : ((interval.lastBelow step + 1 : ℕ) : ℚ) * 10 ^ step ≤ point * 10 ^ step :=
    mul_le_mul_of_nonneg_right (Nat.cast_le.mpr hlt) (by positivity)
  rw [abs_of_nonneg (by linarith), abs_of_nonneg (by linarith)]
  linarith

/-- Twice the remainder tells which of the two points around the value is nearer. -/
theorem abs_lastBelow_sub_abs :
    interval.measure step * (|interval.lastBelow step * (10 : ℚ) ^ step - interval.center|
        - |(interval.lastBelow step + 1 : ℕ) * (10 : ℚ) ^ step - interval.center|)
      = (2 * (interval.value * interval.unitWeight step % interval.stepWeight step) : ℕ)
        - interval.stepWeight step := by
  have hbelow := lastBelow_le interval step
  have habove := lt_lastBelow_add_one interval step
  rw [abs_of_nonpos (by linarith), abs_of_nonneg (by linarith), Nat.cast_mul,
    ← center_sub_lastBelow, stepWeight_eq]
  push_cast
  ring

theorem lastBelow_nearer_iff :
    |interval.lastBelow step * (10 : ℚ) ^ step - interval.center|
        ≤ |(interval.lastBelow step + 1 : ℕ) * (10 : ℚ) ^ step - interval.center| ↔
      2 * (interval.value * interval.unitWeight step % interval.stepWeight step)
        ≤ interval.stepWeight step := by
  rw [← sub_nonpos, ← mul_le_mul_iff_right₀ (measure_pos interval step), mul_zero,
    abs_lastBelow_sub_abs, sub_nonpos, Nat.cast_le]

theorem lastBelow_add_one_nearer_iff :
    |(interval.lastBelow step + 1 : ℕ) * (10 : ℚ) ^ step - interval.center|
        ≤ |interval.lastBelow step * (10 : ℚ) ^ step - interval.center| ↔
      interval.stepWeight step
        ≤ 2 * (interval.value * interval.unitWeight step % interval.stepWeight step) := by
  rw [← sub_nonneg, ← mul_le_mul_iff_right₀ (measure_pos interval step), mul_zero,
    abs_lastBelow_sub_abs, sub_nonneg, Nat.cast_le]

theorem isNearest_of_nearestOnGrid? (hinterval : interval.Searchable) {digits : ℕ}
    (hfound : interval.nearestOnGrid? step = some digits) : interval.IsNearest ⟨digits, step⟩ := by
  unfold nearestOnGrid? at hfound
  dsimp only at hfound
  rw [← lastBelow] at hfound
  split at hfound
  · next hbelow =>
      rw [hasPoint_iff] at hbelow
      split at hfound
      · next habove =>
          obtain rfl := Option.some.inj hfound
          rw [Bool.and_eq_true, hasPoint_iff] at habove
          obtain ⟨hnext, hhalf⟩ := habove
          refine ⟨hnext, fun point hpoint => ?_⟩
          rcases Nat.lt_or_ge (interval.lastBelow step) point with hlt | hle
          · exact abs_lastBelow_add_one_le hlt
          · apply le_trans _ (abs_lastBelow_le hle)
            rw [Decimal.toRat, lastBelow_add_one_nearer_iff]
            simp only [Bool.or_eq_true, decide_eq_true_eq, Bool.and_eq_true, beq_iff_eq] at hhalf
            omega
      · next hnot =>
          obtain rfl := Option.some.inj hfound
          refine ⟨hbelow, fun point hpoint => ?_⟩
          rcases Nat.lt_or_ge (interval.lastBelow step) point with hlt | hle
          · -- The next point is in the interval as well, so it was passed over as not nearer.
            apply le_trans _ (abs_lastBelow_add_one_le hlt)
            have hnext := contains_lastBelow_add_one hinterval hpoint hlt
            rw [← hasPoint_iff] at hnext
            rw [Decimal.toRat, lastBelow_nearer_iff]
            simp only [hnext, Bool.true_and, Bool.or_eq_true, decide_eq_true_eq, Bool.and_eq_true,
              beq_iff_eq] at hnot
            omega
          · exact abs_lastBelow_le hle
  · next hnone =>
      split at hfound
      · next habove =>
          obtain rfl := Option.some.inj hfound
          rw [hasPoint_iff] at hnone habove
          refine ⟨habove, fun point hpoint => abs_lastBelow_add_one_le ?_⟩
          by_contra hle
          exact hnone (contains_lastBelow hinterval hpoint (not_lt.mp hle))
      · cases hfound

theorem not_contains_of_nearestOnGrid? (hinterval : interval.Searchable)
    (hnone : interval.nearestOnGrid? step = none) (point : ℕ) :
    ¬interval.Contains (point * 10 ^ step) := by
  unfold nearestOnGrid? at hnone
  dsimp only at hnone
  rw [← lastBelow] at hnone
  intro hpoint
  split at hnone
  · split at hnone <;> cases hnone
  · next hbelow =>
      split at hnone
      · cases hnone
      · next habove =>
          rw [hasPoint_iff] at hbelow habove
          rcases Nat.lt_or_ge (interval.lastBelow step) point with hlt | hle
          · exact habove (contains_lastBelow_add_one hinterval hpoint hlt)
          · exact hbelow (contains_lastBelow hinterval hpoint hle)

/-! ## The search -/

/-- The search on one grid after the other finds the coarsest one with a point in the interval. -/
theorem firstGrid_spec (hinterval : interval.Searchable) {point : ℕ} {fine : ℤ}
    (hpoint : interval.Contains (point * 10 ^ fine)) {fuel : ℕ} {start : ℤ} (hstart : fine ≤ start)
    (hfuel : start < fine + fuel) :
    interval.IsNearest (interval.firstGrid fuel start) ∧
      ∀ other : Decimal, interval.Contains other.toRat → other.exponent ≤ start →
        other.exponent ≤ (interval.firstGrid fuel start).exponent := by
  induction fuel generalizing start with
  | zero => omega
  | succ fuel ih =>
      unfold firstGrid
      cases hgrid : interval.nearestOnGrid? start with
      | some digits => exact ⟨isNearest_of_nearestOnGrid? hinterval hgrid, fun other _ hle => hle⟩
      | none =>
          have hempty := not_contains_of_nearestOnGrid? hinterval hgrid
          have hfiner : fine ≠ start := by
            rintro rfl
            exact hempty point hpoint
          obtain ⟨hnearest, hcoarsest⟩ := @ih (start - 1) (by omega) (by omega)
          refine ⟨hnearest, fun other hother hle => hcoarsest other hother ?_⟩
          have hdiffers : other.exponent ≠ start := by
            rintro rfl
            exact hempty other.digits hother
          omega

end RoundingInterval

/-! ## Powers of ten and of two -/

section

variable {tens twos : ℕ} {ten two : ℤ}

/-- Two powers that are nearly equal stay so, one doubling aside, when both are raised to a small
exponent. -/
theorem ten_pow_zpow_le (hlow : 2 ^ twos ≤ 10 ^ tens) (hhigh : 10 ^ tens ≤ 2 ^ (twos + 1))
    (hsmall : two ≤ twos) : ((10 : ℚ) ^ tens) ^ two ≤ (2 ^ (two + 1)) ^ twos := by
  have hlow' : (2 : ℚ) ^ twos ≤ 10 ^ tens := by exact_mod_cast hlow
  have hhigh' : (10 : ℚ) ^ tens ≤ 2 ^ (twos + 1) := by exact_mod_cast hhigh
  rcases Int.le_total 0 two with hnonneg | hnonpos
  · obtain ⟨count, rfl⟩ := Int.eq_ofNat_of_zero_le hnonneg
    calc
      ((10 : ℚ) ^ tens) ^ (count : ℤ) ≤ (2 ^ (twos + 1)) ^ count := by
        rw [zpow_natCast]
        exact pow_le_pow_left₀ (by positivity) hhigh' count
      _ = 2 ^ ((twos + 1) * count) := (pow_mul _ _ _).symm
      _ ≤ 2 ^ ((count + 1) * twos) := by
        apply pow_le_pow_right₀ (by norm_num)
        rw [Nat.add_mul, Nat.add_mul, Nat.mul_comm]
        omega
      _ = (2 ^ ((count : ℤ) + 1)) ^ twos := by
        rw [pow_mul, ← Nat.cast_succ, zpow_natCast]
  · obtain ⟨count, hcount⟩ := Int.eq_ofNat_of_zero_le (neg_nonneg.mpr hnonpos)
    obtain rfl : two = -count := by omega
    calc
      ((10 : ℚ) ^ tens) ^ (-(count : ℤ)) ≤ ((2 ^ twos) ^ count)⁻¹ := by
        rw [zpow_neg, zpow_natCast]
        exact inv_anti₀ (by positivity) (pow_le_pow_left₀ (by positivity) hlow' count)
      _ = (2 ^ (-(count : ℤ))) ^ twos := by
        rw [← pow_mul, Nat.mul_comm, pow_mul, zpow_neg, zpow_natCast, inv_pow]
      _ ≤ (2 ^ (-(count : ℤ) + 1)) ^ twos := by
        apply pow_le_pow_left₀ (by positivity)
        exact zpow_le_zpow_right₀ (by norm_num) (by omega)

/-- Powers of ten are below those of two, one doubling aside, when the ratio of the exponents is not
above that of two nearly equal powers. -/
theorem ten_zpow_le (hlow : 2 ^ twos ≤ 10 ^ tens) (hhigh : 10 ^ tens ≤ 2 ^ (twos + 1))
    (hpositive : 0 < twos) (hsmall : two ≤ twos) (hratio : ten * twos ≤ tens * two) :
    (10 : ℚ) ^ ten ≤ 2 ^ (two + 1) := by
  rw [← pow_le_pow_iff_left₀ (by positivity) (by positivity) hpositive.ne']
  calc
    ((10 : ℚ) ^ ten) ^ twos = 10 ^ (ten * twos) := by rw [zpow_mul, zpow_natCast]
    _ ≤ 10 ^ (tens * two) := zpow_le_zpow_right₀ (by norm_num) hratio
    _ = (10 ^ tens) ^ two := by rw [zpow_mul, zpow_natCast]
    _ ≤ _ := ten_pow_zpow_le hlow hhigh hsmall

theorem two_zpow_le (hlow : 2 ^ twos ≤ 10 ^ tens) (hhigh : 10 ^ tens ≤ 2 ^ (twos + 1))
    (hpositive : 0 < twos) (hsmall : -twos ≤ two) (hratio : tens * two ≤ ten * twos) :
    (2 : ℚ) ^ (two - 1) ≤ 10 ^ ten := by
  have hinverse := @ten_zpow_le tens twos (-ten) (-two) hlow hhigh hpositive (by omega)
    (by rw [neg_mul, mul_neg]; omega)
  rw [← inv_le_inv₀ (by positivity) (by positivity), ← zpow_neg, ← zpow_neg, neg_sub']
  exact hinverse

end

/-- Two powers that are nearly equal. -/
theorem two_pow_le_ten_pow_le :
    2 ^ 100000 ≤ 10 ^ 30103 ∧ 10 ^ 30103 ≤ 2 ^ (100000 + 1) := by
  decide +kernel

namespace RoundingInterval

/-! ## The shortest decimal -/

/-- The shortest decimal of an interval is on the coarsest grid that meets the interval, and nearest
to the value on that grid. -/
structure IsShortest (interval : RoundingInterval) (decimal : Decimal) : Prop
    extends interval.IsNearest decimal where
  coarsest : ∀ other : Decimal, interval.Contains other.toRat → other.exponent ≤ decimal.exponent

/-- The exponent of the first power of two above the value. -/
def place (interval : RoundingInterval) : ℤ :=
  interval.exponent + interval.value.log2 + 1

variable {interval : RoundingInterval}

theorem Contains.pos (hinterval : interval.Searchable) {real : ℚ}
    (hcontains : interval.Contains real) : 0 < real := by
  refine lt_of_lt_of_le ?_ hcontains.1.le
  have hlower : (0 : ℚ) < interval.lower := Nat.cast_pos.mpr hinterval.lower_pos
  positivity

theorem Contains.le (hinterval : interval.Searchable) {real : ℚ}
    (hcontains : interval.Contains real) : real ≤ 2 ^ (interval.place + 1) := by
  have hdigits : interval.upper ≤ 2 ^ (interval.value.log2 + 2) := by
    have hvalue : interval.value < 2 ^ (interval.value.log2 + 1) := Nat.lt_log2_self
    have hupper := hinterval.upper_le
    rw [pow_succ] at hvalue ⊢
    omega
  calc
    real ≤ interval.upper * 2 ^ interval.exponent := hcontains.2.le
    _ ≤ 2 ^ (interval.value.log2 + 2) * 2 ^ interval.exponent := by
      apply mul_le_mul_of_nonneg_right _ (by positivity)
      exact_mod_cast hdigits
    _ = 2 ^ (interval.place + 1) := by
      rw [← FloatFormat.two_zpow_add, place]
      congr 1
      push_cast
      ring

/-- A grid that is finer than the interval is wide has a point in it. -/
theorem exists_contains (hinterval : interval.Searchable) {fine : ℤ}
    (hfine : (10 : ℚ) ^ fine < 3 * 2 ^ interval.exponent) :
    ∃ point : ℕ, interval.Contains (point * 10 ^ fine) := by
  have hstep : (0 : ℚ) < 10 ^ fine := by positivity
  have hscale : (0 : ℚ) < 2 ^ interval.exponent := by positivity
  have hwide : ((interval.lower : ℚ) + 3) * 2 ^ interval.exponent
      ≤ interval.upper * 2 ^ interval.exponent := by
    apply mul_le_mul_of_nonneg_right _ hscale.le
    exact_mod_cast hinterval.wide
  have hbelow := Nat.floor_le (show 0 ≤ interval.lower * (2 : ℚ) ^ interval.exponent / 10 ^ fine by
    positivity)
  have habove := Nat.lt_floor_add_one (interval.lower * (2 : ℚ) ^ interval.exponent / 10 ^ fine)
  rw [le_div_iff₀ hstep] at hbelow
  rw [div_lt_iff₀ hstep] at habove
  refine ⟨⌊interval.lower * (2 : ℚ) ^ interval.exponent / 10 ^ fine⌋₊ + 1, ?_, ?_⟩
  · apply precedes_of_lt
    push_cast
    exact habove
  · apply precedes_of_lt
    push_cast
    linarith

/-- The exponent of ten where the search starts, but for the step above it. -/
def tenPlace (interval : RoundingInterval) : ℤ :=
  interval.place * 30103 / 100000

theorem place_mem (hinterval : interval.Searchable) :
    -100000 ≤ interval.place ∧ interval.place ≤ interval.exponent + 55 ∧
      interval.place ≤ 100000 := by
  have hpositive := hinterval.lower_lt
  have hdigits : interval.value.log2 < 55 := (Nat.log2_lt (by omega)).mpr hinterval.value_lt
  have hexponent := hinterval.exponent_le
  unfold place
  omega

theorem ten_zpow_tenPlace_le (hinterval : interval.Searchable) :
    (10 : ℚ) ^ interval.tenPlace ≤ 2 ^ (interval.place + 1) := by
  obtain ⟨-, -, hplace⟩ := place_mem hinterval
  refine @ten_zpow_le 30103 100000 _ _ two_pow_le_ten_pow_le.1 two_pow_le_ten_pow_le.2
    (by decide) (by exact_mod_cast hplace) ?_
  unfold tenPlace
  push_cast
  omega

theorem two_zpow_place_le (hinterval : interval.Searchable) :
    (2 : ℚ) ^ (interval.place - 1) ≤ 10 ^ (interval.tenPlace + 1) := by
  obtain ⟨hplace, -, -⟩ := place_mem hinterval
  refine @two_zpow_le 30103 100000 _ _ two_pow_le_ten_pow_le.1 two_pow_le_ten_pow_le.2
    (by decide) (by exact_mod_cast hplace) ?_
  unfold tenPlace
  push_cast
  omega

/-- A grid above the first one of the search has no point in the interval. -/
theorem exponent_le_of_contains (hinterval : interval.Searchable) {decimal : Decimal}
    (hcontains : interval.Contains decimal.toRat) : decimal.exponent ≤ interval.tenPlace + 1 := by
  by_contra hcoarse
  have hdigits : (1 : ℚ) ≤ decimal.digits := by
    have hpositive := hcontains.pos hinterval
    have hnonzero : decimal.digits ≠ 0 := by
      intro hzero
      rw [Decimal.toRat, hzero, Nat.cast_zero, zero_mul] at hpositive
      exact lt_irrefl _ hpositive
    exact_mod_cast Nat.one_le_iff_ne_zero.mpr hnonzero
  have hpoint : (10 : ℚ) ^ (interval.tenPlace + 1 + 1) ≤ decimal.toRat := by
    calc
      (10 : ℚ) ^ (interval.tenPlace + 1 + 1) ≤ 10 ^ decimal.exponent :=
        zpow_le_zpow_right₀ (by norm_num) (by omega)
      _ ≤ decimal.toRat := le_mul_of_one_le_left (by positivity) hdigits
  have hvalue : (2 : ℚ) ^ (interval.place + 1) = 4 * 2 ^ (interval.place - 1) := by
    rw [two_zpow_quarter]
    congr 2
    ring
  have hbound := hcontains.le hinterval
  have hpower := two_zpow_place_le hinterval
  have hpositive : (0 : ℚ) < 10 ^ (interval.tenPlace + 1) := by positivity
  rw [zpow_add_one₀ (by norm_num)] at hpoint
  linarith

/-- The last grid of the search is finer than the interval is wide. -/
theorem ten_zpow_lt (hinterval : interval.Searchable) :
    (10 : ℚ) ^ (interval.tenPlace - 18) < 3 * 2 ^ interval.exponent := by
  obtain ⟨-, hplace, -⟩ := place_mem hinterval
  have hpositive : (0 : ℚ) < 2 ^ interval.exponent := by positivity
  have hpower : (10 : ℚ) ^ interval.tenPlace ≤ 2 ^ 56 * 2 ^ interval.exponent := by
    rw [← FloatFormat.two_zpow_add]
    apply (ten_zpow_tenPlace_le hinterval).trans
    apply zpow_le_zpow_right₀ (by norm_num)
    push_cast
    omega
  rw [zpow_sub₀ (by norm_num), div_lt_iff₀ (by positivity)]
  norm_num at hpower ⊢
  linarith

/-- The search finds the shortest decimal of the interval. -/
theorem isShortest_shortest (hinterval : interval.Searchable) :
    interval.IsShortest interval.shortest := by
  obtain ⟨point, hpoint⟩ := exists_contains hinterval (ten_zpow_lt hinterval)
  obtain ⟨hnearest, hcoarsest⟩ := @firstGrid_spec interval hinterval point _ hpoint 20
    (interval.tenPlace + 1) (by omega) (by push_cast; omega)
  exact ⟨hnearest, fun other hother =>
    hcoarsest other hother (exponent_le_of_contains hinterval hother)⟩

/-- No decimal of the interval has fewer digits than the shortest one, or else a power of ten would
be between the two. -/
theorem IsShortest.length_le {decimal other : Decimal} (hshortest : interval.IsShortest decimal)
    (hother : interval.Contains other.toRat) :
    (Nat.toDigits 10 decimal.digits).length ≤ (Nat.toDigits 10 other.digits).length := by
  by_contra hlonger
  generalize hcount : (Nat.toDigits 10 other.digits).length = count at hlonger
  have hpositive : 0 < count := hcount ▸ Nat.length_toDigits_pos
  have hfew : other.digits < 10 ^ count :=
    (Nat.length_toDigits_le_iff (by decide) hpositive).mp hcount.le
  have hmany : 10 ^ count ≤ decimal.digits := by
    rw [Nat.length_toDigits_le_iff (by decide) hpositive] at hlonger
    exact not_lt.mp hlonger
  have hpower : (⟨1, decimal.exponent + count⟩ : Decimal).toRat
      = 10 ^ count * 10 ^ decimal.exponent := by
    rw [Decimal.toRat, zpow_add₀ (by norm_num), zpow_natCast]
    push_cast
    ring
  have hbetween : interval.Contains (⟨1, decimal.exponent + count⟩ : Decimal).toRat := by
    apply hother.between hshortest.contains
    · rw [hpower, Decimal.toRat]
      apply mul_le_mul
      · exact_mod_cast hfew.le
      · exact zpow_le_zpow_right₀ (by norm_num) (hshortest.coarsest other hother)
      · positivity
      · positivity
    · rw [hpower, Decimal.toRat]
      apply mul_le_mul_of_nonneg_right _ (by positivity)
      exact_mod_cast hmany
  have hexponent := hshortest.coarsest _ hbetween
  dsimp only at hexponent
  omega

/-- The digits of the shortest decimal do not end with a zero. -/
theorem IsShortest.digits_mod_ten {decimal : Decimal} (hshortest : interval.IsShortest decimal) :
    decimal.digits % 10 ≠ 0 := by
  intro hzero
  have hsame : (⟨decimal.digits / 10, decimal.exponent + 1⟩ : Decimal).toRat = decimal.toRat := by
    have hparts : ((decimal.digits / 10 * 10 : ℕ) : ℚ) = decimal.digits := by
      rw [Nat.div_mul_cancel (Nat.dvd_of_mod_eq_zero hzero)]
    rw [Decimal.toRat, Decimal.toRat, zpow_add_one₀ (by norm_num), ← hparts]
    push_cast
    ring
  have hexponent := hshortest.coarsest _ (hsame ▸ hshortest.contains)
  dsimp only at hexponent
  omega

end RoundingInterval

namespace FloatFormat

/-- A decimal that is read as a code with as few digits as possible and is as near to the value of
the code as the others of its grid. -/
structure Shortest (format : FloatFormat) (code : ℕ) (decimal : Decimal) : Prop where
  readAs : format.ReadAs code decimal.toRat
  digits_mod_ten : decimal.digits % 10 ≠ 0
  length_le : ∀ other : Decimal, format.ReadAs code other.toRat →
    (Nat.toDigits 10 decimal.digits).length ≤ (Nat.toDigits 10 other.digits).length
  nearest : ∀ point : ℕ, format.ReadAs code (point * 10 ^ decimal.exponent) →
    |decimal.toRat - format.codeValue code|
      ≤ |point * 10 ^ decimal.exponent - format.codeValue code|

theorem shortest_ofCode {format : FloatFormat} {code : ℕ} (hcode : 0 < code)
    (hfinite : code < format.infinityCode) :
    format.Shortest code (RoundingInterval.ofCode format code).shortest := by
  have hcontains {real : ℚ} := @RoundingInterval.contains_ofCode_iff format code hcode hfinite real
  have hshortest := RoundingInterval.isShortest_shortest
    (RoundingInterval.searchable_ofCode hcode hfinite)
  refine ⟨hcontains.mp hshortest.contains, hshortest.digits_mod_ten,
    fun other hother => hshortest.length_le (hcontains.mpr hother), fun point hpoint => ?_⟩
  rw [← RoundingInterval.center_ofCode]
  exact hshortest.nearest point (hcontains.mpr hpoint)

/-- The shortest decimal of a whole number that is not too large is made of its own digits, without
the zeros at the end. -/
theorem shortest_natCast {format : FloatFormat} {code value : ℕ} (hcode : 0 < code)
    (hfinite : code < format.infinityCode) (hvalue : format.codeValue code = value)
    (hsmall : value < 2 ^ (format.fractionBits + 1)) :
    ∃ digits count : ℕ, (RoundingInterval.ofCode format code).shortest = ⟨digits, count⟩ ∧
      10 ^ count * digits = value := by
  have hinterval := RoundingInterval.searchable_ofCode hcode hfinite
  have hshortest := RoundingInterval.isShortest_shortest hinterval
  have hcenter := RoundingInterval.contains_center hinterval
  rw [RoundingInterval.center_ofCode, hvalue] at hcenter
  generalize (RoundingInterval.ofCode format code).shortest = decimal at hshortest
  have hwhole := hshortest.coarsest ⟨value, 0⟩ (by simpa [Decimal.toRat] using hcenter)
  obtain ⟨digits, exponent⟩ := decimal
  obtain ⟨count, rfl⟩ := Int.eq_ofNat_of_zero_le hwhole
  refine ⟨digits, count, rfl, ReadAs.eq_natCast hcode hfinite hvalue hsmall ?_⟩
  rw [← RoundingInterval.contains_ofCode_iff _ hcode hfinite]
  convert hshortest.contains using 1
  simp only [Decimal.toRat]
  push_cast
  rw [zpow_natCast, mul_comm]

end FloatFormat

end GraphWire

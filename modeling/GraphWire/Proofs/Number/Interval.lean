import GraphWire.Number.Decimal
import GraphWire.Proofs.Number.Words

/-!
# Intervals of rounding

A real number is read as the nearest value of a format, and the midpoint between two values as the
even one.  So the reals that are read as one value lie between the midpoints to its neighbours
(`RoundingInterval.contains_ofCode_iff`).  Both neighbours are one unit in the last place away,
except that below a power of two the units are half as large.
-/

namespace GraphWire

/-! ## Order with and without ties -/

/-- The order that lets two equal numbers pass when ties are allowed. -/
def Precedes (ties : Bool) (left right : ℚ) : Prop :=
  if ties then left ≤ right else left < right

section

variable {ties : Bool} {real left right : ℚ}

theorem Precedes.le (hprecedes : Precedes ties left right) : left ≤ right := by
  unfold Precedes at hprecedes
  split_ifs at hprecedes
  · exact hprecedes
  · exact hprecedes.le

theorem precedes_of_lt (hless : left < right) : Precedes ties left right := by
  unfold Precedes
  split_ifs
  · exact hless.le
  · exact hless

theorem Precedes.trans_le {other : ℚ} (hprecedes : Precedes ties left right)
    (hle : right ≤ other) : Precedes ties left other := by
  unfold Precedes at *
  split_ifs at *
  · exact hprecedes.trans hle
  · exact hprecedes.trans_le hle

theorem Precedes.of_le {other : ℚ} (hle : other ≤ left) (hprecedes : Precedes ties left right) :
    Precedes ties other right := by
  unfold Precedes at *
  split_ifs at *
  · exact hle.trans hprecedes
  · exact hle.trans_lt hprecedes

theorem precedes_mul_iff {factor : ℚ} (hfactor : 0 < factor) :
    Precedes ties (factor * left) (factor * right) ↔ Precedes ties left right := by
  unfold Precedes
  rw [mul_le_mul_iff_right₀ hfactor, mul_lt_mul_iff_right₀ hfactor]

theorem precedes_sub_iff : Precedes ties 0 (right - left) ↔ Precedes ties left right := by
  unfold Precedes
  rw [sub_nonneg, sub_pos]

theorem precedes_abs_iff : Precedes ties |real - left| |real - right| ↔
    Precedes ties 0 ((right - left) * (left + right - 2 * real)) := by
  have hproduct : (right - left) * (left + right - 2 * real)
      = (real - right) ^ 2 - (real - left) ^ 2 := by ring
  rw [hproduct, precedes_sub_iff]
  unfold Precedes
  rw [sq_le_sq, sq_lt_sq]

/-- Of two reals the left one is nearer to all that come before the midpoint. -/
theorem precedes_abs_left_iff (hless : left < right) :
    Precedes ties |real - left| |real - right| ↔ Precedes ties (2 * real) (left + right) := by
  rw [precedes_abs_iff, ← mul_zero (right - left), precedes_mul_iff (sub_pos.mpr hless),
    precedes_sub_iff]

theorem precedes_abs_right_iff (hless : left < right) :
    Precedes ties |real - right| |real - left| ↔ Precedes ties (left + right) (2 * real) := by
  have hproduct : (left - right) * (right + left - 2 * real)
      = (right - left) * (2 * real - (left + right)) := by ring
  rw [precedes_abs_iff, hproduct, ← mul_zero (right - left), precedes_mul_iff (sub_pos.mpr hless),
    precedes_sub_iff]

end

namespace FloatFormat

/-! ## Neighbouring values -/

variable (format : FloatFormat)

/-- Below a power of two the units are half as large, unless they are the smallest already. -/
theorem unpackCode_pred {code : ℕ} (hcode : 0 < code) :
    (format.unpackCode (code - 1)).2 = (format.unpackCode code).2
      - (if code % 2 ^ format.fractionBits = 0 ∧ 2 * 2 ^ format.fractionBits ≤ code
          then 1 else 0) := by
  have hweight : 0 < 2 ^ format.fractionBits := Nat.two_pow_pos _
  have hparts := Nat.div_add_mod' code (2 ^ format.fractionBits)
  have hfraction : code % 2 ^ format.fractionBits < 2 ^ format.fractionBits := Nat.mod_lt _ hweight
  unfold unpackCode
  generalize code / 2 ^ format.fractionBits = exponent at *
  generalize code % 2 ^ format.fractionBits = fraction at *
  generalize 2 ^ format.fractionBits = weight at *
  by_cases hzero : fraction = 0
  · subst hzero
    obtain ⟨before, rfl⟩ : ∃ before, exponent = before + 1 := by
      refine Nat.exists_eq_succ_of_ne_zero ?_
      rintro rfl
      omega
    have hpred : (code - 1) / weight = before := by
      apply Nat.div_eq_of_lt_le
      · rw [Nat.succ_mul] at hparts
        omega
      · omega
    have hdouble : 2 * weight ≤ code ↔ 1 ≤ before := by
      rw [← hparts, Nat.add_zero, Nat.mul_le_mul_right_iff hweight]
      omega
    simp only [hpred, hdouble, Nat.succ_ne_zero, if_false, true_and, Nat.add_sub_cancel]
    rcases Nat.eq_zero_or_pos before with rfl | hpositive
    · simp
    · rw [if_neg hpositive.ne', if_pos (Nat.succ_le_of_lt hpositive)]
      dsimp only
      omega
  · have hpred : (code - 1) / weight = exponent := by
      apply Nat.div_eq_of_lt_le
      · omega
      · rw [Nat.succ_mul]
        omega
    simp only [hpred, hzero, false_and, if_false, sub_zero]
    split_ifs <;> rfl

/-- A real number is read as a code when every other value is farther away, or, if the code is even,
not nearer.  One of the other values is that past the greatest finite one. -/
def ReadAs (code : ℕ) (real : ℚ) : Prop :=
  ∀ other ≤ format.infinityCode, other ≠ code →
    Precedes (code % 2 = 0) |real - format.codeValue code| |real - format.codeValue other|

/-! ## Whole numbers -/

section

variable {format} {code value : ℕ}

/-- Values below `2 ^ (fractionBits + 1)` are at most one apart. -/
theorem unpackCode_nonpos (hvalue : format.codeValue code < 2 ^ (format.fractionBits + 1)) :
    (format.unpackCode code).2 ≤ 0 := by
  by_contra hpositive
  have hleast : format.leastExponent ≤ 0 := by cases format <;> decide
  obtain ⟨places, hplace, -, hfull⟩ := format.code_eq code
  have hdigits : 2 ^ format.fractionBits ≤ (format.unpackCode code).1 := by omega
  have hscale : (2 : ℚ) ^ (1 : ℤ) ≤ 2 ^ (format.unpackCode code).2 :=
    zpow_le_zpow_right₀ (by norm_num) (by omega)
  have hlarge : (2 : ℚ) ^ (format.fractionBits + 1) ≤ format.codeValue code := by
    rw [pow_succ, codeValue]
    apply mul_le_mul
    · exact_mod_cast hdigits
    · exact_mod_cast hscale
    · positivity
    · positivity
  linarith

/-- Of the whole numbers only the value of a code is read as the code, below the same bound. -/
theorem ReadAs.eq_natCast {other : ℕ} (hcode : 0 < code) (hfinite : code < format.infinityCode)
    (hvalue : format.codeValue code = value) (hsmall : value < 2 ^ (format.fractionBits + 1))
    (hread : format.ReadAs code other) : other = value := by
  have hmono := format.codeValue_strictMono
  have hpred : code - 1 < code := Nat.sub_lt hcode one_pos
  have hbound : format.codeValue code < 2 ^ (format.fractionBits + 1) := by
    rw [hvalue]
    exact_mod_cast hsmall
  have hbelow := ((precedes_abs_right_iff (hmono hpred)).mp
    (hread (code - 1) (by omega) hpred.ne)).le
  have habove := ((precedes_abs_left_iff (hmono code.lt_succ_self)).mp
    (hread (code + 1) hfinite code.succ_ne_self)).le
  have hnext := format.codeValue_succ code
  have hprevious := format.codeValue_succ (code - 1)
  rw [Nat.sub_add_cancel hcode] at hprevious
  have hunit : (2 : ℚ) ^ (format.unpackCode code).2 ≤ 1 :=
    zpow_le_one_of_nonpos₀ (by norm_num) (unpackCode_nonpos hbound)
  have hunit' : (2 : ℚ) ^ (format.unpackCode (code - 1)).2 ≤ 1 :=
    zpow_le_one_of_nonpos₀ (by norm_num) (unpackCode_nonpos ((hmono hpred).trans hbound))
  have hlow : (2 * value : ℚ) ≤ 2 * other + 1 := by linarith
  have hhigh : (2 * other : ℚ) ≤ 2 * value + 1 := by linarith
  have hlow' : 2 * value ≤ 2 * other + 1 := by exact_mod_cast hlow
  have hhigh' : 2 * other ≤ 2 * value + 1 := by exact_mod_cast hhigh
  omega

end

end FloatFormat

namespace RoundingInterval

/-! ## The interval of a code -/

/-- The value that the interval is about. -/
def center (interval : RoundingInterval) : ℚ :=
  interval.value * 2 ^ interval.exponent

def Contains (interval : RoundingInterval) (real : ℚ) : Prop :=
  Precedes interval.closed (interval.lower * 2 ^ interval.exponent) real ∧
    Precedes interval.closed real (interval.upper * 2 ^ interval.exponent)

/-- All reals between two of an interval belong to it. -/
theorem Contains.between {interval : RoundingInterval} {least real most : ℚ}
    (hleast : interval.Contains least) (hmost : interval.Contains most) (hlow : least ≤ real)
    (hhigh : real ≤ most) : interval.Contains real :=
  ⟨hleast.1.trans_le hlow, hmost.2.of_le hhigh⟩

/-- The units of the interval are quarters of the last place. -/
theorem two_zpow_quarter (exponent : ℤ) : (2 : ℚ) ^ exponent = 4 * 2 ^ (exponent - 2) := by
  have hsplit := FloatFormat.two_zpow_add (exponent - 2) 2
  rw [Nat.cast_ofNat, sub_add_cancel] at hsplit
  rw [hsplit]
  norm_num

variable (format : FloatFormat) {code : ℕ}

theorem center_ofCode (code : ℕ) : (ofCode format code).center = format.codeValue code := by
  simp only [center, ofCode, FloatFormat.codeValue]
  rw [two_zpow_quarter (format.unpackCode code).2]
  push_cast
  ring

theorem upper_ofCode (code : ℕ) :
    2 * ((ofCode format code).upper * (2 : ℚ) ^ (ofCode format code).exponent)
      = format.codeValue code + format.codeValue (code + 1) := by
  rw [FloatFormat.codeValue_succ, ← center_ofCode]
  simp only [center, ofCode]
  rw [two_zpow_quarter (format.unpackCode code).2]
  push_cast
  ring

theorem significand_pos (hcode : 0 < code) : 0 < (format.unpackCode code).1 := by
  obtain ⟨places, -, hsplit, hfull⟩ := format.code_eq code
  have hweight : 0 < 2 ^ format.fractionBits := Nat.two_pow_pos _
  rcases hfull with rfl | hfull
  · omega
  · omega

theorem lower_ofCode (hcode : 0 < code) :
    2 * ((ofCode format code).lower * (2 : ℚ) ^ (ofCode format code).exponent)
      = format.codeValue (code - 1) + format.codeValue code := by
  have hpositive := significand_pos format hcode
  have hstep := format.codeValue_succ (code - 1)
  rw [Nat.sub_add_cancel hcode, format.unpackCode_pred hcode] at hstep
  have hcenter := center_ofCode format code
  simp only [center, ofCode] at hcenter ⊢
  rw [eq_sub_of_add_eq hstep.symm, ← hcenter]
  split_ifs
  · have hhalf := FloatFormat.two_zpow_add ((format.unpackCode code).2 - 2) 1
    have hexponent : (format.unpackCode code).2 - 2 + (1 : ℕ) = (format.unpackCode code).2 - 1 := by
      push_cast
      ring
    rw [← hexponent, hhalf, Nat.cast_sub (by omega)]
    push_cast
    ring
  · rw [sub_zero, two_zpow_quarter (format.unpackCode code).2, Nat.cast_sub (by omega)]
    push_cast
    ring

theorem closed_ofCode (code : ℕ) : (ofCode format code).closed = decide (code % 2 = 0) := by
  obtain ⟨places, -, hsplit, -⟩ := format.code_eq code
  have heven : places * 2 ^ format.fractionBits % 2 = 0 := by
    apply Nat.mod_eq_zero_of_dvd
    apply Dvd.dvd.mul_left
    apply dvd_pow_self
    cases format <;> decide
  simp only [ofCode, beq_eq_decide]
  congr 2
  omega

/-- The interval of a code holds the real numbers that are read as the code. -/
theorem contains_ofCode_iff (hcode : 0 < code) (hfinite : code < format.infinityCode) {real : ℚ} :
    (ofCode format code).Contains real ↔ format.ReadAs code real := by
  have hmono := format.codeValue_strictMono
  unfold Contains FloatFormat.ReadAs
  rw [closed_ofCode, ← precedes_mul_iff two_pos, ← @precedes_mul_iff _ real _ _ two_pos,
    lower_ofCode format hcode, upper_ofCode]
  constructor
  · rintro ⟨hlow, hhigh⟩ other - hdiffers
    rcases lt_or_gt_of_ne hdiffers with hless | hgreater
    · rw [precedes_abs_right_iff (hmono hless)]
      exact hlow.of_le (add_le_add_left (hmono.monotone (Nat.le_sub_one_of_lt hless)) _)
    · rw [precedes_abs_left_iff (hmono hgreater)]
      exact hhigh.trans_le (add_le_add_right (hmono.monotone hgreater) _)
  · intro hread
    have hbelow := hread (code - 1) (by omega) (by omega)
    have habove := hread (code + 1) (by omega) (by omega)
    rw [precedes_abs_right_iff (hmono (by omega))] at hbelow
    rw [precedes_abs_left_iff (hmono (by omega))] at habove
    exact ⟨hbelow, habove⟩

end RoundingInterval

end GraphWire

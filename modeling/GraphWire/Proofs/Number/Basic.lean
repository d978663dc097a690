import GraphWire.Number.Basic
import Mathlib.Algebra.Order.Ring.Int
import Mathlib.Algebra.Order.Ring.Rat
import Mathlib.Data.Nat.Notation

/-!
# Integers among the numbers

A number that equals an integer is the image of that integer or the negative zero, so whatever looks
at values alone can be computed with integers.
-/

namespace GraphWire.Number

/-- A number that equals an integer is that integer, up to the sign of a zero. -/
theorem eq_ofInt_of_toInt? {number : Number} {value : ℤ}
    (hvalue : number.toInt? = some value) :
    number = .ofInt value ∨ number = .negativeZero ∧ value = 0 := by
  cases number with
  | nan => simp [toInt?] at hvalue
  | infinity negative => simp [toInt?] at hvalue
  | negativeZero =>
      right
      simpa [toInt?, eq_comm] using hvalue
  | finite dyadic =>
      left
      cases dyadic with
      | zero =>
          obtain rfl : (0 : ℤ) = value := by simpa [toInt?] using hvalue
          rfl
      | ofOdd odd precision hodd =>
          simp only [toInt?, Option.ite_none_right_eq_some, Option.some.injEq] at hvalue
          obtain ⟨hwhole, rfl⟩ := hvalue
          have hprecision : (0 : ℤ) = precision + ((-precision).toNat : ℤ) := by omega
          have hshift := Dyadic.ofIntWithPrec_shiftLeft_add (x := odd) (i := precision)
            (n := (-precision).toNat)
          rw [← hprecision, Int.shiftLeft_eq] at hshift
          rw [ofInt, Dyadic.ofInt, Dyadic.ofOdd_eq_ofIntWithPrec, hshift]

theorem toInt?_of_toNat? {number : Number} {value : ℕ} (hvalue : number.toNat? = some value) :
    number.toInt? = some (value : ℤ) := by
  unfold toNat? at hvalue
  split at hvalue
  · next integer hinteger =>
      rw [Option.ite_none_right_eq_some, Option.some.injEq] at hvalue
      rw [hinteger]
      congr
      omega
  · cases hvalue

/-- A number that is equal to an integer equals it. -/
theorem toInt?_of_equals {number : Number} {value : ℤ}
    (hequal : number.equals (ofInt value) = true) : number.toInt? = some value := by
  rw [equals, Bool.and_eq_true, beq_iff_eq, unsignedZero_ofInt] at hequal
  obtain ⟨hnumber, hvalue⟩ := hequal
  cases number with
  | nan => exact absurd rfl (of_decide_eq_true hnumber)
  | infinity negative => cases hvalue
  | negativeZero =>
      obtain rfl : 0 = value := ofInt_injective hvalue
      rfl
  | finite dyadic =>
      change finite dyadic = _ at hvalue
      rw [hvalue, toInt?_ofInt]

/-- A number that equals zero is one of the two zeros. -/
theorem toInt?_of_equals_zero {number : Number} (hzero : number.equals 0 = true) :
    number.toInt? = some 0 :=
  toInt?_of_equals hzero

/-- A number that is equal to an integer equals what that integer equals. -/
theorem equals_of_toInt? {number : Number} {value : ℤ} (hvalue : number.toInt? = some value)
    (other : Number) : number.equals other = (ofInt value).equals other := by
  rcases eq_ofInt_of_toInt? hvalue with rfl | ⟨rfl, rfl⟩
  · rfl
  · rfl

/-- A number is equal to a natural number if it equals it. -/
theorem equals_natCast (number : Number) (value : ℕ) :
    number.equals (value : Number) = true ↔ number.toNat? = some value := by
  constructor
  · intro hequal
    rw [toNat?, toInt?_of_equals hequal]
    rfl
  · intro hvalue
    rw [equals_of_toInt? (toInt?_of_toNat? hvalue)]
    change (ofInt value).equals (ofInt value) = true
    rw [equals_ofInt, decide_eq_true rfl]

/-- An alignment that has been noted is not noted again. -/
theorem max_max_natCast (number : Number) (width : ℕ) :
    max (max number (width : Number)) (width : Number) = max number (width : Number) := by
  have hself : (width : Number).below (width : Number) = false := by
    change (ofInt width).below (ofInt width) = false
    simp
  change (if (if number.below width then (width : Number) else number).below width then _ else _)
    = _
  by_cases hbelow : number.below width = true
  · rw [if_pos hbelow, hself]
    rfl
  · rw [if_neg hbelow, if_neg hbelow]

/-- What is above a natural number is above every smaller one. -/
theorem below_of_le {number : Number} {least most : ℕ} (hle : least ≤ most)
    (hbelow : below most number = true) : below least number = true := by
  change below (ofInt most) number = true at hbelow
  change below (ofInt least) number = true
  simp only [below, unsignedZero_ofInt] at hbelow ⊢
  cases hnumber : number.unsignedZero with
  | nan =>
      rw [hnumber] at hbelow
      cases hbelow
  | infinity negative =>
      rw [hnumber] at hbelow
      exact hbelow
  | negativeZero =>
      rw [hnumber] at hbelow
      cases hbelow
  | finite value =>
      rw [hnumber] at hbelow
      have hvalue (natural : ℕ) : (Dyadic.ofInt natural).toRat = (natural : ℤ) :=
        Dyadic.toRat_intCast natural
      have hmost : Dyadic.ofInt most < value := of_decide_eq_true hbelow
      have hleast : Dyadic.ofInt least < value := by
        rw [← Dyadic.toRat_lt_toRat_iff, hvalue] at hmost ⊢
        exact lt_of_le_of_lt (by exact_mod_cast hle) hmost
      exact decide_eq_true hleast

end GraphWire.Number


/-!
# Numbers

Every numeric input of the library, whether a field value, a slot or a position, is one kind of
number: a dyadic rational, a zero that remembers its minus sign, one of the two infinities, or
not-a-number.  These are the values that a binary floating-point format can hold, kept exactly, so
rounding happens only where a format is named (`GraphWire.Number.Format`).

An integer is the image of `Number.ofInt`, and `Number.toInt?` recovers it; the two lemmas
`toInt?_ofInt` and `toNat?_ofNat` are all that the reader and the builder need to know about the
representation.
-/

namespace GraphWire

-- Powers are those of the core library, also where another power is in scope.
attribute [local instance (high)] instPowNat

/-- A value that a binary floating-point format can hold, without a bound on its precision. -/
inductive Number where
  /-- The result of an operation without a numeric value. -/
  | nan
  /-- One of the two infinities. -/
  | infinity (negative : Bool)
  /-- Zero with a minus sign; the plain zero is `finite 0`. -/
  | negativeZero
  /-- A dyadic rational. -/
  | finite (value : Dyadic)
deriving DecidableEq

namespace Number

/-! ## Integers among the numbers -/

def ofInt (value : Int) : Number :=
  .finite (Dyadic.ofInt value)

instance : IntCast Number := ⟨ofInt⟩
instance : NatCast Number := ⟨fun value => ofInt value⟩
instance {value : Nat} : OfNat Number value := ⟨ofInt value⟩

/-- The integer that a number equals, if there is one.  Both zeros equal the integer zero. -/
def toInt? : Number → Option Int
  | negativeZero => some 0
  | finite .zero => some 0
  | finite (.ofOdd odd precision _) =>
      if precision ≤ 0 then some (odd * 2 ^ (-precision).toNat) else none
  | _ => none

def toNat? (number : Number) : Option Nat :=
  match number.toInt? with
  | some value => if 0 ≤ value then some value.toNat else none
  | none => none

@[simp]
theorem toInt?_ofInt (value : Int) : (ofInt value).toInt? = some value := by
  unfold ofInt Dyadic.ofInt Dyadic.ofIntWithPrec
  split
  · simp_all [toInt?]
  · next hnonzero =>
    have hdivides := Int.two_pow_trailingZeros_dvd hnonzero
    have hcancel := Int.ediv_mul_cancel hdivides
    simp only [toInt?]
    rw [if_pos (by omega)]
    simp only [Int.zero_sub, Int.neg_neg, Int.toNat_natCast]
    rw [Int.shiftRight_eq_div_pow]
    simpa using hcancel

@[simp]
theorem toNat?_ofNat (value : Nat) : (ofInt (value : Int)).toNat? = some value := by
  simp [toNat?]

@[simp]
theorem toInt?_natCast (value : Nat) : (value : Number).toInt? = some (value : Int) :=
  toInt?_ofInt value

@[simp]
theorem toNat?_natCast (value : Nat) : (value : Number).toNat? = some value :=
  toNat?_ofNat value

@[simp]
theorem toInt?_literal (value : Nat) : (OfNat.ofNat value : Number).toInt? = some (value : Int) :=
  toInt?_ofInt value

@[simp]
theorem toNat?_literal (value : Nat) : (OfNat.ofNat value : Number).toNat? = some value :=
  toNat?_ofNat value

theorem ofInt_injective {left right : Int} (hequal : ofInt left = ofInt right) : left = right := by
  have hvalues := congrArg toInt? hequal
  simpa using hvalues

/-! ## Sign, equality and order -/

def unsignedZero : Number → Number
  | negativeZero => finite 0
  | number => number

/-- Whether the number carries a minus sign.  Not-a-number carries none. -/
def isNegative : Number → Bool
  | nan => false
  | infinity negative => negative
  | negativeZero => true
  | finite value => value < 0

/-- Numeric equality: the two zeros are equal, and not-a-number equals nothing, itself included. -/
def equals (left right : Number) : Bool :=
  left ≠ nan && left.unsignedZero == right.unsignedZero

/-- Numeric order.  Not-a-number is neither below nor above anything. -/
def below (left right : Number) : Bool :=
  match left.unsignedZero, right.unsignedZero with
  | finite first, finite second => first < second
  | finite _, infinity negative => !negative
  | infinity negative, finite _ => negative
  | infinity first, infinity second => first && !second
  | _, _ => false

/-- Numeric order or equality, so again false for not-a-number. -/
def atMost (left right : Number) : Bool :=
  left.below right || left.equals right

/-- The greater of two numbers, and the first of two when the second is not above it. -/
instance : Max Number := ⟨fun left right => if left.below right then right else left⟩

@[simp]
theorem unsignedZero_ofInt (value : Int) : (ofInt value).unsignedZero = ofInt value := rfl

@[simp]
theorem ofInt_inj {left right : Int} : ofInt left = ofInt right ↔ left = right :=
  ⟨ofInt_injective, fun hequal => hequal ▸ rfl⟩

@[simp]
theorem ofInt_ne_nan (value : Int) : ofInt value ≠ nan := Number.noConfusion

@[simp]
theorem equals_ofInt (left right : Int) :
    (ofInt left).equals (ofInt right) = decide (left = right) := by
  simp only [equals, unsignedZero_ofInt, ne_eq, ofInt_ne_nan, not_false_eq_true, decide_true,
    Bool.true_and, Bool.beq_eq_decide_eq, ofInt_inj]

@[simp]
theorem below_ofInt (left right : Int) :
    (ofInt left).below (ofInt right) = decide (left < right) := by
  have horder : Dyadic.ofInt left < Dyadic.ofInt right ↔ left < right := by
    have hexact (value : Int) : (Dyadic.ofInt value).toRat = value := Dyadic.toRat_intCast value
    rw [← Dyadic.toRat_lt_toRat_iff, hexact, hexact, Rat.intCast_lt_intCast]
  exact decide_eq_decide.mpr horder

@[simp]
theorem max_natCast (left right : Nat) :
    max (left : Number) (right : Number) = (max left right : Nat) := by
  change (if (ofInt left).below (ofInt right) then ofInt right else ofInt left) =
    ofInt (max left right : Nat)
  rw [below_ofInt]
  by_cases horder : left < right
  · simp [horder, Nat.max_eq_right (Nat.le_of_lt horder)]
  · simp [horder, Nat.max_eq_left (Nat.le_of_not_lt horder)]

/-! ## Whole parts -/

/-- The integer part of a number, its fraction dropped.  A number that is not finite has none and
counts as zero. -/
def truncated : Number → Int
  | finite (.ofOdd odd precision _) =>
      if precision ≤ 0 then odd * 2 ^ (-precision).toNat else odd.tdiv (2 ^ precision.toNat)
  | _ => 0

/-- The least integer that is not below a finite number. -/
def ceiling : Number → Int
  | finite (.ofOdd odd precision _) =>
      if precision ≤ 0 then odd * 2 ^ (-precision).toNat else -(-odd / 2 ^ precision.toNat)
  | _ => 0

/-- A number that equals an integer is its own integer part. -/
theorem truncated_eq {number : Number} {value : Int} (hequal : number.toInt? = some value) :
    number.truncated = value := by
  unfold toInt? at hequal
  unfold truncated
  split at hequal <;> simp_all

theorem ceiling_eq {number : Number} {value : Int} (hequal : number.toInt? = some value) :
    number.ceiling = value := by
  unfold toInt? at hequal
  unfold ceiling
  split at hequal <;> simp_all

@[simp]
theorem truncated_ofInt (value : Int) : (ofInt value).truncated = value :=
  truncated_eq (toInt?_ofInt value)

@[simp]
theorem ceiling_ofInt (value : Int) : (ofInt value).ceiling = value :=
  ceiling_eq (toInt?_ofInt value)

end Number

end GraphWire

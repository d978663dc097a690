import GraphWire.Number.Basic

/-!
# Binary interchange formats

A format stores a number as a sign bit above a magnitude code.  The codes of the nonnegative finite
values are the natural numbers below `infinityCode`, in the order of the values, and each step from
one code to the next adds one unit in the last place.  That is why rounding needs no case for a
carry out of the significand: the carry is the step to the next code.

`FloatFormat.encode` rounds to the nearest value, a tie going to the even code, and
`FloatFormat.decode` reads a word back.
-/

namespace GraphWire

-- Powers are those of the core library, also where another power is in scope.
attribute [local instance (high)] instPowNat

/-- The binary interchange formats of the wire. -/
inductive FloatFormat where
  /-- Four bytes: eight bits of exponent and twenty-three of fraction. -/
  | binary32
  /-- Eight bytes: eleven bits of exponent and fifty-two of fraction. -/
  | binary64
deriving DecidableEq, Repr

/-- The quotient of two natural numbers, rounded to the nearest integer with ties to even. -/
def roundHalfEven (dividend divisor : Nat) : Nat :=
  let quotient := dividend / divisor
  let remainder := dividend % divisor
  if 2 * remainder < divisor then quotient
  else if divisor < 2 * remainder then quotient + 1
  else quotient + quotient % 2

namespace FloatFormat

def exponentBits : FloatFormat → Nat
  | binary32 => 8
  | binary64 => 11

def fractionBits : FloatFormat → Nat
  | binary32 => 23
  | binary64 => 52

def width : FloatFormat → Nat
  | binary32 => 4
  | binary64 => 8

/-- The number of magnitude codes, which is also the weight of the sign bit. -/
def signWeight (format : FloatFormat) : Nat :=
  2 ^ (format.exponentBits + format.fractionBits)

/-- The exponent of the last place of the smallest values. -/
def leastExponent (format : FloatFormat) : Int :=
  2 - 2 ^ (format.exponentBits - 1) - format.fractionBits

/-- The magnitude code of the infinities, above the codes of all finite values. -/
def infinityCode (format : FloatFormat) : Nat :=
  (2 ^ format.exponentBits - 1) * 2 ^ format.fractionBits

/-- The magnitude code that is written for not-a-number. -/
def quietCode (format : FloatFormat) : Nat :=
  format.infinityCode + 2 ^ (format.fractionBits - 1)

/-- The code of the value nearest to `significand * 2 ^ exponent`; a value past the largest finite
one has the code of the infinity. -/
def magnitudeCode (format : FloatFormat) (significand : Nat) (exponent : Int) : Nat :=
  let lastPlace :=
    max (exponent + significand.log2 - format.fractionBits) format.leastExponent
  let units :=
    if lastPlace ≤ exponent then significand * 2 ^ (exponent - lastPlace).toNat
    else roundHalfEven significand (2 ^ (lastPlace - exponent).toNat)
  min ((lastPlace - format.leastExponent).toNat * 2 ^ format.fractionBits + units)
    format.infinityCode

/-- The word that stores the value of the format nearest to a number. -/
def encode (format : FloatFormat) : Number → Nat
  | .nan => format.quietCode
  | .infinity negative => (if negative then format.signWeight else 0) + format.infinityCode
  | .negativeZero => format.signWeight
  | .finite .zero => 0
  | .finite (.ofOdd odd precision _) =>
      (if odd < 0 then format.signWeight else 0) + format.magnitudeCode odd.natAbs (-precision)

/-- The significand and the exponent of the last place of a finite magnitude code. -/
def unpackCode (format : FloatFormat) (code : Nat) : Nat × Int :=
  let exponent := code / 2 ^ format.fractionBits
  let fraction := code % 2 ^ format.fractionBits
  if exponent = 0 then (fraction, format.leastExponent)
  else (2 ^ format.fractionBits + fraction, format.leastExponent + (exponent - 1 : Nat))

/-- The number that a word stores.  Bits above the sign bit are ignored. -/
def decode (format : FloatFormat) (word : Nat) : Number :=
  let negative := word / format.signWeight % 2 == 1
  let code := word % format.signWeight
  if format.infinityCode < code then .nan
  else if code = format.infinityCode then .infinity negative
  else if code = 0 then if negative then .negativeZero else .finite 0
  else
    let (significand, exponent) := format.unpackCode code
    let signed : Int := if negative then -significand else significand
    .finite (Dyadic.ofIntWithPrec signed (-exponent))

def round (format : FloatFormat) (number : Number) : Number :=
  format.decode (format.encode number)

end FloatFormat

end GraphWire

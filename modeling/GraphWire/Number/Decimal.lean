import GraphWire.Number.Format

/-!
# Decimal text of numbers

A message shows a number by the fewest decimal digits that read back as the same binary64 value and,
among those, the nearest to it.

All decimals with a given number of digits near a value are multiples of one power of ten, so the
search goes from coarse grids to fine ones and stops at the first grid that has a point among the
reals which round to the value.  Only the two grid points around the value can be such points
nearest to it, and everything is compared by exact integer products.
-/

namespace GraphWire

-- Powers are those of the core library, also where another power is in scope.
attribute [local instance (high)] instPowNat

/-- The nonnegative decimal `digits * 10 ^ exponent`. -/
structure Decimal where
  digits : Nat
  exponent : Int
deriving DecidableEq, Repr

/-- The reals that round to one positive value: all between `lower` and `upper`, in units of
`2 ^ exponent`, and the two ends as well when `closed` holds. -/
structure RoundingInterval where
  lower : Nat
  value : Nat
  upper : Nat
  exponent : Int
  closed : Bool
deriving Repr

namespace RoundingInterval

/-- The interval of a finite positive magnitude code.  The neighbours lie one unit in the last
place away, except that the one below a power of two lies half a unit away.  The ends belong to the
interval when the significand is even, because a tie goes to the even code. -/
def ofCode (format : FloatFormat) (code : Nat) : RoundingInterval :=
  let (significand, exponent) := format.unpackCode code
  let atPower :=
    code % 2 ^ format.fractionBits = 0 ∧ 2 * 2 ^ format.fractionBits ≤ code
  { lower := 4 * significand - (if atPower then 1 else 2)
    value := 4 * significand
    upper := 4 * significand + 2
    exponent := exponent - 2
    closed := significand % 2 == 0 }

/-- One unit of the interval, measured so that the points of the grid with step `10 ^ step` are
whole as well. -/
def unitWeight (interval : RoundingInterval) (step : Int) : Nat :=
  2 ^ interval.exponent.toNat * 10 ^ (-step).toNat

/-- One step of the grid in the same measure. -/
def stepWeight (interval : RoundingInterval) (step : Int) : Nat :=
  2 ^ (-interval.exponent).toNat * 10 ^ step.toNat

def hasPoint (interval : RoundingInterval) (step : Int) (point : Nat) : Bool :=
  let unit := interval.unitWeight step
  let position := point * interval.stepWeight step
  if interval.closed then
    interval.lower * unit ≤ position && position ≤ interval.upper * unit
  else interval.lower * unit < position && position < interval.upper * unit

/-- The grid point of step `10 ^ step` in the interval that is nearest to the value, if the grid
has a point there; of two equally near ones the even. -/
def nearestOnGrid? (interval : RoundingInterval) (step : Int) : Option Nat :=
  let center := interval.value * interval.unitWeight step
  let grid := interval.stepWeight step
  let below := center / grid
  let remainder := center % grid
  let above := below + 1
  if interval.hasPoint step below then
    if interval.hasPoint step above
        && (grid < 2 * remainder || grid == 2 * remainder && below % 2 == 1) then
      some above
    else some below
  else if interval.hasPoint step above then some above
  else none

/-- The first grid with a point in the interval, from step `10 ^ step` downwards. -/
def firstGrid (interval : RoundingInterval) : Nat → Int → Decimal
  | 0, step => ⟨0, step⟩
  | fuel + 1, step =>
      match interval.nearestOnGrid? step with
      | some digits => ⟨digits, step⟩
      | none => interval.firstGrid fuel (step - 1)

/-- The decimal with the fewest digits in the interval.  The search starts at a power of ten above
the value; seventeen digits always suffice, and the estimate of the start is less than two digits
too high. -/
def shortest (interval : RoundingInterval) : Decimal :=
  let start := (interval.exponent + interval.value.log2 + 1) * 30103 / 100000 + 1
  interval.firstGrid 20 start

end RoundingInterval

/-- How a decimal is laid out as text: positional notation when the decimal point falls at most
`leadingZeros` places before the first digit and at most `positions` places after it, and an
exponent otherwise. -/
structure DecimalLayout where
  positions : Int
  leadingZeros : Int

namespace DecimalLayout

/-- The digits with a point behind the first one, unless it is the only one. -/
def pointed : List Char → List Char
  | [] => []
  | [digit] => [digit]
  | digit :: rest => digit :: '.' :: rest

def signed (exponent : Int) : List Char :=
  (if exponent < 0 then '-' else '+') :: Nat.toDigits 10 exponent.natAbs

/-- The text of a decimal whose digits begin and end with a nonzero digit. -/
def text (layout : DecimalLayout) (decimal : Decimal) : List Char :=
  let digits := Nat.toDigits 10 decimal.digits
  let count : Int := digits.length
  let point := count + decimal.exponent
  if count ≤ point ∧ point ≤ layout.positions then
    digits ++ List.replicate (point - count).toNat '0'
  else if 0 < point ∧ point ≤ layout.positions then
    digits.take point.toNat ++ '.' :: digits.drop point.toNat
  else if -layout.leadingZeros < point ∧ point ≤ 0 then
    '0' :: '.' :: (List.replicate (-point).toNat '0' ++ digits)
  else pointed digits ++ 'e' :: signed (point - 1)

end DecimalLayout

namespace Number

/-- Messages use positional notation for magnitudes from `10 ^ -6` up to, not including,
`10 ^ 21`. -/
def messageLayout : DecimalLayout := ⟨21, 6⟩

/-- The text of a number in a message.  Both zeros are shown without a sign. -/
def text (number : Number) : String :=
  match FloatFormat.binary64.round number with
  | nan => "NaN"
  | infinity negative => if negative then "-Infinity" else "Infinity"
  | negativeZero => "0"
  | finite value =>
      let code := FloatFormat.binary64.encode (finite value) % FloatFormat.binary64.signWeight
      if code = 0 then "0"
      else
        let digits := messageLayout.text (RoundingInterval.ofCode .binary64 code).shortest
        String.ofList (if value < 0 then '-' :: digits else digits)

instance : ToString Number := ⟨text⟩

end Number

end GraphWire

import GraphWire.Number.Format

/-!
# Rounded arithmetic

Sums and products as binary64 computes them: the exact result, rounded once.  The exact result of a
sum or product of dyadic rationals is again dyadic, so each operation is one line of exact
arithmetic followed by `Number.rounded`.
-/

namespace GraphWire.Number

def rounded (value : Dyadic) : Number :=
  FloatFormat.binary64.round (.finite value)

/-- The dyadic rational of a finite number; a number that is not finite has the value zero here. -/
def finitePart : Number → Dyadic
  | finite value => value
  | _ => 0

def add (left right : Number) : Number :=
  match left, right with
  | nan, _ | _, nan => nan
  | infinity first, infinity second => if first = second then infinity first else nan
  | infinity negative, _ | _, infinity negative => infinity negative
  | negativeZero, negativeZero => negativeZero
  | _, _ => rounded (left.finitePart + right.finitePart)

def mul (left right : Number) : Number :=
  let negative := left.isNegative != right.isNegative
  match left, right with
  | nan, _ | _, nan => nan
  | infinity _, other | other, infinity _ =>
      if other.equals 0 then nan else infinity negative
  | _, _ =>
      let product := left.finitePart * right.finitePart
      if product = 0 then if negative then negativeZero else finite 0
      else rounded product

instance : Add Number := ⟨add⟩
instance : Mul Number := ⟨mul⟩

end GraphWire.Number

/-!
# Text as code units

The texts of a model are made of units of sixteen bits.  A character above U+FFFF takes two of them,
a high surrogate and then a low one.  A surrogate without its partner stands for no character and
has no bytes in UTF-8, so an encoder stores U+FFFD in its place.
-/

namespace GraphWire

/-- A text as a list of UTF-16 code units, of which some may be surrogates that stand alone. -/
structure Utf16 where
  units : List UInt16
deriving DecidableEq

namespace Utf16

def isHighSurrogate (unit : UInt16) : Bool :=
  0xD800 ≤ unit && unit < 0xDC00

def isLowSurrogate (unit : UInt16) : Bool :=
  0xDC00 ≤ unit && unit < 0xE000

/-- The character of two surrogates. -/
def pair (high low : UInt16) : Char :=
  Char.ofNat (0x10000 + (high.toNat - 0xD800) * 0x400 + (low.toNat - 0xDC00))

/-- The character of a unit that is no half of a pair. -/
def single (unit : UInt16) : Char :=
  if isHighSurrogate unit || isLowSurrogate unit then '\uFFFD' else Char.ofNat unit.toNat

def chars : List UInt16 → List Char
  | [] => []
  | [unit] => [single unit]
  | unit :: next :: rest =>
      if isHighSurrogate unit && isLowSurrogate next then pair unit next :: chars rest
      else single unit :: chars (next :: rest)

/-- The text of the characters, with U+FFFD for each surrogate that stands alone. -/
def text (source : Utf16) : String :=
  String.ofList (chars source.units)

def unitsOf (character : Char) : List UInt16 :=
  if character.toNat < 0x10000 then [.ofNat character.toNat]
  else
    let bits := character.toNat - 0x10000
    [.ofNat (0xD800 + bits / 0x400), .ofNat (0xDC00 + bits % 0x400)]

def ofString (source : String) : Utf16 :=
  ⟨source.toList.flatMap unitsOf⟩

instance : Coe String Utf16 :=
  ⟨ofString⟩

instance : Append Utf16 :=
  ⟨fun first second => ⟨first.units ++ second.units⟩⟩

/-- The texts one after the other, with a separator between any two. -/
def intercalate (separator : Utf16) (texts : List Utf16) : Utf16 :=
  ⟨separator.units.intercalate (texts.map units)⟩

end Utf16

end GraphWire

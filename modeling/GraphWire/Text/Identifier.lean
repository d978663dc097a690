import GraphWire.Wire.Layout

/-!
# Identifiers

An identifier is four ASCII characters, so each is one byte of the buffer.
-/

namespace GraphWire.Identifier

def valid (text : String) : Bool :=
  text.length == Layout.identifierLength && text.toList.all fun character => character.val < 0x80

/-- The bytes of an identifier, one for each character. -/
def toBytes (text : String) : List UInt8 :=
  text.toList.map fun character => UInt8.ofNat character.toNat

/-- The text of identifier bytes found in a buffer, one character for each byte. -/
def ofBytes (bytes : List UInt8) : String :=
  String.ofList (bytes.map fun byte => Char.ofNat byte.toNat)

end GraphWire.Identifier

/-!
# Text in a buffer

Strings are stored as UTF-8.  Reading refuses bytes that are not valid UTF-8 and drops one byte
order mark at the front, so a string that begins with that mark does not read back whole.
-/

namespace GraphWire.Utf8

def byteOrderMark : List UInt8 := [0xEF, 0xBB, 0xBF]

def encode (text : String) : List UInt8 :=
  text.toUTF8.data.toList

/-- The bytes without a byte order mark at the front. -/
def withoutMark (bytes : List UInt8) : List UInt8 :=
  if bytes.take 3 = byteOrderMark then bytes.drop 3 else bytes

/-- The text that bytes store, if they are valid UTF-8. -/
def decode? (bytes : List UInt8) : Option String :=
  String.fromUTF8? ⟨(withoutMark bytes).toArray⟩

/-- A text without the mark at its front is read back. -/
theorem decode?_encode (text : String) (hunmarked : (encode text).take 3 ≠ byteOrderMark) :
    decode? (encode text) = some text := by
  have hwhole : withoutMark (encode text) = encode text := if_neg hunmarked
  have hvalid : text.toUTF8.IsValidUTF8 := text.isValidUTF8
  unfold decode?
  rw [hwhole]
  unfold encode String.fromUTF8?
  exact dif_pos hvalid

end GraphWire.Utf8

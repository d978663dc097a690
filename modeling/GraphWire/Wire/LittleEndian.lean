/-!
# Little-endian words

A word of a given width is stored as that many bytes, the least significant first.  `split` and
`combine` are inverse to each other on words that fit and on byte lists of the width, which is all
that a reader needs to know about the byte order.
-/

namespace GraphWire.LittleEndian

-- Powers are those of the core library, also where another power is in scope.
attribute [local instance (high)] instPowNat

/-- The lowest `width` bytes of a word, least significant first. -/
def split : Nat → Nat → List UInt8
  | 0, _ => []
  | width + 1, word => UInt8.ofNat word :: split width (word / 256)

def combine : List UInt8 → Nat
  | [] => 0
  | byte :: rest => byte.toNat + 256 * combine rest

@[simp]
theorem length_split (width word : Nat) : (split width word).length = width := by
  induction width generalizing word with
  | zero => rfl
  | succ width ih => simp [split, ih]

theorem combine_lt (bytes : List UInt8) : combine bytes < 256 ^ bytes.length := by
  induction bytes with
  | nil => simp [combine]
  | cons byte rest ih =>
      have hsmall := byte.toNat_lt
      simp only [combine, List.length_cons, Nat.pow_succ]
      omega

theorem combine_split (width word : Nat) : combine (split width word) = word % 256 ^ width := by
  induction width generalizing word with
  | zero => simp [split, combine, Nat.mod_one]
  | succ width ih =>
      have hpower : 256 ^ (width + 1) = 256 * 256 ^ width := Nat.pow_succ'
      simp only [split, combine, ih, UInt8.toNat_ofNat', Nat.reducePow, hpower]
      rw [Nat.mod_mul]

/-- A word that fits its width is read back. -/
theorem combine_split_of_lt {width word : Nat} (hfits : word < 256 ^ width) :
    combine (split width word) = word := by
  rw [combine_split, Nat.mod_eq_of_lt hfits]

theorem split_combine (bytes : List UInt8) : split bytes.length (combine bytes) = bytes := by
  induction bytes with
  | nil => rfl
  | cons byte rest ih =>
      have hsmall := byte.toNat_lt
      have hquotient : (byte.toNat + 256 * combine rest) / 256 = combine rest := by omega
      simp only [List.length_cons, split, combine, hquotient, ih]
      congr 1
      apply UInt8.toNat_inj.mp
      simp only [UInt8.toNat_ofNat']
      omega

end GraphWire.LittleEndian

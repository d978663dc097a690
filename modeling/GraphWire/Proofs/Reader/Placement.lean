import GraphWire.Proofs.Reader.Coverage
import Mathlib.Data.List.Infix

/-!
# Bytes at an offset

A buffer is written back to front, so a place in it is named by its offset: the distance from the
end.  Whatever is written later goes in front and leaves every offset alone.  A reader counts from
the front, where the place with an offset is the length of its window less the offset.  This file
carries statements about places from the written bytes to a window over them.
-/

namespace GraphWire

/-- A chunk of bytes begins at an offset, counted from the end. -/
def Placed (bytes chunk : List UInt8) (offset : ℕ) : Prop :=
  ∃ rest, chunk ++ rest <:+ bytes ∧ chunk.length + rest.length = offset

namespace Placed

variable {bytes chunk : List UInt8} {offset : ℕ}

theorem mono {more : List UInt8} (hplaced : Placed bytes chunk offset) (hsuffix : bytes <:+ more) :
    Placed more chunk offset := by
  obtain ⟨rest, hrest, hoffset⟩ := hplaced
  exact ⟨rest, hrest.trans hsuffix, hoffset⟩

/-- What is written last is at the offset that the buffer has then. -/
theorem front (chunk rest : List UInt8) :
    Placed (chunk ++ rest) chunk (chunk.length + rest.length) :=
  ⟨rest, List.suffix_refl _, rfl⟩

theorem le_length (hplaced : Placed bytes chunk offset) : offset ≤ bytes.length := by
  obtain ⟨rest, hrest, hoffset⟩ := hplaced
  have hlength := hrest.length_le
  rw [List.length_append] at hlength
  omega

theorem length_le (hplaced : Placed bytes chunk offset) : chunk.length ≤ offset := by
  obtain ⟨rest, -, hoffset⟩ := hplaced
  omega

theorem left {first second : List UInt8} (hplaced : Placed bytes (first ++ second) offset) :
    Placed bytes first offset := by
  obtain ⟨rest, hrest, hoffset⟩ := hplaced
  rw [List.append_assoc] at hrest
  refine ⟨second ++ rest, hrest, ?_⟩
  rw [List.length_append] at hoffset ⊢
  omega

theorem right {first second : List UInt8} (hplaced : Placed bytes (first ++ second) offset) :
    Placed bytes second (offset - first.length) := by
  obtain ⟨rest, hrest, hoffset⟩ := hplaced
  rw [List.append_assoc] at hrest
  refine ⟨rest, (List.suffix_append first _).trans hrest, ?_⟩
  rw [List.length_append] at hoffset
  omega

/-- A chunk that begins at an offset is found by counting from the front. -/
theorem take_drop (hplaced : Placed bytes chunk offset) :
    (bytes.drop (bytes.length - offset)).take chunk.length = chunk := by
  obtain ⟨rest, ⟨head, rfl⟩, rfl⟩ := hplaced
  have hcount : (head ++ (chunk ++ rest)).length - (chunk.length + rest.length) = head.length := by
    simp only [List.length_append]
    omega
  rw [hcount, List.drop_left, List.take_left]

end Placed

/-! ## Words that lie one after another -/

/-- The bytes of words of one width, the first word in front. -/
def LittleEndian.splitAll (width : ℕ) (words : List ℕ) : List UInt8 :=
  words.flatMap (split width)

namespace LittleEndian

@[simp]
theorem splitAll_cons (width word : ℕ) (words : List ℕ) :
    splitAll width (word :: words) = split width word ++ splitAll width words := rfl

@[simp]
theorem length_splitAll (width : ℕ) (words : List ℕ) :
    (splitAll width words).length = width * words.length := by
  induction words with
  | nil => rfl
  | cons word words ih =>
      rw [splitAll_cons, List.length_append, length_split, ih, List.length_cons, Nat.mul_succ,
        Nat.add_comm]

end LittleEndian

/-- Of words that lie one after another each has its own offset. -/
theorem Placed.word {bytes : List UInt8} {width offset : ℕ} {words : List ℕ}
    (hplaced : Placed bytes (LittleEndian.splitAll width words) offset) {index word : ℕ}
    (hword : words[index]? = some word) :
    Placed bytes (LittleEndian.split width word) (offset - width * index) := by
  induction words generalizing index offset with
  | nil => simp at hword
  | cons head words ih =>
      rw [LittleEndian.splitAll_cons] at hplaced
      cases index with
      | zero =>
          obtain rfl : head = word := by simpa using hword
          exact hplaced.left
      | succ index =>
          have hlater := ih hplaced.right (by simpa using hword)
          rw [LittleEndian.length_split] at hlater
          rwa [Nat.mul_succ, Nat.add_comm, Nat.sub_add_eq]

/-! ## Reading at an offset -/

namespace Window

variable {window : Window} {bytes : List UInt8} {offset : ℕ}

theorem slice_placed {chunk : List UInt8} (hplaced : Placed window.toList chunk offset) :
    window.slice (window.length - offset) chunk.length = chunk := by
  rw [slice_eq, ← length_toList]
  exact hplaced.take_drop

theorem load_placed {width word : ℕ}
    (hplaced : Placed window.toList (LittleEndian.split width word) offset)
    (hword : word < 256 ^ width) : window.load (window.length - offset) width = .ok word := by
  have hlength := hplaced.le_length
  have hwidth := hplaced.length_le
  rw [length_toList] at hlength
  rw [LittleEndian.length_split] at hwidth
  rw [window.load_eq (by omega)]
  have hslice := slice_placed hplaced
  rw [LittleEndian.length_split] at hslice
  rw [wordAt, hslice, LittleEndian.combine_split_of_lt hword]

theorem claim_natCast {index size : ℕ} (hinside : index + size ≤ window.length) :
    window.claim index size = .ok index := by
  simp [claim, hinside]

/-- A word is read at the position of its offset. -/
theorem readWord_placed {width word : ℕ}
    (hplaced : Placed window.toList (LittleEndian.split width word) offset)
    (hword : word < 256 ^ width) :
    window.readWord width (window.length - offset : ℕ) = .ok word := by
  have hlength := hplaced.le_length
  have hwidth := hplaced.length_le
  rw [length_toList] at hlength
  rw [LittleEndian.length_split] at hwidth
  rw [readWord, claim_natCast (by omega)]
  exact load_placed hplaced hword

/-- A scalar is read at the position of its offset. -/
theorem read_placed {type : Scalar} {word : ℕ}
    (hplaced : Placed window.toList (LittleEndian.split type.width word) offset)
    (hword : word < 256 ^ type.width) :
    window.read type (window.length - offset : ℕ) = .ok (type.ofWord word) := by
  rw [read, readWord_placed hplaced hword]
  rfl

/-- A stored distance leads from the position of its own offset to that of its target. -/
theorem indirect_placed {target : ℕ}
    (hplaced : Placed window.toList (LittleEndian.split 4 (offset - target)) offset)
    (hpositive : 0 < target) (htarget : target ≤ offset) (hword : offset < 256 ^ 4) :
    window.indirect (window.length - offset : ℕ) = .ok (window.length - target) := by
  have hlength := hplaced.le_length
  have hwidth := hplaced.length_le
  rw [length_toList] at hlength
  rw [LittleEndian.length_split] at hwidth
  have hsum : window.length - offset + (offset - target) = window.length - target := by omega
  have hinside : ¬window.length ≤ window.length - target := by omega
  rw [indirect, claim_natCast (by omega)]
  simp only [bind, Except.bind, load_placed hplaced (by omega), hsum, hinside, if_false]
  rfl

end Window

end GraphWire

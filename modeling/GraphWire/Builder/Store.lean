/-!
# Stores

Where the bytes of a buffer are kept while it is written from its end towards its front.  An offset
counts from the end, so it stays with its object when the bytes move to a larger array.
-/

namespace GraphWire

class Store (σ : Type) where
  /-- A store of a capacity with nothing written. -/
  blank : Nat → σ
  /-- The number of bytes written. -/
  size : σ → Nat
  /-- Moves to larger and larger arrays.  Each step is a capacity before and after. -/
  grow : List (Nat × Nat) → σ → σ
  /-- Writes zero bytes in front. -/
  pad : Nat → σ → σ
  /-- Writes bytes in front. -/
  push : List UInt8 → σ → σ
  /-- The bytes at the front, as many as are asked for. -/
  front : Nat → σ → List UInt8
  /-- Gives up the bytes in front of an offset. -/
  rollback : Nat → σ → σ
  /-- Overwrites the bytes from an offset on. -/
  patch : Nat → List UInt8 → σ → σ
  /-- All bytes written, the latest first. -/
  bytes : σ → List UInt8
  /-- Discards all bytes and keeps the capacity. -/
  erase : σ → σ

/-- Bytes written so far, the latest first, with their number. -/
structure Region where
  bytes : List UInt8
  size : Nat
  size_eq : size = bytes.length

namespace Region

def empty : Region := ⟨[], 0, rfl⟩

def push (region : Region) (front : List UInt8) : Region :=
  ⟨front ++ region.bytes, front.length + region.size, by simp [region.size_eq]⟩

@[ext]
theorem ext {left right : Region} (hbytes : left.bytes = right.bytes) : left = right := by
  cases left
  cases right
  simp_all

@[simp]
theorem bytes_push (region : Region) (front : List UInt8) :
    (region.push front).bytes = front ++ region.bytes := rfl

@[simp]
theorem size_push (region : Region) (front : List UInt8) :
    (region.push front).size = front.length + region.size := rfl

@[simp]
theorem push_nil (region : Region) : region.push [] = region := by
  ext1
  simp

theorem push_push (region : Region) (first second : List UInt8) :
    (region.push first).push second = region.push (second ++ first) := by
  ext1
  simp

/-- The bytes behind an offset. -/
def behind (region : Region) (offset : Nat) : Region :=
  ⟨region.bytes.drop (region.size - offset), min offset region.size, by
    rw [List.length_drop, ← region.size_eq]
    omega⟩

/-- The region with the bytes from an offset on replaced. -/
def overwritten (region : Region) (offset : Nat) (bytes : List UInt8) : Region :=
  let front := region.bytes.take (region.size - offset)
  let rest := region.bytes.drop (region.size - offset + bytes.length)
  ⟨front ++ (bytes ++ rest), (front ++ (bytes ++ rest)).length, rfl⟩

@[simp]
theorem bytes_behind (region : Region) (offset : Nat) :
    (region.behind offset).bytes = region.bytes.drop (region.size - offset) := rfl

@[simp]
theorem bytes_overwritten (region : Region) (offset : Nat) (bytes : List UInt8) :
    (region.overwritten offset bytes).bytes = region.bytes.take (region.size - offset)
      ++ (bytes ++ region.bytes.drop (region.size - offset + bytes.length)) := rfl

instance : Store Region where
  blank _ := empty
  size region := region.size
  grow _ region := region
  pad count region := region.push (List.replicate count 0)
  push bytes region := region.push bytes
  front count region := region.bytes.take count
  rollback offset region := region.behind offset
  patch offset bytes region := region.overwritten offset bytes
  bytes region := region.bytes
  erase _ := empty

@[simp]
theorem store_blank (capacity : Nat) : (Store.blank capacity : Region) = empty := rfl

@[simp]
theorem store_erase (region : Region) : Store.erase region = empty := rfl

@[simp]
theorem store_size (region : Region) : Store.size region = region.size := rfl

@[simp]
theorem store_grow (steps : List (Nat × Nat)) (region : Region) : Store.grow steps region = region :=
  rfl

@[simp]
theorem store_pad (count : Nat) (region : Region) :
    Store.pad count region = region.push (List.replicate count 0) := rfl

@[simp]
theorem store_push (bytes : List UInt8) (region : Region) :
    Store.push bytes region = region.push bytes := rfl

@[simp]
theorem store_front (count : Nat) (region : Region) :
    Store.front count region = region.bytes.take count := rfl

@[simp]
theorem store_bytes (region : Region) : Store.bytes region = region.bytes := rfl

end Region

end GraphWire

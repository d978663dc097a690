import GraphWire.Builder.Store

/-!
# Scratch arrays

The store of a program that builds a buffer: an array whose free bytes are in front of the written
ones.  An offset is the distance of a byte from the end of the array, and its index is what remains.
Growing copies the whole array to the end of a larger one, so offsets stay and indices change.  A
free byte may be left over from what was given up again.
-/

namespace GraphWire

structure Scratch where
  array : ByteArray
  /-- The number of free bytes, which is the index of the latest byte.  It is negative when more
  bytes were padded than there is room for. -/
  space : Int

namespace Scratch

/-- The array with bytes put at an index. -/
def put (bytes array : ByteArray) (index : Nat) : ByteArray :=
  bytes.copySlice 0 array index bytes.size

/-- Zero bytes that are written at one time. -/
@[irreducible]
def zeroBlock : ByteArray :=
  ⟨Array.replicate 65536 0⟩

theorem zeroBlock_size : zeroBlock.size = 65536 := by
  rw [zeroBlock]
  exact Array.size_replicate

/-- The array with zero bytes put at an index. -/
def wipe (array : ByteArray) (index count : Nat) : ByteArray :=
  if count ≤ zeroBlock.size then zeroBlock.copySlice 0 array index count
  else wipe (put zeroBlock array index) (index + zeroBlock.size) (count - zeroBlock.size)
termination_by count
decreasing_by
  have hblock := zeroBlock_size
  omega

def zeros (count : Nat) : ByteArray :=
  wipe (.emptyWithCapacity count) 0 count

def blank (capacity : Nat) : Scratch :=
  ⟨zeros capacity, capacity⟩

def size (scratch : Scratch) : Nat :=
  (scratch.array.size - scratch.space).toNat

/-- Moves to an array of a larger capacity. -/
def moved (scratch : Scratch) (capacity : Nat) : Scratch :=
  let added := capacity - scratch.array.size
  ⟨put scratch.array (zeros capacity) added, scratch.space + added⟩

def grow (steps : List (Nat × Nat)) (scratch : Scratch) : Scratch :=
  steps.foldl (fun scratch step => scratch.moved step.2) scratch

/-- Writes zero bytes in front.  Those that would come before the start of the array are left out. -/
def pad (count : Nat) (scratch : Scratch) : Scratch :=
  let space := scratch.space - count
  ⟨wipe scratch.array space.toNat (scratch.space.toNat - space.toNat), space⟩

/-- Writes bytes in front, for which there has to be room. -/
def push (bytes : List UInt8) (scratch : Scratch) : Scratch :=
  let space := scratch.space - bytes.length
  ⟨put ⟨bytes.toArray⟩ scratch.array space.toNat, space⟩

def slice (scratch : Scratch) (start stop : Nat) : List UInt8 :=
  (scratch.array.extract start stop).data.toList

def front (count : Nat) (scratch : Scratch) : List UInt8 :=
  scratch.slice scratch.space.toNat (scratch.space.toNat + count)

def rollback (offset : Nat) (scratch : Scratch) : Scratch :=
  { scratch with space := scratch.array.size - offset }

def patch (offset : Nat) (bytes : List UInt8) (scratch : Scratch) : Scratch :=
  { scratch with array := put ⟨bytes.toArray⟩ scratch.array (scratch.array.size - offset) }

def bytes (scratch : Scratch) : List UInt8 :=
  scratch.slice scratch.space.toNat scratch.array.size

def erase (scratch : Scratch) : Scratch :=
  blank scratch.array.size

instance : Store Scratch where
  blank := blank
  size := size
  grow := grow
  pad := pad
  push := push
  front := front
  rollback := rollback
  patch := patch
  bytes := bytes
  erase := erase

end Scratch

end GraphWire

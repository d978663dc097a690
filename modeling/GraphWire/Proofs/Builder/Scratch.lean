import GraphWire.Builder.Scratch
import GraphWire.Builder.Space
import Mathlib.Data.List.TakeDrop
import Mathlib.Data.Nat.Notation

/-!
# The bytes of a scratch array

A scratch array stands for a region: the bytes from the first written one on, with zero bytes in
front of them when more were padded than there is room for.  Each step on the array, also one to a
larger array, is the step on the region that it stands for.
-/

namespace GraphWire.Scratch

/-! ## Arrays as lists -/

@[simp]
theorem length_toList (array : ByteArray) : array.data.toList.length = array.size := by
  rw [Array.length_toList, ByteArray.size_data]

/-- Bytes of one array are copied into another. -/
theorem toList_copySlice (bytes array : ByteArray) (index : ℕ) {count : ℕ}
    (hcount : count ≤ bytes.size) :
    (bytes.copySlice 0 array index count).data.toList = array.data.toList.take index
      ++ (bytes.data.toList.take count ++ array.data.toList.drop (index + count)) := by
  have hrest (start : ℕ) : (array.data.toList.drop start).take (array.size - start)
      = array.data.toList.drop start := by
    rw [← length_toList, ← List.length_drop, List.take_length]
  simp [ByteArray.copySlice, Nat.min_eq_left hcount, hrest]

theorem toList_put (bytes array : ByteArray) (index : ℕ) :
    (put bytes array index).data.toList = array.data.toList.take index
      ++ (bytes.data.toList ++ array.data.toList.drop (index + bytes.size)) := by
  have hwhole : bytes.data.toList.take bytes.size = bytes.data.toList := by
    rw [← length_toList, List.take_length]
  rw [put, toList_copySlice _ _ _ (Nat.le_refl _), hwhole]

theorem toList_zeroBlock : zeroBlock.data.toList = List.replicate zeroBlock.size 0 := by
  rw [zeroBlock_size, zeroBlock]
  exact Array.toList_replicate

/-- Zero bytes are put block by block, each behind the one before it. -/
theorem toList_wipe (array : ByteArray) (index count : ℕ) (hindex : index ≤ array.size) :
    (wipe array index count).data.toList = array.data.toList.take index
      ++ (List.replicate count 0 ++ array.data.toList.drop (index + count)) := by
  fun_induction wipe array index count with
  | case1 array index count hlast =>
      rw [toList_copySlice _ _ _ hlast, toList_zeroBlock, List.take_replicate,
        Nat.min_eq_left hlast]
  | case2 array index count hmore ih =>
      have hblock : zeroBlock.size ≤ count := Nat.le_of_not_le hmore
      have hlength : (array.data.toList.take index).length = index := by
        rw [List.length_take, length_toList, Nat.min_eq_left hindex]
      have hfront : (array.data.toList.take index ++ zeroBlock.data.toList).length
          = index + zeroBlock.size := by
        rw [List.length_append, hlength, length_toList]
      have hput : (put zeroBlock array index).data.toList
          = (array.data.toList.take index ++ zeroBlock.data.toList)
            ++ array.data.toList.drop (index + zeroBlock.size) := by
        rw [toList_put, List.append_assoc]
      have hroom : index + zeroBlock.size ≤ (put zeroBlock array index).size := by
        rw [← length_toList (put zeroBlock array index), hput, List.length_append, hfront]
        exact Nat.le_add_right _ _
      have hzeros : zeroBlock.data.toList ++ List.replicate (count - zeroBlock.size) 0
          = List.replicate count 0 := by
        rw [toList_zeroBlock, List.replicate_append_replicate, Nat.add_sub_of_le hblock]
      have hsum : index + zeroBlock.size + (count - zeroBlock.size) = index + count := by
        rw [Nat.add_assoc, Nat.add_sub_of_le hblock]
      have hdone : (put zeroBlock array index).data.toList.take (index + zeroBlock.size)
          = array.data.toList.take index ++ zeroBlock.data.toList := by
        rw [hput]
        exact List.take_left' hfront
      have hrest : (put zeroBlock array index).data.toList.drop (index + count)
          = array.data.toList.drop (index + count) := by
        rw [← hsum, ← List.drop_drop, hput, List.drop_left' hfront, List.drop_drop]
      rw [ih hroom, hsum, hdone, hrest, List.append_assoc, ← List.append_assoc zeroBlock.data.toList,
        hzeros]

theorem toList_zeros (count : ℕ) : (zeros count).data.toList = List.replicate count 0 := by
  have hnone : (ByteArray.emptyWithCapacity count).data.toList = [] := rfl
  rw [zeros, toList_wipe _ _ _ (Nat.zero_le _), hnone, List.take_nil, List.drop_nil,
    List.nil_append, List.append_nil]

@[simp]
theorem size_zeros (count : ℕ) : (zeros count).size = count := by
  rw [← length_toList, toList_zeros, List.length_replicate]

theorem wipe_eq_put {array : ByteArray} {index : ℕ} (hindex : index ≤ array.size) (count : ℕ) :
    wipe array index count = put (zeros count) array index := by
  apply ByteArray.ext
  apply Array.toList_inj.mp
  rw [toList_wipe _ _ _ hindex, toList_put, toList_zeros, size_zeros]

section

variable {bytes array : ByteArray} {index : ℕ}

/-- What is put within an array leaves it as large as it was. -/
theorem size_put (hroom : index + bytes.size ≤ array.size) :
    (put bytes array index).size = array.size := by
  rw [← length_toList, toList_put]
  simp only [List.length_append, List.length_take, List.length_drop, length_toList]
  omega

/-- From its index on there is what was put, and then what was there. -/
theorem drop_put (hindex : index ≤ array.size) :
    (put bytes array index).data.toList.drop index
      = bytes.data.toList ++ array.data.toList.drop (index + bytes.size) := by
  rw [toList_put]
  exact List.drop_left' (by rw [List.length_take, length_toList, Nat.min_eq_left hindex])

end

/-! ## The region of a scratch array -/

def region (scratch : Scratch) : Region where
  bytes := List.replicate (-scratch.space).toNat 0
    ++ scratch.array.data.toList.drop scratch.space.toNat
  size := scratch.size
  size_eq := by
    rw [List.length_append, List.length_replicate, List.length_drop, length_toList, size]
    omega

/-- A scratch array of some capacity. -/
structure Spans (scratch : Scratch) (capacity : ℕ) : Prop where
  size_eq : scratch.array.size = capacity
  space_le : scratch.space ≤ capacity

variable {scratch : Scratch} {capacity : ℕ}

theorem bytes_region (scratch : Scratch) : scratch.region.bytes
    = List.replicate (-scratch.space).toNat 0
      ++ scratch.array.data.toList.drop scratch.space.toNat := rfl

/-- With nothing padded beyond the array the region is the end of the array. -/
theorem bytes_region_of_nonneg (hspace : 0 ≤ scratch.space) :
    scratch.region.bytes = scratch.array.data.toList.drop scratch.space.toNat := by
  have hnone : (-scratch.space).toNat = 0 := by omega
  rw [bytes_region, hnone, List.replicate_zero, List.nil_append]

theorem spans_blank (capacity : ℕ) : (blank capacity).Spans capacity :=
  ⟨size_zeros capacity, Int.le_refl _⟩

theorem region_blank (capacity : ℕ) : (blank capacity).region = .empty := by
  ext1
  rw [bytes_region_of_nonneg (by simp [blank])]
  simp [blank, toList_zeros, Region.empty]

/-! ## Growth -/

/-- A larger array has the smaller one at its end. -/
theorem toList_moved {larger : ℕ} (hlarger : scratch.array.size ≤ larger) :
    (scratch.moved larger).array.data.toList
      = List.replicate (larger - scratch.array.size) 0 ++ scratch.array.data.toList := by
  rw [moved, toList_put, toList_zeros, List.take_replicate, List.drop_replicate,
    Nat.sub_add_cancel hlarger, Nat.sub_self, List.replicate_zero, List.append_nil,
    Nat.min_eq_left (Nat.sub_le _ _)]

theorem Spans.moved (hspans : scratch.Spans capacity) {larger : ℕ} (hlarger : capacity ≤ larger) :
    (scratch.moved larger).Spans larger where
  size_eq := by
    have hsize := hspans.size_eq
    rw [← length_toList, toList_moved (by omega), List.length_append, List.length_replicate,
      length_toList]
    omega
  space_le := by
    have hspace := hspans.space_le
    simp only [Scratch.moved, hspans.size_eq]
    omega

/-- The bytes are as far from the end of the larger array as they were from the end of the smaller
one.  Of the zero bytes that had no room there is room for some more. -/
theorem region_moved {larger : ℕ} (hlarger : scratch.array.size ≤ larger) :
    (scratch.moved larger).region = scratch.region := by
  ext1
  have hspace : (scratch.moved larger).space
      = scratch.space + (larger - scratch.array.size : ℕ) := rfl
  rw [bytes_region, bytes_region, toList_moved hlarger, List.drop_append, List.drop_replicate,
    List.length_replicate, ← List.append_assoc, List.replicate_append_replicate, hspace]
  congr 2 <;> omega

theorem Spans.grow (hspans : scratch.Spans capacity) (required : ℕ) :
    (scratch.grow (growth capacity required)).Spans
      (grownCapacity capacity (growth capacity required)) := by
  fun_induction growth capacity required generalizing scratch with
  | case1 capacity hshort larger =>
      next ih =>
        rw [grownCapacity_cons]
        exact ih (hspans.moved (by omega))
  | case2 => exact hspans

/-- A buffer that grows has the same bytes. -/
theorem region_grow (hspans : scratch.Spans capacity) (required : ℕ) :
    (scratch.grow (growth capacity required)).region = scratch.region := by
  fun_induction growth capacity required generalizing scratch with
  | case1 capacity hshort larger =>
      next ih =>
        have hlarger : capacity ≤ larger := by omega
        exact (ih (hspans.moved hlarger)).trans (region_moved (hspans.size_eq ▸ hlarger))
  | case2 => rfl

/-! ## Writing in front -/

theorem Spans.pad (hspans : scratch.Spans capacity) (count : ℕ) :
    (scratch.pad count).Spans capacity where
  size_eq := by
    obtain ⟨hsize, hspace⟩ := hspans
    rw [Scratch.pad, wipe_eq_put (by omega), size_put, hsize]
    rw [size_zeros]
    omega
  space_le := by
    have hspace := hspans.space_le
    simp only [Scratch.pad]
    omega

/-- Some of the zero bytes are put in the array, and the others would have come in front of it. -/
theorem region_pad (hspans : scratch.Spans capacity) (count : ℕ) :
    (scratch.pad count).region = scratch.region.push (List.replicate count 0) := by
  obtain ⟨hsize, hspace⟩ := hspans
  ext1
  have hafter : (scratch.pad count).space = scratch.space - count := rfl
  rw [bytes_region, Region.bytes_push, bytes_region, hafter]
  simp only [pad]
  rw [wipe_eq_put (by omega), drop_put (by omega), toList_zeros, size_zeros, ← List.append_assoc,
    ← List.append_assoc, List.replicate_append_replicate, List.replicate_append_replicate]
  congr 2 <;> omega

theorem Spans.push (hspans : scratch.Spans capacity) {bytes : List UInt8}
    (hroom : scratch.size + bytes.length ≤ capacity) : (scratch.push bytes).Spans capacity where
  size_eq := by
    obtain ⟨hsize, hspace⟩ := hspans
    have hlength : (⟨bytes.toArray⟩ : ByteArray).size = bytes.length := rfl
    rw [Scratch.size, hsize] at hroom
    rw [Scratch.push, size_put, hsize]
    rw [hlength]
    omega
  space_le := by
    have hspace := hspans.space_le
    simp only [Scratch.push]
    omega

/-- Bytes with room for them are put right in front of the written ones. -/
theorem region_push (hspans : scratch.Spans capacity) {bytes : List UInt8}
    (hroom : scratch.size + bytes.length ≤ capacity) :
    (scratch.push bytes).region = scratch.region.push bytes := by
  obtain ⟨hsize, hspace⟩ := hspans
  have hlength : (⟨bytes.toArray⟩ : ByteArray).size = bytes.length := rfl
  rw [size, hsize] at hroom
  have hafter : (scratch.push bytes).space = scratch.space - bytes.length := rfl
  have hindex : (scratch.space - bytes.length).toNat + bytes.length = scratch.space.toNat := by
    omega
  ext1
  rw [bytes_region_of_nonneg (by omega), Region.bytes_push, bytes_region_of_nonneg (by omega),
    hafter]
  simp only [push]
  rw [drop_put (by omega), hlength, hindex]

/-! ## What is behind the front -/

theorem drop_slice (scratch : Scratch) (start stop : ℕ) :
    scratch.slice start stop = (scratch.array.data.toList.drop start).take (stop - start) := by
  simp [slice]

theorem front_eq (hspace : 0 ≤ scratch.space) (count : ℕ) :
    scratch.front count = scratch.region.bytes.take count := by
  rw [front, drop_slice, bytes_region_of_nonneg hspace, Nat.add_sub_cancel_left]

theorem bytes_eq (hspace : 0 ≤ scratch.space) : scratch.bytes = scratch.region.bytes := by
  rw [bytes, drop_slice, bytes_region_of_nonneg hspace, ← length_toList, ← List.length_drop,
    List.take_length]

theorem Spans.rollback (hspans : scratch.Spans capacity) (offset : ℕ) :
    (scratch.rollback offset).Spans capacity := by
  obtain ⟨hsize, -⟩ := hspans
  refine ⟨hsize, ?_⟩
  simp only [Scratch.rollback]
  omega

/-- Giving up what is in front of an offset only moves where the written bytes start. -/
theorem region_rollback (hspans : scratch.Spans capacity) (hspace : 0 ≤ scratch.space) {offset : ℕ}
    (hoffset : offset ≤ scratch.size) :
    (scratch.rollback offset).region = scratch.region.behind offset := by
  have hafter : (scratch.rollback offset).space = scratch.array.size - offset := rfl
  have hsize : scratch.region.size = scratch.size := rfl
  have hbelow : scratch.space ≤ scratch.array.size := hspans.size_eq ▸ hspans.space_le
  rw [size] at hoffset hsize
  have hindex : scratch.space.toNat + (scratch.region.size - offset)
      = (scratch.array.size - offset : Int).toNat := by
    omega
  ext1
  rw [bytes_region_of_nonneg (by omega), hafter, Region.bytes_behind,
    bytes_region_of_nonneg hspace, List.drop_drop, hindex]
  rfl

theorem Spans.patch (hspans : scratch.Spans capacity) {offset : ℕ} {bytes : List UInt8}
    (hoffset : offset ≤ capacity) (hlength : bytes.length ≤ offset) :
    (scratch.patch offset bytes).Spans capacity where
  size_eq := by
    obtain ⟨hsize, -⟩ := hspans
    have hbytes : (⟨bytes.toArray⟩ : ByteArray).size = bytes.length := rfl
    rw [Scratch.patch, size_put, hsize]
    rw [hbytes]
    omega
  space_le := hspans.space_le

/-- An offset is found at its distance from the end of the array. -/
theorem region_patch (hspans : scratch.Spans capacity) (hspace : 0 ≤ scratch.space) {offset : ℕ}
    (hoffset : offset ≤ scratch.size) (bytes : List UInt8) :
    (scratch.patch offset bytes).region = scratch.region.overwritten offset bytes := by
  have hbytes : (⟨bytes.toArray⟩ : ByteArray).size = bytes.length := rfl
  have hsize : scratch.region.size = scratch.size := rfl
  have hbelow : scratch.space ≤ scratch.array.size := hspans.size_eq ▸ hspans.space_le
  rw [size] at hoffset hsize
  have hindex : scratch.array.size - offset
      = scratch.space.toNat + (scratch.region.size - offset) := by
    omega
  ext1
  have hafter : (scratch.patch offset bytes).space = scratch.space := rfl
  rw [bytes_region_of_nonneg (hafter ▸ hspace), Region.bytes_overwritten,
    bytes_region_of_nonneg hspace, hafter]
  simp only [patch]
  rw [toList_put, hbytes, hindex, List.drop_append_of_le_length, List.drop_take,
    Nat.add_sub_cancel_left, List.drop_drop, Nat.add_assoc]
  rw [List.length_take, length_toList]
  omega

end GraphWire.Scratch

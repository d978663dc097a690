import GraphWire.Builder.Basic
import GraphWire.Proofs.Reader.Placement
import Mathlib.Data.List.Dedup

/-!
# Interned vtables

The vtables that a builder remembers are those that its tables use, each of them once.  So tables
with equal vtables use the same one, and there are as many as there are different ones.
-/

namespace GraphWire

/-- The remembered vtables are the used ones, and no two of them have their bytes or their offset in
common. -/
structure Interns (vtables uses : List StoredVtable) : Prop where
  mem_iff : ∀ stored, stored ∈ vtables ↔ stored ∈ uses
  bytes : (vtables.map StoredVtable.bytes).Nodup
  offsets : (vtables.map StoredVtable.offset).Nodup

namespace Interns

variable {vtables uses : List StoredVtable} {stored : StoredVtable}

theorem nil : Interns [] [] :=
  ⟨fun _ => Iff.rfl, List.nodup_nil, List.nodup_nil⟩

/-- A vtable that is remembered may be used again. -/
theorem share (hinterns : Interns vtables uses) (hstored : stored ∈ vtables) :
    Interns vtables (stored :: uses) where
  mem_iff := by
    intro other
    rw [List.mem_cons, ← hinterns.mem_iff other]
    constructor
    · exact .inr
    · rintro (rfl | hother)
      · exact hstored
      · exact hother
  bytes := hinterns.bytes
  offsets := hinterns.offsets

/-- A vtable whose bytes are not remembered is added behind all others. -/
theorem add (hinterns : Interns vtables uses)
    (hunknown : ∀ other ∈ vtables, other.bytes ≠ stored.bytes)
    (hbehind : ∀ other ∈ vtables, other.offset < stored.offset) :
    Interns (stored :: vtables) (stored :: uses) where
  mem_iff := by
    intro other
    rw [List.mem_cons, List.mem_cons, hinterns.mem_iff other]
  bytes := by
    rw [List.map_cons, List.nodup_cons]
    refine ⟨?_, hinterns.bytes⟩
    intro hmem
    obtain ⟨other, hother, hsame⟩ := List.mem_map.mp hmem
    exact hunknown other hother hsame
  offsets := by
    rw [List.map_cons, List.nodup_cons]
    refine ⟨?_, hinterns.offsets⟩
    intro hmem
    obtain ⟨other, hother, hsame⟩ := List.mem_map.mp hmem
    exact absurd hsame (Nat.ne_of_lt (hbehind other hother))

/-- Vtables in use have one offset exactly if they have the same bytes. -/
theorem offset_eq_iff (hinterns : Interns vtables uses) {first second : StoredVtable}
    (hfirst : first ∈ uses) (hsecond : second ∈ uses) :
    first.offset = second.offset ↔ first.bytes = second.bytes := by
  rw [← hinterns.mem_iff] at hfirst hsecond
  constructor
  · intro hoffset
    rw [List.inj_on_of_nodup_map hinterns.offsets hfirst hsecond hoffset]
  · intro hbytes
    rw [List.inj_on_of_nodup_map hinterns.bytes hfirst hsecond hbytes]

/-- There are as many vtables as there are different keys of the bytes in use. -/
theorem length_eq (hinterns : Interns vtables uses) {α : Type} [DecidableEq α]
    {encode : α → List UInt8} {keys : List α}
    (hkeys : uses.map StoredVtable.bytes = keys.map encode)
    (hinjective : ∀ first ∈ keys, ∀ second ∈ keys, encode first = encode second →
      first = second) : vtables.length = keys.dedup.length := by
  have hdistinct : (keys.dedup.map encode).Nodup := by
    apply List.Nodup.map_on _ (List.nodup_dedup keys)
    intro first hfirst second hsecond
    exact hinjective first (List.mem_dedup.mp hfirst) second (List.mem_dedup.mp hsecond)
  have hsame : (vtables.map StoredVtable.bytes).Perm (keys.dedup.map encode) := by
    rw [List.perm_ext_iff_of_nodup hinterns.bytes hdistinct]
    intro bytes
    have hused : bytes ∈ uses.map StoredVtable.bytes ↔ bytes ∈ keys.map encode := by rw [hkeys]
    simp only [List.mem_map, List.mem_dedup, hinterns.mem_iff] at hused ⊢
    exact hused
  have hlength := hsame.length_eq
  rwa [List.length_map, List.length_map] at hlength

end Interns

/-- Different lists of entries are different bytes. -/
theorem LittleEndian.splitAll_injective {words words' : List ℕ}
    (hwords : ∀ word ∈ words, word < 256 ^ 2) (hwords' : ∀ word ∈ words', word < 256 ^ 2)
    (hsame : splitAll 2 words = splitAll 2 words') : words = words' := by
  induction words generalizing words' with
  | nil =>
      have hlength := congrArg List.length hsame
      rw [length_splitAll, length_splitAll, List.length_nil] at hlength
      exact (List.length_eq_zero_iff.mp (by omega)).symm
  | cons word words ih =>
      cases words' with
      | nil =>
          have hlength := congrArg List.length hsame
          rw [length_splitAll, length_splitAll, List.length_cons, List.length_nil] at hlength
          omega
      | cons word' words' =>
          rw [List.forall_mem_cons] at hwords hwords'
          rw [splitAll_cons, splitAll_cons] at hsame
          obtain ⟨hhead, hrest⟩ := List.append_inj hsame (by rw [length_split, length_split])
          have hword := congrArg combine hhead
          rw [combine_split_of_lt hwords.1, combine_split_of_lt hwords'.1] at hword
          rw [hword, ih hwords.2 hwords'.2 hrest]

end GraphWire

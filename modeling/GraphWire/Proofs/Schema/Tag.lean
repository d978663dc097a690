import GraphWire.Proofs.Number.Basic
import GraphWire.Schema.Tag

/-!
# Numbers of members

The number of a member leads back to the member, and a number that stands for a member equals the
member's own.  So what a reader finds for a stored tag is what was written.
-/

namespace GraphWire

/-- An enumeration whose members are found by their numbers. -/
class LawfulTag (α : Type) [Tag α] : Prop where
  ofNumber?_code : ∀ member : α, Tag.ofNumber? (Tag.code member : Number) = some member

instance : LawfulTag OperatorType := ⟨fun type => by cases type <;> decide⟩

instance : LawfulTag PadMode := ⟨fun mode => by cases mode <;> decide⟩

instance : LawfulTag AttrsKind := ⟨fun kind => by cases kind <;> decide⟩

instance : LawfulTag NodeKind := ⟨fun kind => by cases kind <;> decide⟩

instance : LawfulTag PayloadKind := ⟨fun kind => by cases kind <;> decide⟩

/-- A union, whose tags fill a byte at most and leave zero for an absent one. -/
class LawfulUnion (α : Type) [Tag α] : Prop extends LawfulTag α where
  code_pos : ∀ tag : α, 0 < Tag.code tag
  code_le : ∀ tag : α, Tag.code tag ≤ 255

instance : LawfulUnion AttrsKind :=
  ⟨fun kind => Nat.succ_pos kind.ctorIdx, fun kind => by cases kind <;> decide⟩

instance : LawfulUnion NodeKind :=
  ⟨fun kind => Nat.succ_pos kind.ctorIdx, fun kind => by cases kind <;> decide⟩

instance : LawfulUnion PayloadKind :=
  ⟨fun kind => Nat.succ_pos kind.ctorIdx, fun kind => by cases kind <;> decide⟩

/-- The member for a number depends on the number's value alone. -/
theorem Tag.ofNumber?_of_toInt? {α : Type} [Tag α] {number : Number} {value : ℤ}
    (hvalue : number.toInt? = some value) :
    (Tag.ofNumber? number : Option α) = Tag.ofNumber? (.ofInt value) := by
  simp only [Tag.ofNumber?, Number.equals_of_toInt? hvalue]

/-- A member that is found for an integer has this integer as its number. -/
theorem Tag.code_of_ofNumber? {α : Type} [Tag α] {value : ℤ} {member : α}
    (hmember : Tag.ofNumber? (.ofInt value) = some member) : value = (Tag.code member : ℤ) := by
  have hequals := List.find?_some hmember
  change (Number.ofInt value).equals (.ofInt (Tag.code member)) = true at hequals
  simpa using hequals

/-- A number stands for a member if it equals the member's own. -/
theorem Tag.ofNumber?_eq_some {α : Type} [Tag α] [LawfulTag α] {number : Number} {member : α} :
    Tag.ofNumber? number = some member ↔ number.toNat? = some (Tag.code member) := by
  constructor
  · intro hmember
    have hequals := List.find?_some hmember
    exact (number.equals_natCast (Tag.code member)).mp hequals
  · intro hnumber
    rw [Tag.ofNumber?_of_toInt? (Number.toInt?_of_toNat? hnumber)]
    exact LawfulTag.ofNumber?_code member

end GraphWire

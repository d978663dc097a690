import GraphWire.Model.Encoding
import GraphWire.Proofs.Builder.Table
import GraphWire.Proofs.Reader.Items
import GraphWire.Proofs.Schema.Tag
import GraphWire.Proofs.Text.Utf8

/-!
# Reading back what fields hold

A table whose slots were filled from a list of fields is read slot by slot: a scalar gives its
stored value or the default for which it was left out, and a reference leads to whatever it refers
to.
-/

namespace GraphWire

/-! ## Slots of fields -/

namespace Field

/-- A field that is kept fills the slot of its place. -/
theorem mem_slots {force : Bool} {fields : List Field} {field : Field} {content : Content}
    {index : ℕ} (hfield : fields[index]? = some field) (hkept : field.kept force = some content)
    (first : ℕ) : (first + index, content) ∈ slots force first fields := by
  induction fields generalizing first index with
  | nil => simp at hfield
  | cons head fields ih =>
      cases index with
      | zero =>
          obtain rfl : head = field := by simpa using hfield
          simp [slots, hkept]
      | succ index =>
          have hlater := ih (by simpa using hfield) (first + 1)
          rw [Nat.add_assoc, Nat.add_comm 1] at hlater
          unfold slots
          cases head.kept force with
          | none => exact hlater
          | some other => exact List.mem_cons_of_mem _ hlater

/-- Every filled slot is the place of a field that is kept. -/
theorem of_mem_slots {force : Bool} {fields : List Field} {first slot : ℕ}
    (hslot : slot ∈ (slots force first fields).map Prod.fst) :
    ∃ index field content, slot = first + index ∧ fields[index]? = some field ∧
      field.kept force = some content := by
  induction fields generalizing first with
  | nil => simp [slots] at hslot
  | cons head fields ih =>
      unfold slots at hslot
      cases hkept : head.kept force with
      | none =>
          rw [hkept] at hslot
          obtain ⟨index, field, content, hplace, hfield, hfilled⟩ := ih hslot
          exact ⟨index + 1, field, content, by omega, by simpa using hfield, hfilled⟩
      | some content =>
          rw [hkept] at hslot
          simp only [List.map_cons, List.mem_cons] at hslot
          rcases hslot with rfl | hlater
          · exact ⟨0, head, content, rfl, rfl, hkept⟩
          · obtain ⟨index, field, content, hplace, hfield, hfilled⟩ := ih hlater
            exact ⟨index + 1, field, content, by omega, by simpa using hfield, hfilled⟩

/-- A field that is left out leaves the slot of its place empty. -/
theorem not_mem_slots {force : Bool} {fields : List Field} {field : Field} {index : ℕ}
    (hfield : fields[index]? = some field) (hkept : field.kept force = none) :
    index ∉ (slots force 0 fields).map Prod.fst := by
  intro hslot
  obtain ⟨other, field', content, hplace, hfield', hfilled⟩ := of_mem_slots hslot
  obtain rfl : index = other := by omega
  obtain rfl : field = field' := by simpa [hfield] using hfield'
  rw [hkept] at hfilled
  cases hfilled

end Field

/-! ## Reading slots -/

section

variable {window : Window} {offset index : ℕ} {force : Bool} {fields : List Field}

/-- A scalar field reads as its stored value, or as the default that it was left out for. -/
theorem scalar_eq_of_field
    (htable : TableAt window.toList offset (Field.slots force 0 fields)) {type : Scalar}
    {value default : type.Value} (hfield : fields[index]? = some (.scalar type value default)) :
    Table.scalar ⟨window, (window.length - offset : ℕ)⟩ type index default
      = .ok (if force || !type.same value default then type.stored value else default) := by
  by_cases hkept : (force || !type.same value default) = true
  · have hcontent : Field.kept force (.scalar type value default) = some (.scalar type value) :=
      if_pos hkept
    have hmem := Field.mem_slots hfield hcontent 0
    rw [Nat.zero_add] at hmem
    rw [if_pos hkept]
    exact (htable.holds hmem).gives default
  · have hnone : Field.kept force (.scalar type value default) = none := if_neg hkept
    have hmissing := Field.not_mem_slots hfield hnone
    rw [if_neg hkept]
    exact (htable.lacks hmissing).scalar type default

/-- A reference field that refers to nothing is absent. -/
theorem lacks_of_field
    (htable : TableAt window.toList offset (Field.slots force 0 fields))
    (hfield : fields[index]? = some (.reference 0)) :
    Table.Lacks ⟨window, (window.length - offset : ℕ)⟩ index := by
  have hnone : Field.kept force (.reference 0) = none := rfl
  exact htable.lacks (Field.not_mem_slots hfield hnone)

/-- A reference field holds a reference to its target. -/
theorem holds_of_field
    (htable : TableAt window.toList offset (Field.slots force 0 fields)) {target : ℕ}
    (hpositive : 0 < target) (hfield : fields[index]? = some (.reference (target : Number))) :
    Table.Holds ⟨window, (window.length - offset : ℕ)⟩ index (.reference target) := by
  have hpresent : Number.equals (target : Number) 0 = false := by
    change Number.equals (.ofInt target) (.ofInt 0) = false
    rw [Number.equals_ofInt]
    simpa using Nat.ne_of_gt hpositive
  have hcontent : Field.kept force (.reference (target : Number)) = some (.reference target) := by
    simp [Field.kept, hpresent]
  have hmem := Field.mem_slots hfield hcontent 0
  rw [Nat.zero_add] at hmem
  exact htable.holds hmem

theorem leadsTo_of_field
    (htable : TableAt window.toList offset (Field.slots force 0 fields)) {target : ℕ}
    (hpositive : 0 < target) (hfield : fields[index]? = some (.reference (target : Number))) :
    Table.LeadsTo ⟨window, (window.length - offset : ℕ)⟩ index (window.length - target) :=
  (holds_of_field htable hpositive hfield).position

/-! ## Optional children -/

/-- A reference to an item that may be absent: the target of an absent one is zero. -/
def Refers {α : Type} (placed : α → ℕ → Prop) (item? : Option α) (target : ℕ) : Prop :=
  match item? with
  | none => target = 0
  | some item => 0 < target ∧ placed item target

/-- A list of four-byte scalars reads as their stored values. -/
theorem scalars_eq_of_field
    (htable : TableAt window.toList offset (Field.slots force 0 fields)) {type : Scalar}
    {values? : Option (List type.Value)} {target : ℕ}
    (hfield : fields[index]? = some (.reference (target : Number)))
    (hvalues : Refers
      (fun values target => VectorAt window.toList target 4 (values.map (.scalar type)))
      values? target) :
    Table.scalars ⟨window, (window.length - offset : ℕ)⟩ type index
      = .ok (values?.map (List.map type.stored)) := by
  cases values? with
  | none =>
      obtain rfl : target = 0 := hvalues
      exact (lacks_of_field htable hfield).scalars type
  | some values =>
      obtain ⟨hpositive, hvector⟩ := hvalues
      have hslot := hvector.inSlot (leadsTo_of_field htable hpositive hfield)
      exact hslot.scalars type values rfl rfl

/-- A list of references reads as the tables that they lead to. -/
theorem tables_eq_of_field
    (htable : TableAt window.toList offset (Field.slots force 0 fields))
    (targets? : Option (List ℕ)) {target : ℕ}
    (hfield : fields[index]? = some (.reference (target : Number)))
    (htargets : Refers
      (fun targets target => VectorAt window.toList target 4 (targets.map .reference))
      targets? target) :
    Table.tables ⟨window, (window.length - offset : ℕ)⟩ index
      = .ok (targets?.map (List.map fun target => ⟨window, (window.length - target : ℕ)⟩)) := by
  cases targets? with
  | none =>
      obtain rfl : target = 0 := htargets
      exact (lacks_of_field htable hfield).tables
  | some targets =>
      obtain ⟨hpositive, hvector⟩ := htargets
      have hslot := hvector.inSlot (leadsTo_of_field htable hpositive hfield)
      exact hslot.references targets rfl rfl

/-- A string reads as its text, but for a byte order mark that the text begins with. -/
theorem string?_eq_of_field
    (htable : TableAt window.toList offset (Field.slots force 0 fields)) {text? : Option String}
    {target : ℕ} (hfield : fields[index]? = some (.reference (target : Number)))
    (htext : Refers (fun text target => StringAt window.toList target (Utf8.encode text))
      text? target) :
    Table.string? ⟨window, (window.length - offset : ℕ)⟩ index
      = .ok (text?.map Utf8.unmarked) := by
  cases text? with
  | none =>
      obtain rfl : target = 0 := htext
      exact (lacks_of_field htable hfield).text
  | some text =>
      obtain ⟨hpositive, hstring⟩ := htext
      have hdecoded := Utf8.decode?_encode_unmarked text
      exact hstring.holds.slot _ _ _ (leadsTo_of_field htable hpositive hfield) hdecoded

/-- A reference to a table reads as that table. -/
theorem table?_eq_of_field
    (htable : TableAt window.toList offset (Field.slots force 0 fields)) {α : Type}
    {placed : α → ℕ → Prop} {item? : Option α} {target : ℕ}
    (hfield : fields[index]? = some (.reference (target : Number)))
    (hitem : Refers placed item? target) :
    Table.table? ⟨window, (window.length - offset : ℕ)⟩ index
      = .ok (item?.map fun _ => ⟨window, (window.length - target : ℕ)⟩) := by
  cases item? with
  | none =>
      obtain rfl : target = 0 := hitem
      exact (lacks_of_field htable hfield).reference
  | some item =>
      obtain ⟨hpositive, -⟩ := hitem
      exact (holds_of_field htable hpositive hfield).gives

/-- The tag of a union is the byte that its field reads as. -/
theorem unionTag_of_scalar {table : Table} {slot : Number} {tag : ℕ}
    (hscalar : table.scalar .uint8 slot (0 : Number) = .ok (tag : Number)) :
    table.unionTag slot = .ok tag := by
  unfold Table.scalar at hscalar
  unfold Table.unionTag
  change (table.fieldPosition? slot 1 >>= _) = _ at hscalar
  cases hposition : table.fieldPosition? slot 1 with
  | error cause =>
      rw [hposition] at hscalar
      cases hscalar
  | ok position? =>
      rw [hposition] at hscalar
      cases position? with
      | none =>
          have hzero : (0 : Number) = (tag : Number) := Except.ok.inj hscalar
          have hnumber : ((0 : ℕ) : ℤ) = (tag : ℤ) := Number.ofInt_injective hzero
          obtain rfl : 0 = tag := by exact_mod_cast hnumber
          rfl
      | some position =>
          simp only [bind, Except.bind, Window.read] at hscalar ⊢
          cases hword : table.window.readWord Scalar.uint8.width position with
          | error cause =>
              rw [hword] at hscalar
              cases hscalar
          | ok word =>
              rw [hword] at hscalar
              have hstored : Number.ofInt (word : ℤ) = (tag : Number) := Except.ok.inj hscalar
              have hnumber : (word : ℤ) = (tag : ℤ) := Number.ofInt_injective hstored
              change table.window.readWord 1 position = _
              obtain rfl : word = tag := by exact_mod_cast hnumber
              exact hword

/-- A union reads as the code of its tag and the position of its payload. -/
theorem union?_eq_of_field
    (htable : TableAt window.toList offset (Field.slots force 0 fields)) {α τ : Type} [Tag τ]
    [LawfulUnion τ] {placed : α → ℕ → Prop} {item? : Option α} {target : ℕ} (kind : α → τ)
    (htag : fields[index]? = some (tagField (item?.map kind)))
    (hfield : fields[index + 1]? = some (.reference (target : Number)))
    (hitem : Refers placed item? target) :
    Table.union? ⟨window, (window.length - offset : ℕ)⟩ index
      = .ok (item?.map fun item => ⟨Tag.code (kind item), window.length - target⟩) := by
  have hscalar := scalar_eq_of_field htable htag
  have hslot : Table.nextSlot (index : Number) = ((index + 1 : ℕ) : Number) := by
    simp [Table.nextSlot]
  cases item? with
  | none =>
      obtain rfl : target = 0 := hitem
      have hzero : (if (force || !Scalar.uint8.same (0 : Number) (0 : Number)) = true then
          Scalar.uint8.stored (0 : Number) else (0 : Number)) = ((0 : ℕ) : Number) := by
        split <;> rfl
      rw [Option.map_none, tagCode, hzero] at hscalar
      have hnext := (lacks_of_field htable hfield).position 4
      simp only [Table.union?, unionTag_of_scalar hscalar, Table.unionPayload, hslot, hnext, bind,
        Except.bind]
      rfl
  | some item =>
      obtain ⟨hpositive, -⟩ := hitem
      have hlow := LawfulUnion.code_pos (kind item)
      obtain ⟨position, hposition, htarget⟩ := leadsTo_of_field htable hpositive hfield
      have hkept :
          (force || !Scalar.uint8.same (Tag.code (kind item) : Number) (0 : Number)) = true := by
        have hsame : Scalar.uint8.same (Tag.code (kind item) : Number) (0 : Number) = false := by
          change Number.equals (.ofInt (Tag.code (kind item) : ℕ)) (.ofInt 0) = false
          rw [Number.equals_ofInt]
          simpa using Nat.ne_of_gt hlow
        simp [hsame]
      have hstored : Scalar.uint8.stored (Tag.code (kind item) : Number)
          = (Tag.code (kind item) : Number) := by
        simp only [Scalar.stored, Number.toInt?_natCast, Option.getD_some]
        rfl
      rw [Option.map_some, tagCode, if_pos hkept, hstored] at hscalar
      have htagged : ¬Tag.code (kind item) = 0 := by omega
      simp only [Table.union?, unionTag_of_scalar hscalar, Table.unionPayload, hslot, hposition,
        bind, Except.bind, if_neg htagged, htarget]
      rfl

end

end GraphWire

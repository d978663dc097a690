import GraphWire.Proofs.Model.Composition
import GraphWire.Proofs.Model.Writing
import GraphWire.Proofs.Schema.Tag

/-!
# Writing attribute records

A record is written and read by one recursion over its fields, so the statement about it is one
induction: each value is written as a field from which the reader gets the value back.
-/

namespace GraphWire

/-- The code of a member that stands for a number is what an integer type keeps of the number. -/
theorem Scalar.stored_of_member {α : Type} [Tag α] {type : IntegerType} {number : Number}
    (hfits : (Scalar.integer type).Fits number) (hmember : Tag.isMember α number = true) :
    ∃ member : α, (Scalar.integer type).stored number = (Tag.code member : Number) := by
  obtain ⟨value, hvalue⟩ : ∃ value, type.value? number = some value :=
    Option.isSome_iff_exists.mp hfits
  obtain ⟨hinteger, -⟩ := Option.filter_eq_some_iff.mp hvalue
  obtain ⟨member, hfound⟩ := Option.isSome_iff_exists.mp hmember
  rw [Tag.ofNumber?_of_toInt? hinteger] at hfound
  refine ⟨member, ?_⟩
  simp only [Scalar.stored, hinteger, Option.getD_some, Tag.code_of_ofNumber? hfound]
  rfl

/-- The number of a member is taken for that member. -/
theorem Table.member_code {α : Type} [Tag α] [LawfulTag α] (table : Table) (what : String)
    (member : α) : table.member what (Tag.code member : Number) = .ok member := by
  rw [Table.member, LawfulTag.ofNumber?_code]

/-- An integer field whose default is zero reads as what is kept of its value. -/
theorem integer_eq_of_field {window : Window} {offset index : ℕ} {force : Bool}
    {fields : List Field} (htable : TableAt window.toList offset (Field.slots force 0 fields))
    {type : IntegerType} {value : Number}
    (hfield : fields[index]? = some (.scalar (.integer type) value (0 : Number))) :
    Table.scalar ⟨window, (window.length - offset : ℕ)⟩ (.integer type) index (0 : Number)
      = .ok ((Scalar.integer type).stored value) := by
  rw [scalar_eq_of_field htable hfield]
  split
  · rfl
  · next hkept =>
      have hsame : (Scalar.integer type).same value (0 : Number) = true := by simp_all
      exact congrArg Except.ok (Scalar.unsigned_stored_of_same_zero hsame).symm

namespace AttrType

/-- The numbers of a list fit; those of a scalar are looked at when the table is written. -/
def ListFits : (type : AttrType) → Option type.Value → Prop
  | .indices, value => ∀ indices ∈ value, ∀ index ∈ indices, Scalar.uint32.Fits index
  | _, _ => True

/-- What is written for the value of an attribute field. -/
def WrittenAs (bytes : List UInt8) : (type : AttrType) → Option type.Value → Field → Prop
  | .scalar type, value, field => field = .scalar type (value.getD type.zero) type.zero
  | .padMode, value, field => field = .scalar .int8 (value.getD (0 : Number)) (0 : Number)
  | .indices, value, field => ∃ target : ℕ, field = .reference (target : Number) ∧
      Refers (fun indices target => VectorAt bytes target 4 (indices.map (.scalar .uint32)))
        value target

theorem WrittenAs.mono {bytes more : List UInt8} {type : AttrType} {value : Option type.Value}
    {field : Field} (hwritten : type.WrittenAs bytes value field) (hsuffix : bytes <:+ more) :
    type.WrittenAs more value field := by
  cases type with
  | scalar type => exact hwritten
  | padMode => exact hwritten
  | indices =>
      obtain ⟨target, hfield, hindices⟩ := hwritten
      exact ⟨target, hfield, hindices.imp fun _ _ hvector => hvector.mono hsuffix⟩

/-- With its list the value of a field fits exactly when what is written for it does. -/
theorem WrittenAs.fits_iff {bytes : List UInt8} {type : AttrType} {value : Option type.Value}
    {field : Field} (hwritten : type.WrittenAs bytes value field) (force : Bool) :
    type.ListFits value ∧ field.Fits force ↔ type.Fits value := by
  cases type with
  | scalar type =>
      obtain rfl := hwritten
      exact (Iff.of_eq (true_and _)).trans Build.fits_scalar_iff
  | padMode =>
      obtain rfl := hwritten
      exact (Iff.of_eq (true_and _)).trans Build.fits_scalar_iff
  | indices =>
      obtain ⟨target, rfl, -⟩ := hwritten
      exact Iff.of_eq (and_true _)

/-- Each field is ready for its table once what it refers to is written. -/
theorem writeField_writes {before : Builder} (hready : before.Ready) (type : AttrType)
    (value : Option type.Value) :
    Build.Writes (type.writeField value) before True (type.ListFits value)
      (before.written.size + type.room value)
      fun field after => before.Follows after ∧ field.Ready after.written.size ∧
        type.WrittenAs after.written.bytes value field := by
  cases type with
  | scalar type =>
      exact Build.Writes.pure ⟨.refl hready, trivial, rfl⟩ fun _ => Nat.le_add_right _ _
  | padMode => exact Build.Writes.pure ⟨.refl hready, trivial, rfl⟩ fun _ => Nat.le_add_right _ _
  | indices =>
      apply (Build.words_writes hready .uint32 rfl value).imp
      rintro _ after ⟨target, rfl, hfollows, hwithin, hindices⟩
      exact ⟨hfollows, Build.ready_of_refers hindices hwithin, target, rfl, hindices⟩

/-- A field that is written for a value is read as what is kept of the value. -/
theorem WrittenAs.read_eq {window : Window} {offset slot : ℕ} {force : Bool} {fields : List Field}
    (htable : TableAt window.toList offset (Field.slots force 0 fields)) {type : AttrType}
    {value : Option type.Value} {field : Field} (hfield : fields[slot]? = some field)
    (hwritten : type.WrittenAs window.toList value field) (hfits : type.Fits value)
    (hlegible : type.Legible value) :
    type.read ⟨window, (window.length - offset : ℕ)⟩ slot = .ok (type.kept force value) := by
  cases type with
  | scalar type =>
      obtain rfl := hwritten
      exact congrArg (some <$> ·) (scalar_eq_of_field htable hfield)
  | padMode =>
      obtain rfl := hwritten
      obtain ⟨mode, hmode⟩ : ∃ mode : PadMode, Scalar.int8.stored (value.getD (0 : Number))
          = (Tag.code mode : Number) := by
        cases value with
        | none => exact ⟨.same, rfl⟩
        | some number => exact Scalar.stored_of_member hfits (hlegible number rfl)
      simp only [AttrType.read, integer_eq_of_field htable hfield, bind, Except.bind, hmode,
        Table.member_code, kept]
      rfl
  | indices =>
      obtain ⟨target, rfl, hindices⟩ := hwritten
      exact scalars_eq_of_field htable hfield hindices

theorem Fits.lists {type : AttrType} {value : Option type.Value} (hfits : type.Fits value) :
    type.ListFits value := by
  cases type with
  | scalar type => trivial
  | padMode => trivial
  | indices => exact hfits

end AttrType

namespace AttrRecord

theorem All.imp {holds holds' : (type : AttrType) → Option type.Value → Prop}
    {fields : List AttrField} {record : AttrRecord fields} (hall : record.All holds)
    (himplies : ∀ {type : AttrType} {value}, holds type value → holds' type value) :
    record.All holds' := by
  induction record with
  | nil => trivial
  | cons value rest ih => exact ⟨himplies hall.1, ih hall.2⟩

/-- What is written for the values of a record. -/
def WrittenAs (bytes : List UInt8) :
    {fields : List AttrField} → AttrRecord fields → List Field → Prop
  | [], .nil, written => written = []
  | head :: _, .cons value rest, written => ∃ field others, written = field :: others ∧
      head.type.WrittenAs bytes value field ∧ rest.WrittenAs bytes others

theorem WrittenAs.mono {bytes more : List UInt8} {fields : List AttrField}
    {record : AttrRecord fields} {written : List Field} (hwritten : record.WrittenAs bytes written)
    (hsuffix : bytes <:+ more) : record.WrittenAs more written := by
  induction record generalizing written with
  | nil => exact hwritten
  | cons value rest ih =>
      obtain ⟨field, others, hcons, hfirst, hothers⟩ := hwritten
      exact ⟨field, others, hcons, hfirst.mono hsuffix, ih hothers⟩

theorem WrittenAs.length_eq {bytes : List UInt8} {fields : List AttrField}
    {record : AttrRecord fields} {written : List Field}
    (hwritten : record.WrittenAs bytes written) : written.length = fields.length := by
  induction record generalizing written with
  | nil =>
      obtain rfl := hwritten
      rfl
  | cons value rest ih =>
      obtain ⟨field, others, rfl, -, hothers⟩ := hwritten
      rw [List.length_cons, List.length_cons, ih hothers]

theorem WrittenAs.fits_iff {bytes : List UInt8} {fields : List AttrField}
    {record : AttrRecord fields} {written : List Field}
    (hwritten : record.WrittenAs bytes written) (force : Bool) :
    record.All AttrType.ListFits ∧ (∀ field ∈ written, field.Fits force)
      ↔ record.All AttrType.Fits := by
  induction record generalizing written with
  | nil =>
      obtain rfl := hwritten
      simp [All]
  | cons value rest ih =>
      obtain ⟨field, others, rfl, hfirst, hothers⟩ := hwritten
      rw [List.forall_mem_cons, All, All, ← ih hothers, ← hfirst.fits_iff force]
      exact and_and_and_comm

/-- The lists of a record are written one after the other, the first in front. -/
theorem writeFields_writes {fields : List AttrField} (record : AttrRecord fields)
    {before : Builder} (hready : before.Ready) :
    Build.Writes record.writeFields before True (record.All AttrType.ListFits)
      (before.written.size + record.room)
      fun written after => before.Follows after ∧
        (∀ field ∈ written, field.Ready after.written.size) ∧
        record.WrittenAs after.written.bytes written := by
  induction record generalizing before with
  | nil =>
      exact Build.Writes.pure ⟨.refl hready, by simp, rfl⟩ fun _ => Nat.le_add_right _ _
  | @cons head fields value rest ih =>
      unfold writeFields
      have hfirst := head.type.writeField_writes hready value
      apply hfirst.bind (by simp only [room]; omega)
      rintro field middle ⟨hfollows, hfield, hwritten⟩ hbound
      have hmiddle := hbound trivial
      have hothers := (ih hfollows.ready).of_bound
        (show middle.written.size + rest.room
          ≤ before.written.size + (head.type.room value + rest.room) by omega)
      apply hothers.bind_pure
      rintro others after ⟨hfollows', hready', hwritten'⟩
      have hsize := hfollows'.size_le
      refine ⟨hfollows.trans hfollows', ?_, field, others, rfl, hwritten.mono hfollows'.suffix,
        hwritten'⟩
      intro other hother
      rcases List.mem_cons.mp hother with rfl | hlater
      · exact hfield.mono hsize
      · exact hready' other hlater

/-- A record that is written is read field by field. -/
theorem WrittenAs.read_eq {window : Window} {offset slot : ℕ} {force : Bool}
    {all written : List Field} {fields : List AttrField}
    (htable : TableAt window.toList offset (Field.slots force 0 all)) {record : AttrRecord fields}
    (hall : all.drop slot = written) (hwritten : record.WrittenAs window.toList written)
    (hfits : record.All AttrType.Fits) (hlegible : record.All AttrType.Legible) :
    AttrRecord.read ⟨window, (window.length - offset : ℕ)⟩ fields slot
      = .ok (record.map (AttrType.kept force)) := by
  induction record generalizing slot written with
  | nil => rfl
  | cons value rest ih =>
      obtain ⟨field, others, rfl, hfirst, hothers⟩ := hwritten
      obtain ⟨hfits, hfits'⟩ := hfits
      obtain ⟨hlegible, hlegible'⟩ := hlegible
      have hfield : all[slot]? = some field := by
        rw [← List.head?_drop, hall, List.head?_cons]
      have hlater : all.drop (slot + 1) = others := by
        rw [← List.drop_drop, hall]
        rfl
      have hread := hfirst.read_eq htable hfield hfits hlegible
      have hread' := ih hlater hothers hfits' hlegible'
      simp only [AttrRecord.read, hread, hread', bind, Except.bind]
      rfl

end AttrRecord

/-- Attributes are read back by a reader that knows their kind. -/
theorem Attrs.write_stores {before : Builder} (hready : before.Ready) (attrs : Attrs) :
    Build.Stores attrs.write before attrs.Fits attrs.room attrs.Legible
      (fun table => AttrsView.unpack ⟨attrs.kind, table⟩) (attrs.kept before.forceDefaults) := by
  unfold Build.Stores write
  have hfields := attrs.record.writeFields_writes hready
  apply (hfields.fitted.bind (by simp only [room]; omega) _).of_fits
    (and_iff_right_of_imp fun hfits : attrs.Fits => hfits.imp AttrType.Fits.lists)
  rintro written middle ⟨hlists, hfollows, hready', hwritten⟩ hbound
  have hmiddle := hbound trivial
  have hlength := hwritten.length_eq
  have hfew := attrs.kind.length_fields_le
  have hparent := Build.parent_writes hfollows.ready written (by omega) hready'
  apply (hparent.mono id _ _ _)
  · exact (and_iff_right hlists).symm.trans (hwritten.fits_iff _)
  · rw [hlength]
    simp only [room]
    omega
  · rintro offset after ⟨hadds, htable⟩
    refine ⟨hfollows.adds hadds, ?_⟩
    rintro hfits hlegible window hwindow
    have hplaced := hwritten.mono (hadds.suffix.trans hwindow)
    have hread := hplaced.read_eq (htable.mono hwindow) (List.drop_zero) hfits hlegible
    simp only [AttrsView.unpack, hread, bind, Except.bind, hfollows.forceDefaults]
    rfl

end GraphWire

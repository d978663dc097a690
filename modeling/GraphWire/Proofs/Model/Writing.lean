import GraphWire.Model.View
import GraphWire.Proofs.Model.Stored
import GraphWire.Proofs.Reader.Fields
import GraphWire.Proofs.Reader.Placement

/-!
# Writing the parts of a model

Each part is written after its children and read back from any buffer that ends in the bytes of that
moment.  One statement about each part says both what it does to the buffer and what is read from it
later; the statement about a part uses those about its children.
-/

namespace GraphWire

/-! ## Steps and readings -/

/-- A builder that is ready for the next object. -/
structure Builder.Ready (builder : Builder) : Prop where
  sound : builder.Sound
  idle : builder.phase = .idle

/-- A builder after some objects, or none, have been added. -/
structure Builder.Follows (before after : Builder) : Prop where
  suffix : before.written.bytes <:+ after.written.bytes
  forceDefaults : after.forceDefaults = before.forceDefaults
  ready : after.Ready
  modest : ∀ ⦃most⦄, 3 ≤ most → before.Modest 0 most → after.Modest 0 most

namespace Builder

variable {before middle after : Builder} {offset : ℕ}

theorem Follows.refl (hready : before.Ready) : before.Follows before :=
  ⟨List.suffix_refl _, rfl, hready, fun _ _ => id⟩

theorem Follows.trans (hfirst : before.Follows middle) (hsecond : middle.Follows after) :
    before.Follows after where
  suffix := hfirst.suffix.trans hsecond.suffix
  forceDefaults := hsecond.forceDefaults.trans hfirst.forceDefaults
  ready := hsecond.ready
  modest := fun _ hmost hbefore => hsecond.modest hmost (hfirst.modest hmost hbefore)

theorem Follows.size_le (hfollows : before.Follows after) :
    before.written.size ≤ after.written.size := by
  rw [before.written.size_eq, after.written.size_eq]
  exact hfollows.suffix.length_le

theorem Adds.follows (hadds : before.Adds offset after) : before.Follows after where
  suffix := hadds.suffix
  forceDefaults := hadds.forceDefaults
  ready := ⟨hadds.sound, hadds.idle⟩
  modest := fun _ hmost hbefore => (hadds.modest hmost hbefore).mono (Nat.zero_le 2)

theorem Follows.adds (hfirst : before.Follows middle) (hsecond : middle.Adds offset after) :
    before.Adds offset after where
  suffix := hfirst.suffix.trans hsecond.suffix
  idle := hsecond.idle
  forceDefaults := hsecond.forceDefaults.trans hfirst.forceDefaults
  sound := hsecond.sound
  modest := fun _ hmost hbefore => hsecond.modest hmost (hfirst.modest hmost hbefore)
  positive := hsecond.positive
  within := hsecond.within

end Builder

/-- Reading the table at an offset gives a value, in every buffer that ends in some bytes. -/
def Reads {α : Type} (bytes : List UInt8) (read : Table → Except Malformed α) (value : α)
    (offset : ℕ) : Prop :=
  ∀ window : Window, bytes <:+ window.toList →
    read ⟨window, (window.length - offset : ℕ)⟩ = .ok value

theorem Reads.mono {α : Type} {bytes more : List UInt8} {read : Table → Except Malformed α}
    {value : α} {offset : ℕ} (hreads : Reads bytes read value offset)
    (hsuffix : bytes <:+ more) : Reads more read value offset :=
  fun window hwindow => hreads window (hsuffix.trans hwindow)

theorem Refers.imp {α : Type} {placed placed' : α → ℕ → Prop} {item? : Option α} {target : ℕ}
    (hrefers : Refers placed item? target)
    (himplies : ∀ item ∈ item?, placed item target → placed' item target) :
    Refers placed' item? target := by
  cases item? with
  | none => exact hrefers
  | some item => exact ⟨hrefers.1, himplies item rfl hrefers.2⟩

/-- A list of numbers that is referred to stays where it is. -/
theorem Refers.vector_mono {bytes more : List UInt8} {type : Scalar}
    {values? : Option (List type.Value)} {target : ℕ}
    (hvalues : Refers (fun values target => VectorAt bytes target 4 (values.map (.scalar type)))
      values? target) (hsuffix : bytes <:+ more) :
    Refers (fun values target => VectorAt more target 4 (values.map (.scalar type))) values?
      target :=
  hvalues.imp fun _ _ hvector => hvector.mono hsuffix

namespace Build

variable {before : Builder}

/-- A reference may be written as soon as what it refers to is there. -/
theorem ready_of_refers {α : Type} {placed : α → ℕ → Prop} {item? : Option α} {target size : ℕ}
    (hrefers : Refers placed item? target) (hwithin : target ≤ size) :
    Field.Ready size (.reference (target : Number)) := by
  intro hpresent
  refine ⟨target, Number.toNat?_natCast target, ?_, hwithin⟩
  cases item? with
  | none =>
      obtain rfl : target = 0 := hrefers
      cases hpresent
  | some item => exact hrefers.1

/-- A child that is present is written first, and the field refers to it. -/
theorem reference_writes {α : Type} {item? : Option α} {write : α → Build ℕ} {fits : α → Prop}
    {room : α → ℕ} (placed : List UInt8 → α → ℕ → Prop) (hready : before.Ready)
    (hwrite : ∀ item ∈ item?, Writes (write item) before True (fits item)
      (before.written.size + room item)
      fun offset after => before.Adds offset after ∧ placed after.written.bytes item offset) :
    Writes (reference (item?.map write)) before True (∀ item ∈ item?, fits item)
      (before.written.size + (item?.map room).getD 0)
      fun field after => ∃ target : ℕ, field = .reference (target : Number) ∧
        before.Follows after ∧ target ≤ after.written.size ∧
        Refers (placed after.written.bytes) item? target := by
  cases item? with
  | none =>
      apply (Writes.pure ⟨0, rfl, .refl hready, Nat.zero_le _, rfl⟩ _).of_fits
      · simp
      · simp
  | some item =>
      apply Writes.of_fits _ (show fits item ↔ ∀ other ∈ some item, fits other by simp)
      apply (hwrite item rfl).bind_pure
      rintro offset after ⟨hadds, hplaced⟩
      exact ⟨offset, rfl, hadds.follows, hadds.within, hadds.positive, hplaced⟩

/-- A list of four-byte numbers that may be absent. -/
theorem words_writes (hready : before.Ready) (type : Scalar) (hwidth : type.width = 4)
    (values? : Option (List type.Value)) :
    Writes (reference (values?.map (scalars type))) before True
      (∀ values ∈ values?, ∀ value ∈ values, type.Fits value)
      (before.written.size + wordsRoom values?)
      fun field after => ∃ target : ℕ, field = .reference (target : Number) ∧
        before.Follows after ∧ target ≤ after.written.size ∧
        Refers (fun values target =>
          VectorAt after.written.bytes target 4 (values.map (.scalar type))) values? target := by
  apply reference_writes (fun bytes (values : List type.Value) target =>
    VectorAt bytes target 4 (values.map (.scalar type))) hready
  intro values _
  have hvector := (scalarElement type).vector_writes values hready.sound
  simp only [scalarElement, hwidth] at hvector
  unfold scalars
  rw [hwidth]
  exact (hvector.of_legal fun _ => ⟨hready.idle, fun _ _ => trivial⟩).of_bound (by omega)

/-- A string that may be absent. -/
theorem text_writes (hready : before.Ready) (text? : Option String) :
    Writes (reference (text?.map string)) before True True
      (before.written.size + (text?.map fun text => (Utf8.encode text).length + 22).getD 0)
      fun field after => ∃ target : ℕ, field = .reference (target : Number) ∧
        before.Follows after ∧ target ≤ after.written.size ∧
        Refers (fun text target => StringAt after.written.bytes target (Utf8.encode text))
          text? target := by
  have htext (text : String) (_ : text ∈ text?) :=
    (stringBytes_writes hready.sound (Utf8.encode text)).of_legal fun _ : True => hready.idle
  exact (reference_writes (fun bytes (text : String) target =>
    StringAt bytes target (Utf8.encode text)) hready htext).of_fits (iff_of_true (by simp) trivial)

/-- A table is written once its children are there. -/
theorem parent_writes (hready : before.Ready) (fields : List Field) (hfew : fields.length ≤ 1000)
    (hfields : ∀ field ∈ fields, field.Ready before.written.size) :
    Writes (table fields) before True (∀ field ∈ fields, field.Fits before.forceDefaults)
      (before.written.size + tableRoom fields.length)
      fun offset after => before.Adds offset after ∧
        TableAt after.written.bytes offset (Field.slots before.forceDefaults 0 fields) :=
  ((table_writes hready.sound fields hfew).of_legal fun _ => ⟨hready.idle, hfields⟩).of_bound
    (by unfold tableRoom; omega)

/-- A field whose default is zero fits whether or not it is kept. -/
theorem fits_scalar_iff {force : Bool} {type : Scalar} {value : type.Value} :
    Field.Fits force (.scalar type value type.zero) ↔ type.Fits value := by
  unfold Field.Fits
  cases hsame : type.same value type.zero with
  | false => simp [hsame]
  | true => simp [hsame, Scalar.fits_of_same_zero hsame]

theorem fits_integer_iff {force : Bool} {type : IntegerType} {value : Number} :
    Field.Fits force (.scalar (.integer type) value (0 : Number))
      ↔ (Scalar.integer type).Fits value :=
  fits_scalar_iff

/-- The tag of a union always fits. -/
theorem fits_tagField {force : Bool} {α : Type} [Tag α] [LawfulUnion α] (tag : Option α) :
    Field.Fits force (tagField tag) := by
  unfold tagField
  apply fits_scalar_iff.mpr
  cases tag with
  | none => exact Scalar.fits_of_same_zero rfl
  | some tag =>
      apply (Scalar.fits_natCast rfl).mpr
      exact Nat.lt_succ_of_le (LawfulUnion.code_le tag)

/-- A part of a model is written at an offset from which it can be read, if it can be read at
all. -/
def Stores {α : Type} (computation : Build ℕ) (before : Builder) (fits : Prop) (room : ℕ)
    (legible : Prop) (read : Table → Except Malformed α) (value : α) : Prop :=
  Writes computation before True fits (before.written.size + room) fun offset after =>
    before.Adds offset after ∧ (fits → legible → Reads after.written.bytes read value offset)

/-- A part that is present is written first, and the field refers to it. -/
theorem part_writes {α β : Type} {write : α → Build ℕ} {fits legible : α → Prop} {room : α → ℕ}
    {read : α → Table → Except Malformed β} {value : α → β} (hready : before.Ready)
    (hstores : ∀ item, Stores (write item) before (fits item) (room item) (legible item)
      (read item) (value item)) (item? : Option α) :
    Writes (reference (item?.map write)) before True (∀ item ∈ item?, fits item)
      (before.written.size + (item?.map room).getD 0)
      fun field after => ∃ target : ℕ, field = .reference (target : Number) ∧
        before.Follows after ∧ target ≤ after.written.size ∧
        Refers (fun item target => fits item → legible item →
          Reads after.written.bytes (read item) (value item) target) item? target :=
  reference_writes (fun bytes item target => fits item → legible item →
    Reads bytes (read item) (value item) target) hready fun item _ => hstores item

/-- The parts of a list are written one after the other, the first one first. -/
theorem mapM_writes {α : Type} {write : α → Build ℕ} {fits : α → Prop} {room : α → ℕ}
    {force : Bool} (placed : List UInt8 → α → ℕ → Prop)
    (hmono : ∀ {item offset bytes more}, placed bytes item offset → bytes <:+ more →
      placed more item offset)
    (hwrite : ∀ {before : Builder}, before.Ready → before.forceDefaults = force → ∀ item,
      Writes (write item) before True (fits item) (before.written.size + room item)
      fun offset after => before.Adds offset after ∧ placed after.written.bytes item offset)
    (items : List α) (hready : before.Ready) (hforce : before.forceDefaults = force) :
    Writes (items.mapM write) before True (∀ item ∈ items, fits item)
      (before.written.size + (items.map room).sum)
      fun offsets after => before.Follows after ∧
        (∀ offset ∈ offsets, 0 < offset ∧ offset ≤ after.written.size) ∧
        List.Forall₂ (placed after.written.bytes) items offsets := by
  induction items generalizing before with
  | nil =>
      apply (Writes.pure ⟨.refl hready, by simp, .nil⟩ _).of_fits (iff_of_true trivial (by simp))
      simp
  | cons item items ih =>
      rw [List.mapM_cons, List.map_cons, List.sum_cons, List.forall_mem_cons]
      apply (hwrite hready hforce item).bind (by omega)
      rintro offset middle ⟨hadds, hplaced⟩ hbound
      have hmiddle := hbound trivial
      have hfollows := hadds.follows
      have hlater := (ih hfollows.ready (hfollows.forceDefaults.trans hforce)).of_bound
        (show middle.written.size + (items.map room).sum
          ≤ before.written.size + (room item + (items.map room).sum) by omega)
      apply hlater.bind_pure
      rintro offsets after ⟨hfollows', hoffsets, hall⟩
      refine ⟨hfollows.trans hfollows', ?_, .cons (hmono hplaced hfollows'.suffix) hall⟩
      intro other hother
      rcases List.mem_cons.mp hother with rfl | hrest
      · exact ⟨hadds.positive, hadds.within.trans hfollows'.size_le⟩
      · exact hoffsets other hrest

/-- References to what has been written are written as a vector. -/
theorem offsets_writes (hready : before.Ready) (targets : List ℕ)
    (htargets : ∀ target ∈ targets, 0 < target ∧ target ≤ before.written.size) :
    Writes (offsets (targets.map fun (target : ℕ) => (target : Number))) before True True
      (before.written.size + 4 * targets.length + 20)
      fun offset after => before.Adds offset after ∧
        VectorAt after.written.bytes offset 4 (targets.map .reference) := by
  have hvector := offsetElement.vector_writes
    (targets.map fun (target : ℕ) => (target : Number)) hready.sound
  have hcontents : (targets.map fun (target : ℕ) => (target : Number)).map offsetElement.content
      = targets.map .reference := by
    simp [offsetElement, Function.comp_def]
  rw [hcontents, List.length_map] at hvector
  unfold offsets
  rw [List.length_map]
  apply (hvector.of_legal _).of_fits (iff_of_true (by simp [offsetElement]) trivial)
  intro _
  refine ⟨hready.idle, ?_⟩
  simp only [List.mem_map]
  rintro _ ⟨target, htarget, rfl⟩
  exact ⟨target, Number.toNat?_natCast target, htargets target htarget⟩

end Build

end GraphWire

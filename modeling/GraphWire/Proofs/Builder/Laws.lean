import GraphWire.Builder.Finish
import GraphWire.Proofs.Builder.Inversion

/-!
# Laws of operations

Every operation of a builder is a sequence of small steps: it looks at the builder, refuses what it
is asked for, makes room, writes in front, or changes what is open.  So a law that is handed on by
sequencing (`Build.Sequences`) holds of all operations that are made of steps of which it holds.
Those that only make room and write take three steps more (`Build.Prepends`), those of vectors two
more (`Build.Encloses`), and those of tables one more (`Build.Operates`).
-/

namespace GraphWire

/-- An error of a caller who does not keep to the protocol or to the range of a type, as against an
argument that can never be meant. -/
def BuildError.IsMisuse : BuildError → Prop
  | .argument _ => False
  | _ => True

/-- The builder at another capacity and with other records. -/
def Builder.resized (builder : Builder) (capacity : ℕ) (log : List Event) : Builder :=
  { builder with capacity, log }

/-- A view of a builder that shows neither its capacity nor its records. -/
def Builder.Blind {γ : Type} (view : Builder → γ) : Prop :=
  ∀ builder capacity log, view (builder.resized capacity log) = view builder

namespace Build

/-- A law of computations that is handed on by sequencing.  It holds of doing nothing, of refusing
anything but an argument, and of going on with whatever a blind view shows. -/
structure Sequences (law : ∀ {α : Type}, Build α → Prop) : Prop where
  pure : ∀ {α : Type} (value : α), law (Pure.pure value)
  throw : ∀ {α : Type} {error : BuildError}, error.IsMisuse →
    law (MonadExcept.throw error : Build α)
  /-- A second step is only ever taken with a value that the first one gives. -/
  step : ∀ {α β : Type} {first : Build α} {next : α → Build β}, law first →
    (∀ ⦃before value after⦄, first before = .ok value after → law (next value)) →
      law (first >>= next)
  look : ∀ {α : Type} {next : Builder → Build α}, Builder.Blind next →
    (∀ builder, law (next builder)) → law (MonadState.get >>= next)

/-- A law that also holds of making room and of writing in front. -/
structure Prepends (law : ∀ {α : Type}, Build α → Prop) : Prop extends Sequences law where
  ensureCapacity : ∀ required, law (Build.ensureCapacity required)
  push : ∀ bytes, law (Build.push bytes)
  noteAlignment : ∀ alignment, law (Build.noteAlignment alignment)

/-- A law that also holds of closing whatever is open and of opening a vector. -/
structure Encloses (law : ∀ {α : Type}, Build α → Prop) : Prop extends Prepends law where
  close : law (modify fun builder => { builder with phase := .idle })
  enclose : ∀ opened : Builder → OpenVector, Builder.Blind opened →
    law (modify fun builder => { builder with phase := .vector (opened builder) })

/-- Whether a law holds of refusing an argument. -/
def Rejects (law : ∀ {α : Type}, Build α → Prop) : Prop :=
  ∀ cause, law (MonadExcept.throw (.argument cause) : Build Unit)

/-- Whether a law holds of every change of the open table. -/
def Tabulates (law : ∀ {α : Type}, Build α → Prop) : Prop :=
  ∀ opened : Builder → OpenTable, Builder.Blind opened →
    law (modify fun builder => { builder with phase := .table (opened builder) })

/-- A law that holds of all steps. -/
structure Operates (law : ∀ {α : Type}, Build α → Prop) : Prop extends Encloses law where
  tabulates : Tabulates law

variable {law : ∀ {α : Type}, Build α → Prop} {α β : Type}

/-! ## Sequences -/

/-- Closing a vector, step by step. -/
theorem endVector_eq : (endVector : Build ℕ) = (do
    match (← get).phase with
    | .vector opened =>
        let written := (← get).offset - opened.start
        if opened.byteLength.toNat? ≠ some written then
          throw (.vectorSize opened.count opened.byteLength written)
        modify fun builder => { builder with phase := .idle }
        write .uint32 opened.count
        return (← get).offset
    | _ => throw .noOpenVector) := by
  funext before
  unfold endVector
  rw [get_bind_apply, get_bind_apply]
  cases before.phase with
  | idle | table _ | finished => rfl
  | vector opened =>
      dsimp only
      rw [get_bind_apply]
      split <;> rfl

/-- Noting a value, step by step. -/
theorem noteEntry_eq (slot : ℕ) : (noteEntry slot : Build Unit) = (do
    match (← get).phase with
    | .table opened =>
        modify fun builder =>
          let entries := (slot, builder.offset) :: opened.entries
          { builder with phase := .table { opened with entries } }
    | _ => return) := by
  funext before
  unfold noteEntry
  rw [get_bind_apply, get_bind_apply]
  cases before.phase <;> rfl

theorem field_of_writes (hwrite : ∀ type value, law (write type value))
    (hoffset : ∀ target, law (writeOffset target)) (field : Field) : law field.write := by
  cases field with
  | scalar type value default => exact hwrite type value
  | reference target => exact hoffset target

namespace Sequences

theorem bind (hlaw : Sequences law) {first : Build α} {next : α → Build β} (hfirst : law first)
    (hnext : ∀ value, law (next value)) : law (first >>= next) :=
  hlaw.step hfirst fun _ value _ _ => hnext value

/-- A step that is taken or left out. -/
theorem optional (hlaw : Sequences law) {condition : Prop} [Decidable condition]
    {extra : Build Unit} {next : Build α} (hextra : law extra) (hnext : law next) :
    law (if condition then extra >>= fun _ => next else next) := by
  split
  · exact hlaw.bind hextra fun _ => hnext
  · exact hnext

theorem requireWritable (hlaw : Sequences law) : law Build.requireWritable := by
  apply hlaw.look fun _ _ _ => rfl
  intro builder
  split
  · exact hlaw.throw trivial
  · exact hlaw.pure ()

theorem requireIdle (hlaw : Sequences law) (what : Opening) : law (Build.requireIdle what) := by
  apply hlaw.look fun _ _ _ => rfl
  intro builder
  cases builder.phase with
  | table opened => exact hlaw.throw trivial
  | vector opened => exact hlaw.throw trivial
  | idle => exact hlaw.pure ()
  | finished => exact hlaw.pure ()

/-- What begins an object only looks at the builder up to there. -/
theorem begins (hlaw : Sequences law) {what : Opening} {next : Build α} (hnext : law next) :
    law (do Build.requireWritable; Build.requireIdle what; next) :=
  hlaw.bind hlaw.requireWritable fun _ => hlaw.bind (hlaw.requireIdle what) fun _ => hnext

theorem writeOffset (hlaw : Sequences law) (hreserve : law (reserve Layout.offsetWidth 0))
    (hwrite : ∀ type value, law (write type value)) (target : Number) :
    law (Build.writeOffset target) := by
  apply hlaw.bind hreserve
  intro _
  apply hlaw.look fun _ _ _ => rfl
  intro builder
  dsimp only
  split
  · exact hwrite _ _
  · exact hlaw.throw trivial

theorem writeAll (hlaw : Sequences law) {writeOne : α → Build Unit}
    (hwrite : ∀ item, law (writeOne item)) (items : List α) :
    law (Build.writeAll writeOne items) := by
  induction items with
  | nil => exact hlaw.pure ()
  | cons item items ih => exact hlaw.bind ih fun _ => hwrite item

theorem addFields (hlaw : Sequences law) (hadd : ∀ slot field, law (addField slot field))
    (slot : ℕ) (fields : List Field) : law (Build.table.addFields slot fields) := by
  induction fields generalizing slot with
  | nil => exact hlaw.pure ()
  | cons field fields ih => exact hlaw.bind (ih (slot + 1)) fun _ => hadd _ _

theorem table (hlaw : Sequences law) {fields : List Field}
    (hstart : law (startTable fields.length)) (hadd : ∀ slot field, law (addField slot field))
    (hend : law endTable) : law (Build.table fields) :=
  hlaw.bind hstart fun _ => hlaw.bind (hlaw.addFields hadd 0 fields) fun _ => hend

theorem vectorOf (hlaw : Sequences law) {width count : ℕ} {elements : Build Unit}
    (hopen : law (openVector count (width * count : ℕ) width)) (helements : law elements)
    (hend : law endVector) : law (Build.vectorOf width count elements) :=
  hlaw.begins (hlaw.bind hopen fun _ => hlaw.bind helements fun _ => hend)

theorem startTable (hlaw : Sequences law) (htabulates : Tabulates law) (hrejects : Rejects law)
    (fieldCount : Number) : law (Build.startTable fieldCount) := by
  apply hlaw.begins
  cases fieldCount.toNat? with
  | none => exact hrejects _
  | some count =>
      exact hlaw.optional (hrejects _)
        (htabulates (fun builder => ⟨count, builder.written.size, count, []⟩) fun _ _ _ => rfl)

theorem takeSlot (hlaw : Sequences law) (htabulates : Tabulates law) (slot : Number) :
    law (Build.takeSlot slot) := by
  apply hlaw.look fun _ _ _ => rfl
  intro builder
  cases builder.phase with
  | idle | vector _ | finished => exact hlaw.throw trivial
  | table opened =>
      dsimp only
      split
      · exact hlaw.throw trivial
      · next index _ =>
          have htaken := htabulates (fun _ => { opened with limit := index }) fun _ _ _ => rfl
          apply hlaw.optional
          · exact hlaw.throw trivial
          · exact hlaw.bind htaken fun _ => hlaw.pure index

theorem noteEntry (hlaw : Sequences law) (htabulates : Tabulates law) (slot : ℕ) :
    law (Build.noteEntry slot) := by
  rw [noteEntry_eq]
  apply hlaw.look fun _ _ _ => rfl
  intro builder
  cases builder.phase with
  | idle | vector _ | finished => exact hlaw.pure ()
  | table opened =>
      exact htabulates
        (fun builder =>
          { opened with entries := (slot, builder.written.size) :: opened.entries })
        fun _ _ _ => rfl

theorem addField (hlaw : Sequences law) (hwrite : ∀ type value, law (write type value))
    (hoffset : ∀ target, law (Build.writeOffset target)) (htabulates : Tabulates law) (slot : Number)
    (field : Field) : law (Build.addField slot field) := by
  rw [addField_eq]
  apply hlaw.bind (hlaw.takeSlot htabulates slot)
  intro index
  apply hlaw.look fun _ _ _ => rfl
  intro builder
  split
  · exact hlaw.bind (field_of_writes hwrite hoffset field) fun _ => hlaw.noteEntry htabulates index
  · exact hlaw.pure ()

theorem endVector (hlaw : Sequences law) (hwrite : ∀ type value, law (write type value))
    (hclose : law (modify fun builder => { builder with phase := .idle })) :
    law Build.endVector := by
  rw [endVector_eq]
  apply hlaw.look fun _ _ _ => rfl
  intro builder
  cases builder.phase with
  | idle | table _ | finished => exact hlaw.throw trivial
  | vector opened =>
      apply hlaw.look fun _ _ _ => rfl
      intro builder
      apply hlaw.optional
      · exact hlaw.throw trivial
      · apply hlaw.bind hclose
        intro _
        apply hlaw.bind (hwrite _ _)
        intro _
        exact hlaw.look (fun _ _ _ => rfl) fun _ => hlaw.pure _

theorem finish (hlaw : Sequences law) (hwrite : ∀ type value, law (write type value))
    (hoffset : ∀ target, law (Build.writeOffset target)) {root : Number} {options : FinishOptions}
    (hbegin : law (beginHead options)) (hmark : law (markFinished options.identifier)) :
    law (Build.finish root options) := by
  have hsize : law writeSize := hlaw.look (fun _ _ _ => rfl) fun _ => hwrite _ _
  apply hlaw.begins
  apply hlaw.bind hbegin
  intro _
  apply hlaw.bind (hoffset root)
  intro _
  exact hlaw.optional hsize hmark

theorem bytes (hlaw : Sequences law) : law Build.bytes := by
  apply hlaw.look fun _ _ _ => rfl
  intro builder
  cases builder.phase with
  | finished => exact hlaw.pure _
  | idle | table _ | vector _ => exact hlaw.throw trivial

end Sequences

/-! ## Space -/

namespace Prepends

theorem pad (hlaw : Prepends law) (zeros required : ℕ) : law (Build.pad zeros required) :=
  hlaw.bind (hlaw.ensureCapacity required) fun _ => hlaw.push _

theorem reserve (hlaw : Prepends law) (alignment additional : ℕ) :
    law (Build.reserve alignment additional) :=
  hlaw.bind hlaw.requireWritable fun _ => hlaw.bind (hlaw.noteAlignment _) fun _ =>
    hlaw.look (fun _ _ _ => rfl) fun _ => hlaw.pad _ _

theorem prepare (hlaw : Prepends law) (alignment additional : Number) :
    law (Build.prepare alignment additional) := by
  have hwords : law (reserveWords alignment additional) :=
    hlaw.bind hlaw.requireWritable fun _ => hlaw.bind (hlaw.noteAlignment _) fun _ =>
      hlaw.look (fun _ _ _ => rfl) fun _ => hlaw.pad _ _
  unfold Build.prepare
  split
  · split
    · exact hlaw.reserve _ _
    · exact hwords
  · exact hwords

theorem write (hlaw : Prepends law) (type : Scalar) (value : type.Value) :
    law (Build.write type value) := by
  unfold Build.write
  cases type.word value with
  | ok word => exact hlaw.bind (hlaw.reserve _ _) fun _ => hlaw.push _
  | error refused => exact hlaw.throw trivial

theorem writeOffset (hlaw : Prepends law) (target : Number) : law (Build.writeOffset target) :=
  hlaw.toSequences.writeOffset (hlaw.reserve _ _) hlaw.write target

theorem field (hlaw : Prepends law) (field : Field) : law field.write :=
  field_of_writes hlaw.write hlaw.writeOffset field

/-- Closing a table takes linking it to its vtable besides. -/
theorem endTable (hlaw : Prepends law)
    (hlink : ∀ body table vtableSize, law (linkBody body table vtableSize)) :
    law Build.endTable := by
  rw [endTable_eq]
  apply hlaw.look fun _ _ _ => rfl
  intro builder
  cases builder.phase with
  | idle | vector _ | finished => exact hlaw.throw trivial
  | table opened =>
      apply hlaw.bind (hlaw.reserve _ _)
      intro _
      apply hlaw.look fun _ _ _ => rfl
      intro padded
      apply hlaw.bind (hlaw.push _)
      intro _
      apply hlaw.optional
      · exact hlaw.throw trivial
      · apply hlaw.bind (hlaw.writeAll (fun _ => hlaw.write _ _) _)
        intro _
        exact hlaw.bind (hlink _ _ _) fun _ => hlaw.pure _

/-- The head of a buffer is refused for an identifier that is none. -/
theorem beginHead (hlaw : Prepends law) (hrejects : Rejects law) (options : FinishOptions) :
    law (Build.beginHead options) := by
  apply hlaw.look fun _ _ _ => rfl
  intro builder
  cases options.identifier with
  | none => exact hlaw.prepare _ _
  | some identifier =>
      dsimp only
      split
      · exact hrejects _
      · exact hlaw.bind (hlaw.prepare _ _) fun _ => hlaw.push _

theorem finish (hlaw : Prepends law) {root : Number} {options : FinishOptions}
    (hbegin : law (Build.beginHead options)) (hmark : law (markFinished options.identifier)) :
    law (Build.finish root options) :=
  hlaw.toSequences.finish hlaw.write hlaw.writeOffset hbegin hmark

end Prepends

/-! ## Vectors and strings -/

namespace Encloses

theorem openVector (hlaw : Encloses law) (count byteLength alignment : Number) :
    law (Build.openVector count byteLength alignment) :=
  hlaw.bind (hlaw.prepare _ _) fun _ => hlaw.bind (hlaw.prepare _ _) fun _ =>
    hlaw.enclose _ fun _ _ _ => rfl

theorem startVector (hlaw : Encloses law) (hrejects : Rejects law)
    (elementSize count alignment : Number) :
    law (Build.startVector elementSize count alignment) :=
  hlaw.begins (hlaw.optional (hrejects _) (hlaw.openVector _ _ _))

theorem endVector (hlaw : Encloses law) : law Build.endVector :=
  hlaw.toSequences.endVector hlaw.write hlaw.close

theorem vectorOf (hlaw : Encloses law) (width count : ℕ) {elements : Build Unit}
    (helements : law elements) : law (Build.vectorOf width count elements) :=
  hlaw.toSequences.vectorOf (hlaw.openVector _ _ _) helements hlaw.endVector

theorem scalars (hlaw : Encloses law) (type : Scalar) (values : List type.Value) :
    law (Build.scalars type values) :=
  hlaw.vectorOf _ _ (hlaw.writeAll (hlaw.write type) values)

theorem offsets (hlaw : Encloses law) (targets : List Number) : law (Build.offsets targets) :=
  hlaw.vectorOf _ _ (hlaw.writeAll hlaw.writeOffset targets)

theorem stringBytes (hlaw : Encloses law) (bytes : List UInt8) : law (Build.stringBytes bytes) :=
  hlaw.begins (hlaw.bind (hlaw.write _ _) fun _ => hlaw.vectorOf _ _ (hlaw.push bytes))

end Encloses

/-! ## Fields -/

namespace Operates

theorem startTable (hlaw : Operates law) (hrejects : Rejects law) (fieldCount : Number) :
    law (Build.startTable fieldCount) :=
  hlaw.toSequences.startTable hlaw.tabulates hrejects fieldCount

theorem takeSlot (hlaw : Operates law) (slot : Number) : law (Build.takeSlot slot) :=
  hlaw.toSequences.takeSlot hlaw.tabulates slot

theorem noteEntry (hlaw : Operates law) (slot : ℕ) : law (Build.noteEntry slot) :=
  hlaw.toSequences.noteEntry hlaw.tabulates slot

theorem addField (hlaw : Operates law) (slot : Number) (field : Field) :
    law (Build.addField slot field) :=
  hlaw.toSequences.addField hlaw.write hlaw.writeOffset hlaw.tabulates slot field

end Operates

end Build

end GraphWire

import GraphWire.Proofs.Builder.Laws
import GraphWire.Session

/-!
# Laws of writers

The parts of a model are written by sequences of whole tables, vectors and strings.  So a law that
holds of these, and of a sequence whenever it holds of its steps (`Build.Composes`), holds of every
writer.
-/

namespace GraphWire

namespace Build

/-- A law of computations that is handed on by sequencing and holds of the writers of whole objects.
A second step is only ever taken with a value that the first one gives. -/
structure Composes (law : ∀ {α : Type}, Build α → Prop) : Prop where
  pure : ∀ {α : Type} (value : α), law (Pure.pure value)
  bind : ∀ {α β : Type} {first : Build α} {next : α → Build β}, law first →
    (∀ value, (∃ before after, first before = .ok value after) → law (next value)) →
      law (first >>= next)
  table : ∀ fields : List Field, fields.length < slotLimit → law (Build.table fields)
  scalars : ∀ (type : Scalar) (values : List type.Value), law (Build.scalars type values)
  offsets : ∀ targets : List Number, law (Build.offsets targets)
  string : ∀ text : String, law (Build.string text)

section

variable {law : ∀ {α : Type}, Build α → Prop}

/-- A law that is handed on by sequencing holds of all writers if it holds of those of whole
objects. -/
theorem Sequences.composes (hlaw : Sequences law)
    (htable : ∀ fields : List Field, fields.length < slotLimit → law (Build.table fields))
    (hscalars : ∀ (type : Scalar) (values : List type.Value), law (Build.scalars type values))
    (hoffsets : ∀ targets : List Number, law (Build.offsets targets))
    (hstring : ∀ bytes : List UInt8, law (Build.stringBytes bytes)) : Composes law where
  pure := hlaw.pure
  bind := fun hfirst hnext => hlaw.step hfirst fun before value after hresult =>
    hnext value ⟨before, after, hresult⟩
  table := htable
  scalars := hscalars
  offsets := hoffsets
  string := fun text => hstring (Utf8.encode text)

/-- Of the objects only tables take more than opening and closing a vector. -/
theorem Encloses.composes (hlaw : Encloses law)
    (htable : ∀ fields : List Field, fields.length < slotLimit → law (Build.table fields)) :
    Composes law :=
  hlaw.toSequences.composes htable hlaw.scalars hlaw.offsets hlaw.stringBytes

end

namespace Composes

variable {law : ∀ {α : Type}, Build α → Prop}

/-- A second step that obeys the law for every value. -/
theorem andThen (hlaw : Composes law) {α β : Type} {first : Build α} {next : α → Build β}
    (hfirst : law first) (hnext : ∀ value, law (next value)) : law (first >>= next) :=
  hlaw.bind hfirst fun value _ => hnext value

/-- A table of a few fields. -/
theorem few (hlaw : Composes law) {fields : List Field} (hfew : fields.length ≤ 5) :
    law (Build.table fields) :=
  hlaw.table fields (Nat.lt_of_le_of_lt hfew (by decide))

theorem map (hlaw : Composes law) {α β : Type} {computation : Build α}
    (hcomputation : law computation) (form : α → β) : law (form <$> computation) :=
  hlaw.andThen hcomputation fun value => hlaw.pure (form value)

theorem mapM (hlaw : Composes law) {α β : Type} {write : α → Build β}
    (hwrite : ∀ item, law (write item)) (items : List α) : law (items.mapM write) := by
  induction items with
  | nil => exact hlaw.pure []
  | cons item items ih =>
      rw [List.mapM_cons]
      exact hlaw.andThen (hwrite item) fun _ => hlaw.andThen ih fun _ => hlaw.pure _

/-- A child that may be absent. -/
theorem reference (hlaw : Composes law) {α : Type} {write : α → Build ℕ}
    (hwrite : ∀ child, law (write child)) (child : Option α) :
    law (Build.reference (child.map write)) := by
  cases child with
  | none => exact hlaw.pure _
  | some child => exact hlaw.andThen (hwrite child) fun _ => hlaw.pure _

end Composes

end Build

open Build

theorem AttrsKind.length_fields_le (kind : AttrsKind) : kind.fields.length ≤ 5 := by
  cases kind <;> decide

/-- A record has one field for each attribute of its kind. -/
theorem AttrRecord.length_of_writeFields {attrs : List AttrField} (record : AttrRecord attrs)
    {before after : Builder} {fields : List Field}
    (hresult : record.writeFields before = .ok fields after) : fields.length = attrs.length := by
  induction record generalizing before fields with
  | nil =>
      cases hresult
      rfl
  | cons value rest ih =>
      obtain ⟨field, middle, -, hresult⟩ := of_bind_ok hresult
      obtain ⟨others, last, hrest, hresult⟩ := of_bind_ok hresult
      cases hresult
      rw [List.length_cons, List.length_cons, ih hrest]

/-! ## Writers -/

namespace Build.Composes

variable {law : ∀ {α : Type}, Build α → Prop}

theorem writeField (hlaw : Composes law) (type : AttrType) (value : Option type.Value) :
    law (type.writeField value) := by
  cases type with
  | scalar type => exact hlaw.pure _
  | padMode => exact hlaw.pure _
  | indices => exact hlaw.reference (hlaw.scalars .uint32) value

theorem writeFields (hlaw : Composes law) {attrs : List AttrField} (record : AttrRecord attrs) :
    law record.writeFields := by
  induction record with
  | nil => exact hlaw.pure []
  | cons value rest ih =>
      exact hlaw.andThen (hlaw.writeField _ value) fun _ =>
        hlaw.andThen ih fun _ => hlaw.pure _

theorem attrs (hlaw : Composes law) (attrs : Attrs) : law attrs.write := by
  apply hlaw.bind (hlaw.writeFields attrs.record)
  rintro fields ⟨before, after, hfields⟩
  have hlength := attrs.record.length_of_writeFields hfields
  exact hlaw.few (hlength ▸ attrs.kind.length_fields_le)

theorem payload (hlaw : Composes law) (payload : Payload) : law payload.write := by
  obtain ⟨kind, data⟩ := payload
  cases kind with
  | floats =>
      exact hlaw.andThen (hlaw.reference (hlaw.scalars .float32) data) fun _ =>
        hlaw.few (by simp)
  | ints =>
      exact hlaw.andThen (hlaw.reference (hlaw.scalars .int32) data) fun _ =>
        hlaw.few (by simp)

theorem operator (hlaw : Composes law) (operator : Operator) : law operator.write := by
  apply hlaw.andThen (hlaw.reference (hlaw.scalars .uint32) _)
  intro _
  exact hlaw.andThen (hlaw.reference hlaw.attrs _) fun _ => hlaw.few (by simp)

theorem constant (hlaw : Composes law) (constant : Constant) : law constant.write := by
  apply hlaw.andThen (hlaw.reference (hlaw.scalars .uint32) _)
  intro _
  exact hlaw.andThen (hlaw.reference hlaw.payload _) fun _ => hlaw.few (by simp)

theorem valueNode (hlaw : Composes law) : law Build.valueNode :=
  hlaw.few (Nat.zero_le 5)

theorem nodeData (hlaw : Composes law) (data : NodeData) : law data.write := by
  cases data with
  | operator content => exact hlaw.operator content
  | constant content => exact hlaw.constant content
  | value => exact hlaw.valueNode

theorem node (hlaw : Composes law) (node : Node) : law node.write := by
  apply hlaw.andThen (hlaw.reference hlaw.string _)
  intro _
  exact hlaw.andThen (hlaw.reference hlaw.nodeData _) fun _ => hlaw.few (by simp)

theorem writeNodes (hlaw : Composes law) (nodes : List Node) : law (Graph.writeNodes nodes) :=
  hlaw.andThen (hlaw.mapM hlaw.node nodes) fun _ => hlaw.offsets _

theorem graph (hlaw : Composes law) (graph : Graph) : law graph.write :=
  hlaw.andThen (hlaw.reference hlaw.writeNodes _) fun _ => hlaw.few (by simp)

theorem model (hlaw : Composes law) (model : Model) : law model.write :=
  hlaw.andThen (hlaw.reference hlaw.graph _) fun _ => hlaw.few (by simp)

end Build.Composes

/-! ## Calls -/

/-- The calls of a builder's own, of which those that write a part of a model are made. -/
def Call.Basic : Call → Prop
  | .attrs _ | .payload _ | .operator _ | .constant _ | .valueNode | .node _ | .graph _
  | .model _ => False
  | _ => True

/-- Every call that writes a part of a model obeys the law. -/
theorem Build.Composes.perform {law : ∀ {α : Type}, Build α → Prop} (hlaw : Composes law)
    {call : Call} (hcall : ¬call.Basic) : law call.perform := by
  cases call with
  | attrs content => exact hlaw.map (hlaw.attrs content) _
  | payload content => exact hlaw.map (hlaw.payload content) _
  | operator content => exact hlaw.map (hlaw.operator content) _
  | constant content => exact hlaw.map (hlaw.constant content) _
  | valueNode => exact hlaw.map hlaw.valueNode _
  | node content => exact hlaw.map (hlaw.node content) _
  | graph content => exact hlaw.map (hlaw.graph content) _
  | model content => exact hlaw.map (hlaw.model content) _
  | _ => exact absurd trivial hcall

/-- A law of opening and closing obeyed by every part of the protocol is obeyed by every call. -/
theorem Build.Encloses.perform {law : ∀ {α : Type}, Build α → Prop} (hlaw : Encloses law)
    (hrejects : Rejects law) (hstart : ∀ fieldCount, law (startTable fieldCount))
    (hadd : ∀ slot field, law (addField slot field)) (hend : law endTable)
    (hmark : ∀ identifier, law (markFinished identifier)) (hclear : law clear) (call : Call) :
    law call.perform := by
  have hnothing {computation : Build Unit} (hcomputation : law computation) :
      law (Call.perform.nothing computation) :=
    hlaw.bind hcomputation fun _ => hlaw.pure _
  have hmap {α : Type} {computation : Build α} (hcomputation : law computation)
      (form : α → Answer) : law (form <$> computation) :=
    hlaw.bind hcomputation fun value => hlaw.pure (form value)
  have hcomposes := hlaw.composes fun fields _ => hlaw.table (hstart _) hadd hend
  cases call with
  | prepare alignment additional => exact hnothing (hlaw.prepare alignment additional)
  | write type value => exact hnothing (hlaw.write type value)
  | writeOffset target => exact hnothing (hlaw.writeOffset target)
  | addField slot field => exact hnothing (hadd slot field)
  | startTable fieldCount => exact hnothing (hstart fieldCount)
  | endTable => exact hmap hend _
  | startVector elementSize count alignment =>
      exact hnothing (hlaw.startVector hrejects elementSize count alignment)
  | endVector => exact hmap hlaw.endVector _
  | scalars type values => exact hmap (hlaw.scalars type values) _
  | offsets targets => exact hmap (hlaw.offsets targets) _
  | string content => exact hmap (hlaw.stringBytes content) _
  | attrs _ | payload _ | operator _ | constant _ | valueNode | node _ | graph _ | model _ =>
      exact hcomposes.perform id
  | finish root options =>
      exact hnothing (hlaw.finish (hlaw.beginHead hrejects options) (hmark _))
  | bytes => exact hmap hlaw.bytes _
  | offset => exact hlaw.look (fun _ _ _ => rfl) fun _ => hlaw.pure _
  | clear => exact hnothing hclear

end GraphWire

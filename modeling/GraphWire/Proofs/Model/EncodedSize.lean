import GraphWire.Proofs.Builder.Thrift
import GraphWire.Proofs.Model.Refusal
import GraphWire.Proofs.Session.Growth

/-!
# The size of an encoded model

Sharing vtables saves bytes, and so does leaving out fields that have their default, but neither
leaves the rest of the buffer alone: references are longer or shorter, and what is written later is
padded differently.  Each part of a model is compared with itself under settings that save less, the
table of a part by the children that come before it, and the buffer of a model is never longer than
one in which less is saved.
-/

namespace GraphWire

open Build

variable {settings settings' : BuilderSettings} {before before' : Builder}

/-! ## Parts of a model -/

namespace Build

variable {α β : Type}

/-- The items of a list one after another. -/
theorem mapM_undercuts {related : β → β → Prop} {write : α → Build β}
    (hwrite : ∀ ⦃middle middle'⦄, middle.Below settings settings' middle' → ∀ item,
      Undercuts settings settings' related (write item) (write item) middle middle')
    (hbelow : before.Below settings settings' before') (items : List α) :
    Undercuts settings settings' (List.Forall₂ related) (items.mapM write) (items.mapM write)
      before before' := by
  induction items generalizing before before' with
  | nil => exact .pure hbelow .nil
  | cons item items ih =>
      rw [List.mapM_cons]
      apply (hwrite hbelow item).bind
      intro _ _ _ _ _ _ hvalue hmiddle
      apply (ih hmiddle).bind
      intro _ _ _ _ _ _ hvalues hlast
      exact .pure hlast (.cons hvalue hvalues)

/-- A child that may be absent.  A reference to a child that is present is kept in both runs. -/
theorem reference_undercuts {write : α → Build ℕ}
    (hwrite : ∀ ⦃middle middle'⦄, middle.Below settings settings' middle' → ∀ child,
      Undercuts settings settings' (fun _ offset' => 0 < offset') (write child) (write child)
        middle middle')
    (hbelow : before.Below settings settings' before') (child? : Option α) :
    Undercuts settings settings' Field.Under (reference (child?.map write))
      (reference (child?.map write)) before before' := by
  cases child? with
  | none => exact .pure hbelow (.reference id)
  | some child =>
      apply (hwrite hbelow child).bind
      intro _ offset' _ _ _ _ hpositive hmiddle
      apply Undercuts.pure hmiddle
      apply Field.Under.reference
      intro hzero
      have hoffset := ((offset' : Number).equals_natCast 0).mp hzero
      rw [Number.toNat?_natCast, Option.some.injEq] at hoffset
      exact absurd hoffset hpositive.ne'

/-- A list of numbers that may be absent. -/
theorem words_undercuts (hbelow : before.Below settings settings' before') (type : Scalar)
    (values? : Option (List type.Value)) :
    Undercuts settings settings' Field.Under (reference (values?.map (scalars type)))
      (reference (values?.map (scalars type))) before before' :=
  reference_undercuts (fun _ _ hmiddle => scalars_undercuts hmiddle type) hbelow values?

end Build

namespace AttrType

theorem writeField_undercuts (hbelow : before.Below settings settings' before') (type : AttrType)
    (value : Option type.Value) :
    Undercuts settings settings' Field.Under (type.writeField value) (type.writeField value)
      before before' := by
  cases type with
  | scalar type => exact .pure hbelow (.scalar _ _ _)
  | padMode => exact .pure hbelow (.scalar _ _ _)
  | indices => exact words_undercuts hbelow .uint32 value

end AttrType

theorem AttrRecord.writeFields_undercuts (hbelow : before.Below settings settings' before')
    {fields : List AttrField} (record : AttrRecord fields) :
    Undercuts settings settings' (List.Forall₂ Field.Under) record.writeFields record.writeFields
      before before' := by
  induction record generalizing before before' with
  | nil => exact .pure hbelow .nil
  | cons value rest ih =>
      apply (AttrType.writeField_undercuts hbelow _ value).bind
      intro _ _ _ _ _ _ hfield hmiddle
      apply (ih hmiddle).bind
      intro _ _ _ _ _ _ hothers hlast
      exact .pure hlast (.cons hfield hothers)

section Leaner

variable (hleaner : settings.Leaner settings')

include hleaner

theorem Attrs.write_undercuts (hbelow : before.Below settings settings' before') (attrs : Attrs) :
    Undercuts settings settings' (fun _ table' => 0 < table') attrs.write attrs.write before
      before' := by
  apply (AttrRecord.writeFields_undercuts hbelow attrs.record).bind
  intro _ _ _ _ _ _ hfields hmiddle
  exact table_undercuts hleaner hmiddle hfields

theorem Operator.write_undercuts (hbelow : before.Below settings settings' before')
    (operator : Operator) :
    Undercuts settings settings' (fun _ table' => 0 < table') operator.write operator.write before
      before' := by
  apply (words_undercuts hbelow .uint32 operator.inputs).bind
  intro _ _ _ _ _ _ hinputs hlisted
  apply (reference_undercuts (fun _ _ => Attrs.write_undercuts hleaner) hlisted
    operator.attrs).bind
  intro _ _ _ _ _ _ hattrs hrecorded
  apply table_undercuts hleaner hrecorded
  exact .cons (.scalar _ _ _) (.cons (.scalar _ _ _) (.cons hattrs (.cons hinputs .nil)))

theorem Payload.write_undercuts (hbelow : before.Below settings settings' before')
    (payload : Payload) :
    Undercuts settings settings' (fun _ table' => 0 < table') payload.write payload.write before
      before' := by
  obtain ⟨kind, data⟩ := payload
  cases kind with
  | floats =>
      apply (words_undercuts hbelow .float32 data).bind
      intro _ _ _ _ _ _ hdata hmiddle
      exact table_undercuts hleaner hmiddle (.cons hdata .nil)
  | ints =>
      apply (words_undercuts hbelow .int32 data).bind
      intro _ _ _ _ _ _ hdata hmiddle
      exact table_undercuts hleaner hmiddle (.cons hdata .nil)

theorem Constant.write_undercuts (hbelow : before.Below settings settings' before')
    (constant : Constant) :
    Undercuts settings settings' (fun _ table' => 0 < table') constant.write constant.write before
      before' := by
  apply (words_undercuts hbelow .uint32 constant.shape).bind
  intro _ _ _ _ _ _ hshape hshaped
  apply (reference_undercuts (fun _ _ => Payload.write_undercuts hleaner) hshaped
    constant.data).bind
  intro _ _ _ _ _ _ hdata hfilled
  apply table_undercuts hleaner hfilled
  exact .cons hshape (.cons (.scalar _ _ _) (.cons hdata .nil))

theorem NodeData.write_undercuts (hbelow : before.Below settings settings' before')
    (data : NodeData) :
    Undercuts settings settings' (fun _ table' => 0 < table') data.write data.write before
      before' := by
  cases data with
  | operator content => exact Operator.write_undercuts hleaner hbelow content
  | constant content => exact Constant.write_undercuts hleaner hbelow content
  | value => exact table_undercuts hleaner hbelow .nil

theorem Node.write_undercuts (hbelow : before.Below settings settings' before') (node : Node) :
    Undercuts settings settings' (fun _ table' => 0 < table') node.write node.write before
      before' := by
  apply (reference_undercuts (fun _ _ => string_undercuts) hbelow (node.id.map Utf16.text)).bind
  intro _ _ _ _ _ _ hid hnamed
  apply (reference_undercuts (fun _ _ => NodeData.write_undercuts hleaner) hnamed node.data).bind
  intro _ _ _ _ _ _ hdata hfilled
  apply table_undercuts hleaner hfilled
  exact .cons hid (.cons (.scalar _ _ _) (.cons hdata .nil))

theorem Graph.writeNodes_undercuts (hbelow : before.Below settings settings' before')
    (nodes : List Node) :
    Undercuts settings settings' (fun _ offset' => 0 < offset') (writeNodes nodes)
      (writeNodes nodes) before before' := by
  apply (mapM_undercuts (fun _ _ => Node.write_undercuts hleaner) hbelow nodes).bind
  intro _ _ _ _ _ _ hoffsets hwritten
  apply offsets_undercuts hwritten
  rw [List.length_map, List.length_map, hoffsets.length_eq]

theorem Graph.write_undercuts (hbelow : before.Below settings settings' before') (graph : Graph) :
    Undercuts settings settings' (fun _ table' => 0 < table') graph.write graph.write before
      before' := by
  apply (reference_undercuts (fun _ _ => Graph.writeNodes_undercuts hleaner) hbelow
    graph.nodes).bind
  intro _ _ _ _ _ _ hnodes hlisted
  exact table_undercuts hleaner hlisted (.cons hnodes .nil)

theorem Model.write_undercuts (hbelow : before.Below settings settings' before') (model : Model) :
    Undercuts settings settings' (fun _ table' => 0 < table') model.write model.write before
      before' := by
  apply (reference_undercuts (fun _ _ => Graph.write_undercuts hleaner) hbelow model.graph).bind
  intro _ _ _ _ _ _ hgraph hfilled
  exact table_undercuts hleaner hfilled (.cons (.scalar _ _ _) (.cons hgraph .nil))

/-! ## Whole buffers -/

theorem Model.writeBuffer_undercuts (hbelow : before.Below settings settings' before')
    (model : Model) (sizePrefix : Bool) :
    Undercuts settings settings' (fun bytes bytes' => bytes.length ≤ bytes'.length)
      (model.writeBuffer sizePrefix) (model.writeBuffer sizePrefix) before before' := by
  apply (Model.write_undercuts hleaner hbelow model).bind
  intro _ _ _ _ _ _ _ hwritten
  apply (finish_undercuts hwritten _ _ _).bind
  intro _ _ _ _ _ _ _ hfinished
  exact bytes_undercuts hfinished

end Leaner

/-- New builders have written nothing. -/
theorem Builder.below_new {options options' : BuilderOptions}
    (hsettings : options.resolve = .ok settings) (hsettings' : options'.resolve = .ok settings') :
    (Builder.new settings).Below settings settings' (Builder.new settings') where
  size_le := le_refl _
  slots_subset := List.Subset.refl _
  alignment := ⟨0, 0, le_refl _, by decide, rfl, rfl⟩
  obeys := obeys_new hsettings rfl rfl
  obeys' := obeys_new hsettings' rfl rfl

/-- Where a model is encoded, it is also encoded under settings that save more, and in no more
bytes. -/
theorem Model.encode_leaner {model : Model} {options options' : EncodeOptions}
    {bytes' : List UInt8} (hencoded' : (model.encode options').outcome = .ok bytes')
    (hsettings : options.toBuilderOptions.resolve = .ok settings)
    (hsettings' : options'.toBuilderOptions.resolve = .ok settings')
    (hleaner : settings.Leaner settings') (hsame : options.sizePrefix = options'.sizePrefix) :
    ∃ bytes, (model.encode options).outcome = .ok bytes ∧ bytes.length ≤ bytes'.length := by
  have hundercuts := Model.writeBuffer_undercuts hleaner (Builder.below_new hsettings hsettings')
    model (options.sizePrefix.getD false)
  obtain ⟨_, _, hkept⟩ := Model.keptIn_of_encode hencoded'
  have hends := model.encode_ends options hsettings
  unfold encode runNew at hencoded' hends ⊢
  rw [hsettings'] at hencoded'
  rw [hsettings] at hends ⊢
  rw [← hsame] at hencoded'
  dsimp only at hencoded' hends ⊢
  cases hmore : model.writeBuffer (options.sizePrefix.getD false) (Builder.new settings') with
  | error error after =>
      rw [hmore] at hencoded'
      cases hencoded'
  | ok _ after' =>
      rw [hmore] at hencoded'
      cases hencoded'
      have hboth := hundercuts hmore
      cases hless : model.writeBuffer (options.sizePrefix.getD false) (Builder.new settings) with
      | ok bytes after =>
          rw [hless] at hboth
          exact ⟨bytes, rfl, hboth.1⟩
      | error error after =>
          -- The integers of the model fit and it has more room than it needs.
          rw [hless] at hboth hends
          cases error with
          | unrepresentable refused => exact absurd hkept.fits hends
          | capacityLimit => exact absurd rfl hboth
          | _ => exact absurd hends id

/-- Whether options are accepted does not depend on what is to be saved. -/
theorem BuilderOptions.resolve_saving {options : BuilderOptions}
    (hsettings : options.resolve = .ok settings) (force dedupe : Option Bool) :
    BuilderOptions.resolve { options with forceDefaults := force, dedupeVtables := dedupe }
      = .ok { settings with
          forceDefaults := force.getD false, dedupeVtables := dedupe.getD true } := by
  unfold resolve at hsettings ⊢
  dsimp only at hsettings ⊢
  split at hsettings
  · split at hsettings
    · next hsize =>
        cases hsettings
        rw [if_pos hsize]
        rfl
    · cases hsettings
  · cases hsettings

/-- Saving never makes a buffer longer.  A model that is encoded without sharing vtables is encoded
with sharing them, in no more bytes, and one that is encoded without sharing and with all defaults
is encoded without sharing and without the defaults, in no more bytes. -/
theorem Model.encode_length_le (model : Model) (options : EncodeOptions) :
    (∀ unshared,
      (model.encode { options with dedupeVtables := some false }).outcome = .ok unshared →
      ∃ shared,
        (model.encode { options with dedupeVtables := some true }).outcome = .ok shared ∧
        shared.length ≤ unshared.length) ∧
    ∀ forced,
      (model.encode { options with
        forceDefaults := some true, dedupeVtables := some false }).outcome = .ok forced →
      ∃ elided,
        (model.encode { options with
          forceDefaults := some false, dedupeVtables := some false }).outcome = .ok elided ∧
        elided.length ≤ forced.length := by
  constructor
  · intro unshared hunshared
    obtain ⟨settings, hsettings, -⟩ := Model.keptIn_of_encode hunshared
    have hmore := BuilderOptions.resolve_saving hsettings options.forceDefaults (some false)
    have hless := BuilderOptions.resolve_saving hsettings options.forceDefaults (some true)
    exact Model.encode_leaner hunshared hless hmore ⟨rfl, id⟩ rfl
  · intro forced hforced
    obtain ⟨settings, hsettings, -⟩ := Model.keptIn_of_encode hforced
    have hmore := BuilderOptions.resolve_saving hsettings (some true) (some false)
    have hless := BuilderOptions.resolve_saving hsettings (some false) (some false)
    exact Model.encode_leaner hforced hless hmore ⟨rfl, fun _ => rfl⟩ rfl

/-- A node with an id has the layout of its graph, and its tag is zero, so both ways of saving make
its model shorter. -/
theorem Model.encode_length_lt_node :
    let model : Model := ⟨1, some ⟨some [⟨some "id", none⟩]⟩⟩
    ∃ shared unshared elided forced,
      (model.encode { dedupeVtables := some true }).outcome = .ok shared ∧
      (model.encode { dedupeVtables := some false }).outcome = .ok unshared ∧
      (model.encode { forceDefaults := some false, dedupeVtables := some false }).outcome
        = .ok elided ∧
      (model.encode { forceDefaults := some true, dedupeVtables := some false }).outcome
        = .ok forced ∧
      shared.length < unshared.length ∧ elided.length < forced.length := by
  intro model
  have hfits : model.Fits := by
    refine ⟨by decide, ?_⟩
    intro node hnode data hdata
    obtain rfl := List.mem_singleton.mp hnode
    cases hdata
  have hroom : model.room ≤ Layout.maxBufferSize := by decide
  obtain ⟨unshared, hunshared⟩ := Model.encode_isOk_of_fits hfits hroom
    { dedupeVtables := some false } (by rfl)
  obtain ⟨forced, hforced⟩ := Model.encode_isOk_of_fits hfits hroom
    { forceDefaults := some true, dedupeVtables := some false } (by rfl)
  obtain ⟨hsharing, hforcing⟩ := model.encode_length_le {}
  obtain ⟨shared, hshared, hless⟩ := hsharing unshared hunshared
  obtain ⟨elided, helided, hless'⟩ := hforcing forced hforced
  have hsaved : (model.encode { dedupeVtables := some true }).outcome.map List.length
      ≠ (model.encode { dedupeVtables := some false }).outcome.map List.length := by
    decide +kernel
  have hsaved' : (model.encode
        { forceDefaults := some false, dedupeVtables := some false }).outcome.map List.length
      ≠ (model.encode
        { forceDefaults := some true, dedupeVtables := some false }).outcome.map List.length := by
    decide +kernel
  rw [hshared, hunshared] at hsaved
  rw [helided, hforced] at hsaved'
  have hlt : shared.length < unshared.length :=
    lt_of_le_of_ne hless fun hequal => hsaved (congrArg Except.ok hequal)
  have hlt' : elided.length < forced.length :=
    lt_of_le_of_ne hless' fun hequal => hsaved' (congrArg Except.ok hequal)
  exact ⟨shared, unshared, elided, forced, hshared, hunshared, helided, hforced, hlt, hlt'⟩

end GraphWire

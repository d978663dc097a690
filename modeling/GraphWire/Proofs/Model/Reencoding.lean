import GraphWire.Proofs.Model.RoundTrip
import GraphWire.Proofs.Model.WellTyped
import GraphWire.Proofs.Number.Arithmetic

/-!
# Encoding what was decoded

A decoder takes many buffers that no encoder writes, but every model that it gives is well-typed.
Such a model can be encoded, and if defaults are forced it is kept as it is: each number is of the
wire type of its place already, so storing it changes nothing.
-/

namespace GraphWire

/-! ## Numbers -/

theorem IntegerType.Holds.fits {type : IntegerType} {number : Number}
    (hholds : type.Holds number) : (Scalar.integer type).Fits number := by
  obtain ⟨value, rfl, hrange⟩ := hholds
  simp [Scalar.Fits, value?, Option.filter, hrange]

theorem IntegerType.Holds.stored_eq {type : IntegerType} {number : Number}
    (hholds : type.Holds number) : (Scalar.integer type).stored number = number := by
  obtain ⟨value, rfl, -⟩ := hholds
  simp [Scalar.stored]

/-- What changes no item of a list changes no list. -/
theorem map_map_eq_self {α : Type} {change : α → α} {items? : Option (List α)}
    (hsame : ∀ items ∈ items?, ∀ item ∈ items, change item = item) :
    items?.map (List.map change) = items? := by
  cases items? with
  | none => rfl
  | some items =>
      have hid : ∀ item ∈ items, change item = id item := hsame items rfl
      rw [Option.map_some, List.map_congr_left hid, List.map_id]

theorem indices_stored_eq {indices? : Option (List Number)}
    (hholds : ∀ indices ∈ indices?, ∀ index ∈ indices, IntegerType.uint32.Holds index) :
    indices?.map (List.map Scalar.uint32.stored) = indices? :=
  map_map_eq_self fun indices hindices index hindex =>
    (hholds indices hindices index hindex).stored_eq

/-- The number of a member is stored as it is. -/
theorem Scalar.stored_natCast (type : IntegerType) (value : ℕ) :
    (Scalar.integer type).stored (value : Number) = (value : Number) := by
  simp only [stored, Number.toInt?_natCast, Option.getD_some]
  rfl

/-! ## Attributes -/

/-- Longs are taken modulo `2 ^ 64`, and no attribute is one. -/
theorem AttrsKind.type_ne_long (kind : AttrsKind) :
    ∀ field ∈ kind.fields, ∀ signed, field.type ≠ .scalar (.long signed) := by
  cases kind <;> decide

theorem AttrType.Holds.fits {type : AttrType} {value : Option type.Value}
    (hholds : type.Holds value) : type.Fits value := by
  cases type with
  | scalar type =>
      cases value with
      | none => cases type <;> exact hholds.elim
      | some value =>
          cases type with
          | integer type => exact IntegerType.Holds.fits hholds
          | flag => trivial
          | long signed => trivial
          | float format => trivial
  | padMode =>
      cases value with
      | none => exact hholds.elim
      | some number =>
          obtain ⟨mode, rfl⟩ := hholds
          change Scalar.int8.Fits (Tag.code mode : Number)
          cases mode <;> decide
  | indices =>
      intro indices hindices index hindex
      exact (hholds indices hindices index hindex).fits

theorem AttrType.Holds.legible {type : AttrType} {value : Option type.Value}
    (hholds : type.Holds value) : type.Legible value := by
  cases type with
  | scalar type => trivial
  | padMode =>
      rintro number rfl
      obtain ⟨mode, rfl⟩ := hholds
      unfold Tag.isMember
      rw [LawfulTag.ofNumber?_code]
      rfl
  | indices => trivial

/-- A forced default is kept like any other value. -/
theorem AttrType.Holds.kept_eq {type : AttrType} {value : Option type.Value}
    (hholds : type.Holds value) (hshort : ∀ signed, type ≠ .scalar (.long signed)) :
    type.kept true value = value := by
  cases type with
  | scalar type =>
      cases value with
      | none => cases type <;> exact hholds.elim
      | some value =>
          have hstored : type.stored value = value := by
            cases type with
            | integer type => exact IntegerType.Holds.stored_eq hholds
            | flag => rfl
            | long signed => exact absurd rfl (hshort signed)
            | float format => exact format.round_eq_of_holds hholds
          exact congrArg some hstored
  | padMode =>
      cases value with
      | none => exact hholds.elim
      | some number =>
          obtain ⟨mode, rfl⟩ := hholds
          exact congrArg some (Scalar.stored_natCast .int8 (Tag.code mode))
  | indices => exact indices_stored_eq hholds

theorem AttrRecord.WellTyped.kept_eq {fields : List AttrField} {record : AttrRecord fields}
    (htyped : record.WellTyped)
    (hshort : ∀ field ∈ fields, ∀ signed, field.type ≠ .scalar (.long signed)) :
    record.map (AttrType.kept true) = record := by
  induction record with
  | nil => rfl
  | cons value rest ih =>
      rw [List.forall_mem_cons] at hshort
      rw [map, AttrType.Holds.kept_eq htyped.1 hshort.1, ih htyped.2 hshort.2]

/-! ## Parts

A part that is well-typed fits the wire, can be read back and is kept as it is.
-/

theorem Attrs.reencodes {attrs : Attrs} (htyped : attrs.record.WellTyped) :
    attrs.Fits ∧ attrs.Legible ∧ attrs.kept true = attrs := by
  refine ⟨AttrRecord.All.imp htyped AttrType.Holds.fits,
    AttrRecord.All.imp htyped AttrType.Holds.legible, ?_⟩
  rw [kept, htyped.kept_eq attrs.kind.type_ne_long]

theorem Operator.WellTyped.reencodes {operator : Operator} (htyped : operator.WellTyped) :
    operator.Fits ∧ operator.Legible ∧ operator.kept true = operator := by
  obtain ⟨type, attrs, inputs⟩ := operator
  obtain ⟨⟨member, hmember⟩, hattrs, hinputs⟩ := htyped
  obtain rfl : type = (Tag.code member : Number) := hmember
  have hrecord (record : Attrs) (hsome : record ∈ attrs) := Attrs.reencodes (hattrs record hsome)
  refine ⟨⟨?_, fun record hsome => (hrecord record hsome).1,
    fun inputs hsome input hinput => (hinputs inputs hsome input hinput).fits⟩,
    ⟨?_, fun record hsome => (hrecord record hsome).2.1⟩, ?_⟩
  · change Scalar.int8.Fits (Tag.code member : Number)
    cases member <;> decide
  · unfold Tag.isMember
    rw [LawfulTag.ofNumber?_code]
    rfl
  · have hkept : attrs.map (Attrs.kept true) = attrs := by
      cases attrs with
      | none => rfl
      | some record => exact congrArg some (hrecord record rfl).2.2
    simp only [kept, stored, Scalar.stored_natCast, hkept, indices_stored_eq hinputs]

theorem Payload.WellTyped.reencodes {payload : Payload} (htyped : payload.WellTyped) :
    payload.Fits ∧ payload.stored = payload := by
  obtain ⟨kind, data⟩ := payload
  cases kind with
  | floats =>
      refine ⟨by rintro ⟨⟩, congrArg (Payload.mk .floats) (map_map_eq_self ?_)⟩
      exact fun elements hsome element helement =>
        FloatFormat.binary32.round_eq_of_holds (htyped elements hsome element helement)
  | ints =>
      have hholds : ∀ elements ∈ data, ∀ element ∈ elements, IntegerType.int32.Holds element :=
        htyped
      refine ⟨fun _ elements hsome element helement =>
        (hholds elements hsome element helement).fits,
        congrArg (Payload.mk .ints) (map_map_eq_self ?_)⟩
      exact fun elements hsome element helement =>
        (hholds elements hsome element helement).stored_eq

theorem Constant.WellTyped.reencodes {constant : Constant} (htyped : constant.WellTyped) :
    constant.Fits ∧ constant.stored = constant := by
  obtain ⟨shape, data⟩ := constant
  obtain ⟨hshape, hdata⟩ := htyped
  have hpayload (payload : Payload) (hsome : payload ∈ data) :=
    Payload.WellTyped.reencodes (hdata payload hsome)
  refine ⟨⟨fun shape hsome size hsize => (hshape shape hsome size hsize).fits,
    fun payload hsome => (hpayload payload hsome).1⟩, ?_⟩
  have hkept : data.map Payload.stored = data := by
    cases data with
    | none => rfl
    | some payload => exact congrArg some (hpayload payload rfl).2
  simp only [stored, hkept, indices_stored_eq hshape]

theorem NodeData.WellTyped.reencodes {data : NodeData} (htyped : data.WellTyped) :
    data.Fits ∧ data.Legible ∧ data.kept true = data := by
  cases data with
  | operator content =>
      obtain ⟨hfits, hlegible, hkept⟩ := Operator.WellTyped.reencodes htyped
      exact ⟨hfits, hlegible, congrArg NodeData.operator hkept⟩
  | constant content =>
      obtain ⟨hfits, hstored⟩ := Constant.WellTyped.reencodes htyped
      exact ⟨hfits, trivial, congrArg NodeData.constant hstored⟩
  | value => exact ⟨trivial, trivial, rfl⟩

/-- So does a model, but for its ids: a byte order mark in front of one would not be read back. -/
theorem Model.WellTyped.reencodes {model : Model} (htyped : model.WellTyped)
    (hunmarked : ∀ node ∈ model.nodes, ∀ id ∈ node.id, ¬id.Marked) :
    model.Fits ∧ model.Legible ∧ model.kept true = model := by
  obtain ⟨hversion, hnodes⟩ := htyped
  have hdata {node : Node} (hnode : node ∈ model.nodes) {data : NodeData}
      (hsome : data ∈ node.data) := NodeData.WellTyped.reencodes ((hnodes node hnode).2 data hsome)
  refine ⟨⟨hversion.fits, fun node hnode data hsome => (hdata hnode hsome).1⟩,
    fun node hnode => ⟨fun id hid => ⟨(hnodes node hnode).1 id hid, hunmarked node hnode id hid⟩,
      fun data hsome => (hdata hnode hsome).2.1⟩, ?_⟩
  have hkept : ∀ node ∈ model.nodes, node.kept true = node := by
    rintro ⟨id, data⟩ hnode
    cases data with
    | none => rfl
    | some content => exact congrArg (Node.mk id <| some ·) (hdata hnode rfl).2.2
  obtain ⟨version, graph?⟩ := model
  have hgraph : graph?.map (Graph.kept true) = graph? := by
    rcases graph? with _ | ⟨⟨nodes?⟩⟩
    · rfl
    · refine congrArg (fun nodes => some (Graph.mk nodes)) (map_map_eq_self ?_)
      rintro nodes rfl node hnode
      exact hkept node hnode
  exact congrArg₂ Model.mk hversion.stored_eq hgraph

/-! ## Models -/

/-- Validation gives the model that was read or none. -/
theorem ModelView.unpack_of_decode {view : ModelView} {validate : Bool} {model : Model}
    (hdecoded : view.decode validate = .ok model) : view.unpack = .ok model := by
  unfold decode at hdecoded
  cases hread : view.unpack with
  | error cause =>
      rw [hread] at hdecoded
      cases hdecoded
  | ok read =>
      rw [hread] at hdecoded
      cases validate with
      | false =>
          cases hdecoded
          rfl
      | true =>
          cases hchecked : read.checkValid with
          | error violation =>
              simp only [bind, Except.bind, Except.mapError, if_true, hchecked] at hdecoded
              cases hdecoded
          | ok valid =>
              simp only [bind, Except.bind, Except.mapError, if_true, hchecked] at hdecoded
              cases hdecoded
              rfl

/-- What decoding gives is well-typed. -/
theorem Model.wellTyped_of_decode {window : Window} {options : DecodeOptions} {model : Model}
    (hdecoded : (Model.decode window options).outcome = .ok model) : model.WellTyped := by
  unfold decode at hdecoded
  cases hopened : ModelView.open window options.toReaderOptions with
  | error error =>
      rw [hopened] at hdecoded
      cases hdecoded
  | ok opened =>
      rw [hopened] at hdecoded
      have hyields := opened.1.unpack_yields
      rw [ModelView.unpack_of_decode hdecoded] at hyields
      exact hyields

/-- A model that was decoded from any bytes at all is encoded with its defaults forced, unless it
outgrows the largest buffer, and every reader that takes it decodes exactly it.  The one thing that
a decoder gives and no string can carry is a byte order mark in front of an id. -/
theorem Model.decode_reencode (source : Window) (sourceOptions : DecodeOptions) (model : Model)
    (hdecoded : (Model.decode source sourceOptions).outcome = .ok model)
    (hunmarked : ∀ node ∈ model.nodes, ∀ id ∈ node.id, ¬id.Marked)
    (encodeOptions : EncodeOptions) (builderSettings : BuilderSettings)
    (hbuilder : encodeOptions.toBuilderOptions.resolve = .ok builderSettings)
    (hforce : encodeOptions.forceDefaults = some true) :
    (model.encode encodeOptions).outcome = .error .capacityLimit ∧
        Layout.maxBufferSize < model.room ∨
      ∃ bytes, (model.encode encodeOptions).outcome = .ok bytes ∧
        ∀ (options : DecodeOptions) (settings : ReaderSettings),
          options.toReaderOptions.resolve = .ok settings →
          settings.sizePrefixed = encodeOptions.sizePrefix.getD false → settings.Accepts model →
          (options.validate.getD false = true → model.checkValid = .ok ()) →
          ∀ window : Window, window.toList = bytes →
            (Model.decode window options).outcome = .ok model := by
  obtain ⟨hfits, hlegible, hsame⟩ :=
    (Model.wellTyped_of_decode hdecoded).reencodes hunmarked
  have hends := model.encode_ends_kept encodeOptions hbuilder
  have hforced : builderSettings.forceDefaults = true := by
    rw [(BuilderOptions.settings_of_resolve hbuilder).2, hforce, Option.getD_some]
  rw [hforced] at hends
  cases houtcome : (model.encode encodeOptions).outcome with
  | error error =>
      rw [houtcome] at hends
      cases error with
      | capacityLimit => exact .inl ⟨rfl, hends⟩
      | unrepresentable refused => exact absurd hfits hends
      | _ => exact absurd hends id
  | ok bytes =>
      rw [houtcome] at hends
      refine .inr ⟨bytes, rfl, ?_⟩
      intro options settings hsettings hsized haccepts hvalid window hwindow
      rw [← hsame, ← hlegible.reread_kept] at hvalid ⊢
      exact hends.decode_eq hlegible.readable hsettings hsized (hsame ▸ haccepts) hvalid hwindow

/-- The version in these bytes is read from the lengths in the vtable of its own table. -/
theorem Model.decode_reencode_overlapping :
    let source : List UInt8 := [4, 0, 0, 0, 252, 255, 255, 255, 6, 0, 8, 0, 4, 0]
    let model : Model := ⟨524294, none⟩
    ∃ bytes, (model.encode { forceDefaults := some true }).outcome = .ok bytes ∧
      bytes ≠ source ∧ (Model.decode (.ofList source) {}).outcome = .ok model ∧
      (Model.decode (.ofList bytes) {}).outcome = .ok model := by
  intro source model
  have hdecoded : (Model.decode (.ofList source) {}).outcome = .ok model := by
    unfold source model
    rfl
  have hroom : ¬Layout.maxBufferSize < model.room := by decide
  rcases Model.decode_reencode _ {} model hdecoded (by rintro node ⟨⟩)
    { forceDefaults := some true } ⟨1024, true, true⟩ (by rfl) rfl
    with ⟨-, hpast⟩ | ⟨bytes, hencoded, hread⟩
  · exact absurd hpast hroom
  · refine ⟨bytes, hencoded, ?_, hdecoded, ?_⟩
    · rintro rfl
      exact absurd hencoded (by decide +kernel)
    · exact hread {} ⟨false, "MODL", false, .ofInt 1⟩ (by rfl) rfl (by rintro ⟨⟩) (by rintro ⟨⟩) _
        (Window.toList_ofList bytes)

end GraphWire

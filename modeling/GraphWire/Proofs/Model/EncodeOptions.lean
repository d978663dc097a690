import GraphWire.Proofs.Model.Reencoding

/-!
# Options of an encoder

The options of an encoder say how large its buffer is at first, whether defaults are written,
whether vtables are shared and whether the byte length comes first.  They change the bytes of a
model and not what is read from them, with one exception: a float attribute is left out when it is
equal to zero, which a zero with a minus sign is, so only forced defaults keep its sign.
-/

namespace GraphWire

/-! ## Zeros of either sign -/

/-- Whether a value is not the zero of a float type with a minus sign. -/
def Scalar.Plain : (type : Scalar) → type.Value → Prop
  | .float _, value => value ≠ Number.negativeZero
  | _, _ => True

def AttrType.Plain : (type : AttrType) → Option type.Value → Prop
  | .scalar type, value => ∀ number ∈ value, type.Plain number
  | _, _ => True

def NodeData.Plain : NodeData → Prop
  | .operator content => ∀ attrs ∈ content.attrs, attrs.record.All AttrType.Plain
  | _ => True

/-- No float attribute of the model is a zero with a minus sign. -/
def Model.Plain (model : Model) : Prop :=
  ∀ node ∈ model.nodes, ∀ data ∈ node.data, data.Plain

/-- What is stored of a value that equals zero is the plain zero, unless the value has a sign. -/
theorem Scalar.stored_eq_zero_iff {type : Scalar} {value : type.Value}
    (hsame : type.same value type.zero = true) :
    type.stored value = type.zero ↔ type.Plain value := by
  have hunsigned := unsigned_stored_of_same_zero hsame
  cases type with
  | integer type => exact iff_of_true hunsigned trivial
  | flag => exact iff_of_true hunsigned trivial
  | long signed => exact iff_of_true hunsigned trivial
  | float format =>
      have hzero : Number.toInt? value = some 0 := Number.toInt?_of_equals_zero hsame
      rcases Number.eq_ofInt_of_toInt? hzero with rfl | ⟨rfl, -⟩
      · cases format <;> exact iff_of_true (by decide) nofun
      · cases format <;> exact iff_of_false (by decide) fun hplain => hplain rfl

/-- Forcing defaults changes what is kept of an attribute only where a sign is lost otherwise. -/
theorem AttrType.kept_eq_iff (type : AttrType) (value : Option type.Value) :
    type.kept true value = type.kept false value ↔ type.Plain value := by
  cases type with
  | scalar type =>
      have hplain : type.Plain (value.getD type.zero) ↔ ∀ number ∈ value, type.Plain number := by
        cases value with
        | some number => simp
        | none =>
            refine iff_of_true ?_ nofun
            cases type <;> first | trivial | exact nofun
      simp only [kept, Plain, ← hplain, Bool.true_or, if_true, Bool.false_or, Option.some_inj]
      cases hsame : type.same (value.getD type.zero) type.zero with
      | true => exact Scalar.stored_eq_zero_iff hsame
      | false =>
          refine iff_of_true rfl ?_
          cases type with
          | float format =>
              intro hnegative
              rw [hnegative] at hsame
              cases format <;> exact absurd hsame (by decide)
          | _ => trivial
  | padMode => exact iff_of_true rfl trivial
  | indices => exact iff_of_true rfl trivial

/-- Records that are changed in two ways are equal when all their values are. -/
theorem AttrRecord.map_eq_map_iff {first second : (type : AttrType) → Option type.Value →
    Option type.Value} {fields : List AttrField} (record : AttrRecord fields) :
    record.map first = record.map second
      ↔ record.All fun type value => first type value = second type value := by
  induction record with
  | nil => simp [map, All]
  | cons value rest ih => simp only [map, All, cons.injEq, ih]

theorem NodeData.kept_eq_iff (data : NodeData) :
    data.kept true = data.kept false ↔ data.Plain := by
  cases data with
  | operator content =>
      obtain ⟨type, attrs, inputs⟩ := content
      cases attrs with
      | none => simp [kept, Operator.kept, Plain]
      | some attrs =>
          simp only [kept, Operator.kept, Attrs.kept, Plain, Option.map_some,
            operator.injEq, Operator.mk.injEq, true_and, and_true, Option.some_inj, Attrs.mk.injEq,
            heq_eq_eq, AttrRecord.map_eq_map_iff, AttrType.kept_eq_iff, Option.mem_def,
            forall_eq']
  | constant content => exact iff_of_true rfl trivial
  | value => exact iff_of_true rfl trivial

/-- Forcing defaults changes what is read of a model exactly where a sign is lost otherwise. -/
theorem Model.kept_eq_iff (model : Model) :
    (model.kept true).reread = (model.kept false).reread ↔ model.Plain := by
  obtain ⟨version, graph?⟩ := model
  rcases graph? with _ | ⟨_ | nodes⟩
  · simp [kept, Plain, Model.nodes]
  · simp [kept, Graph.kept, Plain, Model.nodes]
  · have hnode (node : Node) : (node.kept true).reread = (node.kept false).reread
        ↔ ∀ data ∈ node.data, data.Plain := by
      obtain ⟨id, data⟩ := node
      cases data with
      | none => simp [Node.kept]
      | some data => simp [Node.kept, Node.reread, NodeData.kept_eq_iff]
    simp [kept, Model.reread, Graph.kept, Graph.reread, Plain, Model.nodes, hnode]

/-- Signs of zeros and what an id cannot keep are dropped in any order. -/
theorem Model.unsigned_reread (model : Model) :
    model.reread.unsigned = model.unsigned.reread := by
  simp only [reread, unsigned, Graph.reread, Graph.unsigned, Node.reread, Node.unsigned,
    Option.map_map, List.map_map, Function.comp_def]

/-! ## Decoding under any options -/

/-- A reader that is told no more than whether to expect a size prefix is lenient. -/
theorem ReaderOptions.resolve_sizePrefixed (sized : Option Bool) :
    ReaderOptions.resolve { sizePrefixed := sized }
      = .ok ⟨false, Layout.modelIdentifier, sized.getD false, .ofInt Layout.schemaVersion⟩ := by
  have hidentifier : Identifier.check Layout.modelIdentifier = .ok () := by decide
  simp only [resolve, Option.getD_none, hidentifier, Number.toInt?_ofInt, bind, Except.bind]
  rfl

/-- What the encoder gives under some options is decoded as what they keep of the model. -/
theorem Model.decode_of_encode {model : Model} (hreadable : model.Readable)
    {options : EncodeOptions} {bytes : List UInt8}
    (hencoded : (model.encode options).outcome = .ok bytes) {window : Window}
    (hwindow : window.toList = bytes) :
    (Model.decode window { sizePrefixed := options.sizePrefix }).outcome
      = .ok (model.kept (options.forceDefaults.getD false)).reread := by
  obtain ⟨settings, hsettings, hkept⟩ := Model.keptIn_of_encode hencoded
  rw [(BuilderOptions.settings_of_resolve hsettings).2] at hkept
  let reading : DecodeOptions := { sizePrefixed := options.sizePrefix }
  have hreader : reading.toReaderOptions.resolve = .ok ⟨false, Layout.modelIdentifier,
      options.sizePrefix.getD false, .ofInt Layout.schemaVersion⟩ :=
    ReaderOptions.resolve_sizePrefixed options.sizePrefix
  exact hkept.decode_eq hreadable hreader rfl (by rintro ⟨⟩) (by rintro ⟨⟩) hwindow

/-- Encoder options do not change the data.  Whatever two sets of options a model is encoded under,
both buffers are decoded, and the two decoded models agree but for the signs of zeros in float
attributes.  They are identical exactly if both sets force defaults or neither does, or if no float
attribute of the model is a zero with a minus sign. -/
theorem Model.decode_encode_options (model : Model) (hreadable : model.Readable)
    (options options' : EncodeOptions) (bytes bytes' : List UInt8)
    (hencoded : (model.encode options).outcome = .ok bytes)
    (hencoded' : (model.encode options').outcome = .ok bytes')
    (window window' : Window) (hwindow : window.toList = bytes)
    (hwindow' : window'.toList = bytes') :
    ∃ decoded decoded',
      (Model.decode window { sizePrefixed := options.sizePrefix }).outcome = .ok decoded ∧
      (Model.decode window' { sizePrefixed := options'.sizePrefix }).outcome = .ok decoded' ∧
      decoded.unsigned = decoded'.unsigned ∧
      (decoded = decoded' ↔
        options.forceDefaults.getD false = options'.forceDefaults.getD false ∨ model.Plain) := by
  refine ⟨_, _, model.decode_of_encode hreadable hencoded hwindow,
    model.decode_of_encode hreadable hencoded' hwindow', ?_, ?_⟩
  · rw [Model.unsigned_reread, Model.unsigned_reread, Model.unsigned_kept,
      Model.unsigned_kept]
  · cases options.forceDefaults.getD false <;> cases options'.forceDefaults.getD false
    · simp
    · simp [← model.kept_eq_iff, eq_comm]
    · simp [← model.kept_eq_iff]
    · simp

/-! ### One operator with a float attribute -/

/-- The model of a single leaky rectifier, whose slope is its only number that is not an integer. -/
def Model.leakyRelu (slope : Number) : Model :=
  ⟨1, some ⟨some [⟨none, some (.operator
    ⟨(Tag.code OperatorType.leakyRelu : ℕ), some ⟨.leakyRelu, .cons (some slope) .nil⟩, none⟩)⟩]⟩⟩

theorem Model.leakyRelu_legible (slope : Number) : (leakyRelu slope).Legible := by
  have htype : Tag.isMember OperatorType (Tag.code OperatorType.leakyRelu : ℕ) = true := by
    decide
  intro node hnode
  obtain rfl := List.mem_singleton.mp hnode
  refine ⟨nofun, ?_⟩
  rintro data ⟨⟩
  refine ⟨htype, ?_⟩
  rintro attrs ⟨⟩
  exact ⟨trivial, trivial⟩

/-- Whatever its slope is, the model can be encoded. -/
theorem Model.leakyRelu_encode (slope : Number) (options : EncodeOptions)
    {settings : BuilderSettings} (hsettings : options.toBuilderOptions.resolve = .ok settings) :
    ∃ bytes, ((leakyRelu slope).encode options).outcome = .ok bytes := by
  have hversion : Scalar.int32.Fits (1 : Number) := by decide
  have htype : Scalar.int8.Fits (Tag.code OperatorType.leakyRelu : ℕ) := by decide
  have hroom : (leakyRelu slope).room = 314 := by rfl
  refine encode_isOk_of_fits ⟨hversion, ?_⟩ (by rw [hroom]; decide) options hsettings
  intro node hnode data hdata
  obtain rfl := List.mem_singleton.mp hnode
  cases hdata
  refine ⟨htype, ?_, nofun⟩
  rintro attrs ⟨⟩
  exact ⟨trivial, trivial⟩

/-- All options at once, against none of them. -/
theorem Model.decode_encode_options_leakyRelu :
    let options : EncodeOptions :=
      { initialSize := some 1, forceDefaults := some true, dedupeVtables := some false,
        sizePrefix := some true }
    ∃ bytes bytes' decoded, ((leakyRelu 3).encode {}).outcome = .ok bytes ∧
      ((leakyRelu 3).encode options).outcome = .ok bytes' ∧
      (Model.decode (.ofList bytes) {}).outcome = .ok decoded ∧
      (Model.decode (.ofList bytes') { sizePrefixed := some true }).outcome = .ok decoded := by
  intro options
  have hsettings : BuilderOptions.resolve {} = .ok ⟨1024, false, true⟩ := by rfl
  have hsettings' : options.toBuilderOptions.resolve = .ok ⟨1, true, false⟩ := by rfl
  obtain ⟨bytes, hencoded⟩ := leakyRelu_encode 3 {} hsettings
  obtain ⟨bytes', hencoded'⟩ := leakyRelu_encode 3 options hsettings'
  have hplain : (leakyRelu 3).Plain := by
    intro node hnode data hdata
    obtain rfl := List.mem_singleton.mp hnode
    cases hdata
    rintro attrs ⟨⟩
    exact ⟨by rintro number ⟨⟩ ⟨⟩, trivial⟩
  obtain ⟨decoded, decoded', hdecoded, hdecoded', -, hsame⟩ :=
    decode_encode_options (leakyRelu 3) (leakyRelu_legible 3).readable {} options bytes bytes'
      hencoded hencoded' _ _ (Window.toList_ofList bytes) (Window.toList_ofList bytes')
  obtain rfl := hsame.mpr (.inr hplain)
  exact ⟨bytes, bytes', decoded, hencoded, hencoded', hdecoded, hdecoded'⟩

/-- A slope that is a zero with a minus sign is left out and then read without the sign, and it
keeps the sign when defaults are forced. -/
theorem Model.decode_encode_signed_slope :
    let model := leakyRelu .negativeZero
    model.Readable ∧ ∃ bytes bytes' decoded decoded',
      (model.encode {}).outcome = .ok bytes ∧
      (model.encode { forceDefaults := some true }).outcome = .ok bytes' ∧
      (Model.decode (.ofList bytes) {}).outcome = .ok decoded ∧
      (Model.decode (.ofList bytes') {}).outcome = .ok decoded' ∧ decoded ≠ decoded' := by
  intro model
  have hreadable := (leakyRelu_legible .negativeZero).readable
  have hsettings : BuilderOptions.resolve {} = .ok ⟨1024, false, true⟩ := by rfl
  have hsettings' : BuilderOptions.resolve { forceDefaults := some true }
      = .ok ⟨1024, true, true⟩ := by rfl
  obtain ⟨bytes, hencoded⟩ := leakyRelu_encode .negativeZero {} hsettings
  obtain ⟨bytes', hencoded'⟩ := leakyRelu_encode .negativeZero
    { forceDefaults := some true } hsettings'
  refine ⟨hreadable, bytes, bytes', _, _, hencoded, hencoded',
    decode_of_encode hreadable hencoded (Window.toList_ofList bytes),
    decode_of_encode hreadable hencoded' (Window.toList_ofList bytes'), ?_⟩
  intro hsame
  have hplain := model.kept_eq_iff.mp hsame.symm _ (List.mem_singleton_self _) _ rfl _ rfl
  exact hplain.1 _ rfl rfl

end GraphWire

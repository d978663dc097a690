import GraphWire.Model.Decoding
import GraphWire.Proofs.Model.Refusal

/-!
# Reading back what was written

Decoding the bytes of an encoded model gives the model that the buffer keeps, whichever of the
options of the encoder were chosen.
-/

namespace GraphWire

/-- Whether a reader takes a model: a strict one expects the identifier of models and the version
that the model has. -/
def ReaderSettings.Accepts (settings : ReaderSettings) (model : Model) : Prop :=
  settings.strict = true →
    settings.identifier = Layout.modelIdentifier ∧ settings.expectedVersion = model.schemaVersion

/-- An integer that is stored equals the number that was given for it. -/
theorem Scalar.stored_equals {type : IntegerType} {number : Number}
    (hfits : (Scalar.integer type).Fits number) :
    Number.equals ((Scalar.integer type).stored number) number = true := by
  obtain ⟨value, hvalue⟩ : ∃ value, type.value? number = some value :=
    Option.isSome_iff_exists.mp hfits
  obtain ⟨hinteger, -⟩ := Option.filter_eq_some_iff.mp hvalue
  simp only [stored, hinteger, Option.getD_some]
  rcases Number.eq_ofInt_of_toInt? hinteger with rfl | ⟨rfl, rfl⟩
  · simp
  · rfl

theorem ReaderSettings.Accepts.checkVersion_eq {settings : ReaderSettings} {model : Model}
    (haccepts : settings.Accepts model) (hfits : Scalar.int32.Fits model.schemaVersion) :
    ∃ events, settings.checkVersion (Scalar.int32.stored model.schemaVersion) = .ok events := by
  unfold checkVersion
  split
  · exact ⟨_, rfl⟩
  · next hother =>
      cases hstrict : settings.strict with
      | false => exact ⟨_, rfl⟩
      | true =>
          rw [(haccepts hstrict).2] at hother
          exact absurd (Scalar.stored_equals hfits) hother

/-- A view that can be read whole has the version of the model that is read. -/
theorem ModelView.schemaVersion_of_unpack {view : ModelView} {model : Model}
    (hmodel : view.unpack = .ok model) : view.schemaVersion = .ok model.schemaVersion := by
  unfold unpack at hmodel
  cases hgraph : view.graph with
  | error cause =>
      rw [hgraph] at hmodel
      cases hmodel
  | ok graph? =>
      cases hversion : view.schemaVersion with
      | error cause =>
          rw [hgraph, hversion] at hmodel
          cases hmodel
      | ok version =>
          rw [hgraph, hversion] at hmodel
          cases graph? with
          | none =>
              cases hmodel
              rfl
          | some graph =>
              simp only [bind, Except.bind] at hmodel
              cases hread : graph.unpack with
              | error cause =>
                  rw [hread] at hmodel
                  cases hmodel
              | ok read =>
                  rw [hread] at hmodel
                  cases hmodel
                  rfl

/-- The bytes of a model are opened by every reader that takes the model, and read whole. -/
theorem Model.KeptIn.openWith_eq {model : Model} {force sizePrefix : Bool} {bytes : List UInt8}
    (hkept : model.KeptIn force sizePrefix bytes) (hreadable : model.Readable)
    {settings : ReaderSettings} (hsized : settings.sizePrefixed = sizePrefix)
    (haccepts : settings.Accepts model) {window : Window} (hwindow : window.toList = bytes) :
    ∃ view events, ModelView.openWith window settings = .ok (view, events) ∧
      view.unpack = .ok (model.kept force).reread := by
  obtain ⟨hfits, root, before, after, hfinishes, hmodest, rfl, hreads⟩ := hkept
  obtain ⟨framed, hframe, hframed⟩ :
      ∃ framed, settings.frame window = .ok framed ∧ framed.toList = after.written.bytes := by
    unfold ReaderSettings.frame
    cases sizePrefix with
    | false => exact ⟨window, by rw [hsized]; rfl, hwindow⟩
    | true =>
        obtain ⟨framed, hframe, hsame⟩ := hfinishes.frame_eq rfl hwindow
        exact ⟨framed, by rw [hsized, hframe]; rfl, hsame.trans hwindow⟩
  have hidentifier := hfinishes.identifier_eq (show 3 ≤ 31 by decide) hmodest rfl hframed
  have hroot := hfinishes.rootTable_eq hframed
  have hread : ModelView.unpack _ = _ := hreads hreadable framed (hframed ▸ hfinishes.suffix)
  have hversion := ModelView.schemaVersion_of_unpack hread
  have hchecked : settings.checkIdentifier (framed.identifier? settings.sizePrefixed) = .ok () := by
    have hnone : ¬(settings.strict = true ∧
        framed.identifier? settings.sizePrefixed ≠ some settings.identifier) := by
      rintro ⟨hstrict, hother⟩
      rw [(haccepts hstrict).1, hsized] at hother
      exact hother hidentifier
    exact if_neg hnone
  obtain ⟨events, hevents⟩ := haccepts.checkVersion_eq hfits.1
  change settings.checkVersion (model.kept force).reread.schemaVersion = _ at hevents
  refine ⟨⟨⟨framed, (framed.length - root : ℕ)⟩⟩, events ++ [.rootResolved framed.length
    (framed.length - root) (model.kept force).reread.schemaVersion], ?_, hread⟩
  change framed.rootTable sizePrefix = _ at hroot
  rw [← hsized] at hroot
  unfold ModelView.openWith
  simp only [hframe, hchecked, hroot, hversion, hevents, bind, Except.bind, Except.mapError]
  rfl

/-- The bytes that keep a model are decoded as what they keep, and validated as that. -/
theorem Model.KeptIn.decode_eq {model : Model} {force sizePrefix : Bool} {bytes : List UInt8}
    (hkept : model.KeptIn force sizePrefix bytes) (hreadable : model.Readable)
    {options : DecodeOptions} {settings : ReaderSettings}
    (hsettings : options.toReaderOptions.resolve = .ok settings)
    (hsized : settings.sizePrefixed = sizePrefix) (haccepts : settings.Accepts model)
    (hvalid : options.validate.getD false = true →
      (model.kept force).reread.checkValid = .ok ())
    {window : Window} (hwindow : window.toList = bytes) :
    (Model.decode window options).outcome = .ok (model.kept force).reread := by
  obtain ⟨view, events, hopened, hread⟩ :=
    hkept.openWith_eq hreadable hsized haccepts hwindow
  have hview : view.decode (options.validate.getD false) = .ok (model.kept force).reread := by
    unfold ModelView.decode
    rw [hread]
    cases hchosen : options.validate.getD false with
    | false => rfl
    | true =>
        simp only [bind, Except.bind, Except.mapError, if_true, hvalid hchosen]
        rfl
  simp only [decode, ModelView.open, hsettings, bind, Except.bind, Except.mapError, hopened, hview]

/-- Every encoded model is decoded as the model that its buffer keeps. -/
theorem Model.decode_encode (model : Model) (hlegible : model.Legible)
    (encodeOptions : EncodeOptions) (bytes : List UInt8)
    (hencoded : (model.encode encodeOptions).outcome = .ok bytes)
    (decodeOptions : DecodeOptions) (settings : ReaderSettings)
    (hsettings : decodeOptions.toReaderOptions.resolve = .ok settings)
    (hsized : settings.sizePrefixed = encodeOptions.sizePrefix.getD false)
    (haccepts : settings.Accepts model) (hvalidate : decodeOptions.validate.getD false = false)
    (window : Window) (hwindow : window.toList = bytes) :
    ∃ decoded, (Model.decode window decodeOptions).outcome = .ok decoded ∧
      decoded.unsigned = model.stored.unsigned := by
  obtain ⟨builderSettings, -, hkept⟩ := Model.keptIn_of_encode hencoded
  have hdecoded := hkept.decode_eq hlegible.readable hsettings hsized haccepts
    (by rw [hvalidate]; exact nofun) hwindow
  rw [hlegible.reread_kept] at hdecoded
  exact ⟨_, hdecoded, model.unsigned_kept builderSettings.forceDefaults⟩

/-- A model with a name, an attribute that is left out and an empty list of inputs. -/
theorem Model.decode_encode_clip :
    let model : Model := ⟨3, some ⟨some [⟨some "clipped", some (.operator
      ⟨2, some ⟨.clip, .cons (some (3 : Number)) (.cons none .nil)⟩, some []⟩)⟩]⟩⟩
    ∃ bytes decoded, (model.encode {}).outcome = .ok bytes ∧
      (Model.decode (.ofList bytes) { strict := some true, expectedVersion := some 3 }).outcome
        = .ok decoded ∧
      decoded.unsigned = model.stored.unsigned := by
  intro model
  have hfits : model.Fits := by
    refine ⟨by decide, fun node hnode data hdata => ?_⟩
    obtain rfl := List.mem_singleton.mp hnode
    cases hdata
    refine ⟨by decide, ?_, ?_⟩
    · rintro attrs ⟨⟩
      exact ⟨trivial, trivial, trivial⟩
    · rintro inputs ⟨⟩
      simp
  have hlegible : model.Legible := by
    intro node hnode
    obtain rfl := List.mem_singleton.mp hnode
    constructor
    · rintro id ⟨⟩
      decide
    · rintro data ⟨⟩
      refine ⟨by decide, ?_⟩
      rintro attrs ⟨⟩
      exact ⟨trivial, trivial, trivial⟩
  have hroom : model.room ≤ Layout.maxBufferSize := by decide
  have hsettings : BuilderOptions.resolve {} = .ok ⟨1024, false, true⟩ := by rfl
  obtain ⟨bytes, hencoded⟩ := Model.encode_isOk_of_fits hfits hroom {} hsettings
  obtain ⟨decoded, hdecoded⟩ := Model.decode_encode model hlegible {} bytes hencoded
    { strict := some true, expectedVersion := some 3 } ⟨true, "MODL", false, 3⟩ (by rfl) rfl
    (fun _ => ⟨rfl, rfl⟩) rfl (.ofList bytes) (Window.toList_ofList bytes)
  exact ⟨bytes, decoded, hencoded, hdecoded⟩

/-- The model of a single node that has an id and nothing else. -/
def Model.labelled (id : Utf16) : Model :=
  ⟨1, some ⟨some [⟨some id, none⟩]⟩⟩

theorem Model.labelled_readable (id : Utf16) : (labelled id).Readable := by
  intro node hnode data hdata
  obtain rfl := List.mem_singleton.mp hnode
  cases hdata

theorem Model.labelled_fits (id : Utf16) : (labelled id).Fits := by
  have hversion : Scalar.int32.Fits (1 : Number) := by decide
  refine ⟨hversion, ?_⟩
  intro node hnode data hdata
  obtain rfl := List.mem_singleton.mp hnode
  cases hdata

/-- A surrogate that stands alone is stored as U+FFFD and read as that, so the id that is read is not
the one that was given. -/
theorem Model.decode_encode_surrogate :
    let model := labelled ⟨[0xD800]⟩
    model.Readable ∧ (∀ node ∈ model.nodes, ∀ id ∈ node.id, ¬id.Marked) ∧
      ∃ bytes decoded, (model.encode {}).outcome = .ok bytes ∧
        (Model.decode (.ofList bytes) {}).outcome = .ok decoded ∧
        decoded = labelled "\uFFFD" ∧ decoded.unsigned ≠ model.stored.unsigned := by
  intro model
  have hreadable : model.Readable := labelled_readable _
  have hsettings : BuilderOptions.resolve {} = .ok ⟨1024, false, true⟩ := by rfl
  have hroom : model.room ≤ Layout.maxBufferSize := by decide
  obtain ⟨bytes, hencoded⟩ := encode_isOk_of_fits (labelled_fits _) hroom {} hsettings
  obtain ⟨builderSettings, -, hkept⟩ := Model.keptIn_of_encode hencoded
  have hreader : ({} : DecodeOptions).toReaderOptions.resolve = .ok ⟨false, "MODL", false, 1⟩ := by
    rfl
  have hread : (model.kept builderSettings.forceDefaults).reread = labelled "\uFFFD" := by
    have hid : Utf16.reread ⟨[0xD800]⟩ = "\uFFFD" := by decide
    change labelled (Utf16.reread ⟨[0xD800]⟩) = _
    rw [hid]
  have hdecoded := hkept.decode_eq hreadable hreader rfl (by rintro ⟨⟩) (by rintro ⟨⟩)
    (Window.toList_ofList bytes)
  rw [hread] at hdecoded
  refine ⟨hreadable, ?_, bytes, _, hencoded, hdecoded, rfl, ?_⟩
  · intro node hnode id hid
    obtain rfl := List.mem_singleton.mp hnode
    cases hid
    decide
  · intro hsame
    have hids := congrArg (fun read : Model => read.nodes.map Node.id) hsame
    exact absurd hids (by decide)

end GraphWire

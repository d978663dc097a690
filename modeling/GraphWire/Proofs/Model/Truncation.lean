import GraphWire.Proofs.Model.Extension
import GraphWire.Proofs.Model.WellTyped

/-!
# Truncated buffers

A decoder that is given the first bytes of a buffer cannot be led to another model.  No length is
read as data and no default stands in for bytes that are missing: the first check that the rest of
the buffer would have passed ends the decoding, and as long as all checks pass the values are those
of the whole buffer.
-/

namespace GraphWire

/-- Two results of one computation on a part of an input and on the whole.  Where the whole has a
value, the part has a related one or is refused for the missing rest. -/
def Narrows {ε α β : Type} (missing : ε → Prop) (related : α → β → Prop) (short : Except ε α)
    (long : Except ε β) : Prop :=
  ∀ value', long = .ok value' → Ends (fun value => related value value') missing short

namespace Narrows

variable {ε α β γ δ : Type} {missing : ε → Prop} {related : α → β → Prop}

/-- A value of the part stays, so only the errors of the part matter. -/
theorem of_stays {same : Prop} {short : Except ε α} {long : Except ε β}
    (hstays : Stays same related short long) (hends : Ends (fun _ => True) missing short) :
    Narrows missing related short long := by
  intro value' hlong
  cases short with
  | ok value =>
      obtain ⟨_, hvalue, hrelated⟩ := hstays
      rw [hlong] at hvalue
      cases hvalue
      exact hrelated
  | error cause => exact hends

theorem refl (result : Except ε α) : Narrows missing Eq result result := by
  rintro value rfl
  exact Eq.refl value

theorem bind {related' : γ → δ → Prop} {short : Except ε α} {long : Except ε β}
    {next : α → Except ε γ} {next' : β → Except ε δ} (hfirst : Narrows missing related short long)
    (hnext : ∀ value value', related value value' →
      Narrows missing related' (next value) (next' value')) :
    Narrows missing related' (short >>= next) (long >>= next') := by
  intro result hresult
  cases long with
  | ok value' => exact Ends.bind (hfirst value' rfl) fun value hvalue => hnext _ _ hvalue _ hresult
  | error cause => cases hresult

theorem mapError {form : ε → δ} {missing' : δ → Prop} {short : Except ε α} {long : Except ε β}
    (hnarrows : Narrows missing related short long)
    (hform : ∀ error, missing error → missing' (form error)) :
    Narrows missing' related (short.mapError form) (long.mapError form) := by
  intro value' hlong
  cases long with
  | ok value =>
      have hvalue := hnarrows value rfl
      cases hlong
      exact hvalue.mapError hform
  | error cause => cases hlong

end Narrows

/-- The refusals of a part of a buffer when the whole of it is accepted: bytes are missing, or a
strict reader finds the end of the part before that of the identifier. -/
def ReadError.CutOff (strict : Bool) (available : ℕ) : ReadError → Prop
  | .malformed cause => cause.inBytes = true
  | .identifier _ actual =>
      strict = true ∧ actual = none ∧ available < Layout.offsetWidth + Layout.identifierLength
  | _ => False

def DecodeError.CutOff (strict : Bool) (available : ℕ) : DecodeError → Prop
  | .read error => error.CutOff strict available
  | .validation _ => False

variable {short long : Window}

/-- The frame of a part is the part itself where there is no size prefix, and otherwise the frame of
the whole. -/
theorem Window.Leads.frame_narrows (hleads : Window.Leads False short long)
    (settings : ReaderSettings) {strict : Bool} {available : ℕ} :
    Narrows (ReadError.CutOff strict available)
      (fun framed framed' => Window.Leads (settings.sizePrefixed = true) framed framed' ∧
        (settings.sizePrefixed = false → framed = short))
      (settings.frame short) (settings.frame long) := by
  unfold ReaderSettings.frame
  cases settings.sizePrefixed with
  | true =>
      have hends : Ends (fun _ => True) (ReadError.CutOff strict available)
          (short.frame.mapError .malformed) := short.frame_yields.mapError fun _ hcause => hcause
      refine .of_stays (hleads.frame_stays.mapError.mono ?_) hends
      intro framed framed' hframes
      exact ⟨⟨hframes.isPrefix, fun _ => hframes.bytes trivial⟩, nofun⟩
  | false =>
      rintro _ ⟨⟩
      exact ⟨⟨hleads.isPrefix, nofun⟩, fun _ => rfl⟩

/-- A part without an identifier ends before the place of the identifier. -/
theorem Window.length_lt_of_identifier? (hnone : short.identifier? false = none) :
    short.length < Layout.offsetWidth + Layout.identifierLength := by
  simpa [identifier?, rootOffsetPosition] using hnone

/-- A strict reader that has found the expected identifier in the whole finds it in the part or
finds none. -/
theorem Window.Leads.checkIdentifier_narrows {settings : ReaderSettings} {framed framed' : Window}
    (hframed : Window.Leads (settings.sizePrefixed = true) framed framed')
    (hbare : settings.sizePrefixed = false → framed = short) :
    Narrows (ReadError.CutOff settings.strict short.length) Eq
      (settings.checkIdentifier (framed.identifier? settings.sizePrefixed))
      (settings.checkIdentifier (framed'.identifier? settings.sizePrefixed)) := by
  intro _ hlong
  unfold ReaderSettings.checkIdentifier at hlong ⊢
  refine Ends.ite (fun hother => ?_) fun _ => rfl
  obtain ⟨hstrict, hdiffers⟩ := hother
  have hexpected : framed'.identifier? settings.sizePrefixed = some settings.identifier := by
    by_contra hwrong
    rw [if_pos ⟨hstrict, hwrong⟩] at hlong
    cases hlong
  have hnone : framed.identifier? settings.sizePrefixed = none := by
    by_contra hsome
    obtain ⟨actual, hactual⟩ := Option.ne_none_iff_exists'.mp hsome
    rw [hframed.identifier?_eq hactual] at hexpected
    exact hdiffers (hactual.trans hexpected)
  cases hsized : settings.sizePrefixed with
  | true =>
      rw [hframed.identifier?_eq_of_same hsized, hnone] at hexpected
      cases hexpected
  | false =>
      rw [hsized] at hnone
      refine ⟨hstrict, hnone, ?_⟩
      rw [← hbare hsized]
      exact Window.length_lt_of_identifier? hnone

/-- Opening the part finds the root of the whole or is refused for the missing rest. -/
theorem ModelView.openWith_narrows (hleads : Window.Leads False short long)
    (settings : ReaderSettings) :
    Narrows (ReadError.CutOff settings.strict short.length)
      (fun opened opened' => Table.Leads False opened.1.table opened'.1.table)
      (ModelView.openWith short settings) (ModelView.openWith long settings) := by
  have hmalformed {α : Type} {property : α → Prop} {result : Except Malformed α}
      (hresult : Yields property result) : Ends (fun _ => True)
        (ReadError.CutOff settings.strict short.length) (result.mapError .malformed) :=
    (hresult.mono fun _ _ => trivial).mapError fun _ hcause => hcause
  apply (hleads.frame_narrows settings).bind
  rintro framed framed' ⟨hframed, hbare⟩
  apply (hframed.checkIdentifier_narrows hbare).bind
  intro _ _ _
  apply (Narrows.of_stays (hframed.rootTable_stays _).mapError
    (hmalformed (framed.indirect_yields _))).bind
  rintro root _ rfl
  have htable : Table.Leads (settings.sizePrefixed = true) ⟨framed, (root : Number)⟩
      ⟨framed', (root : Number)⟩ := ⟨hframed, rfl⟩
  apply (Narrows.of_stays (ModelView.schemaVersion_stays htable).mapError
    (hmalformed (ModelView.schemaVersion_yields _))).bind
  rintro version _ rfl
  apply (Narrows.refl _).bind
  rintro mismatch _ rfl
  rintro _ ⟨⟩
  exact ⟨⟨hframed.isPrefix, nofun⟩, rfl⟩

/-- What the part is opened to, the whole is opened to. -/
theorem ModelView.openWith_stays (hleads : Window.Leads False short long)
    (settings : ReaderSettings) :
    Stays False (ModelView.OpensAlike False) (ModelView.openWith short settings)
      (ModelView.openWith long settings) := by
  have hframe : Stays False (Window.Leads False) (settings.frame short) (settings.frame long) := by
    apply Stays.ite _ (.ok hleads)
    exact hleads.frame_stays.mapError.mono fun _ _ hframes => ⟨hframes.isPrefix, nofun⟩
  rw [openWith_eq_openFramed, openWith_eq_openFramed]
  apply hframe.bind
  intro framed framed' hframes
  exact openFramed_stays hframes settings

/-- Reading the part below its root gives the model of the whole or finds that bytes are missing.
Validation looks at the model alone. -/
theorem ModelView.decode_narrows {short long : ModelView}
    (hleads : Table.Leads False short.table long.table) (validate : Bool) {strict : Bool}
    {available : ℕ} :
    Narrows (DecodeError.CutOff strict available) Eq (short.decode validate)
      (long.decode validate) := by
  have hends : Ends (fun _ => True) (DecodeError.CutOff strict available)
      (short.unpack.mapError fun cause => .read (.malformed cause)) :=
    (short.unpack_yields.mono fun _ _ => trivial).mapError fun _ hcause => hcause
  apply (Narrows.of_stays (ModelView.unpack_stays hleads).mapError hends).bind
  rintro model _ rfl
  exact .refl _

/-- The outcome of decoding is that of opening and then reading below the root. -/
theorem Model.decode_outcome {options : DecodeOptions} {settings : ReaderSettings}
    (hsettings : options.toReaderOptions.resolve = .ok settings) (window : Window) :
    (Model.decode window options).outcome
      = (ModelView.openWith window settings).mapError .read >>= fun opened =>
          opened.1.decode (options.validate.getD false) := by
  have hopen : ModelView.open window options.toReaderOptions
      = ModelView.openWith window settings := by
    rw [ModelView.open, hsettings]
    rfl
  rw [Model.decode, hopen]
  cases ModelView.openWith window settings with
  | error error => rfl
  | ok opened => rfl

/-- What the part is decoded to, the whole is decoded to. -/
theorem Model.decode_stays (hleads : Window.Leads False short long) {options : DecodeOptions}
    {settings : ReaderSettings} (hsettings : options.toReaderOptions.resolve = .ok settings) :
    Stays False Eq (Model.decode short options).outcome (Model.decode long options).outcome := by
  rw [Model.decode_outcome hsettings, Model.decode_outcome hsettings]
  apply (ModelView.openWith_stays hleads settings).mapError.bind
  intro opened opened' hviews
  exact ModelView.decode_stays hviews.view _

/-- Truncation never changes a decoded value.  Let the bytes of one window be the first bytes of
another.  If the longer window decodes, then the shorter one decodes to the same model or is refused
in one of two ways: its bytes are found to be malformed, or its reader is strict and it ends before
the place of the identifier.  And whatever the shorter window decodes to, the longer one does. -/
theorem Model.decode_truncated (short long : Window) (hbegins : short.toList <+: long.toList)
    (options : DecodeOptions) :
    (∀ model, (Model.decode long options).outcome = .ok model →
      Ends (fun found => found = model)
        (DecodeError.CutOff (options.strict.getD false) short.length)
        (Model.decode short options).outcome) ∧
    ∀ model, (Model.decode short options).outcome = .ok model →
      (Model.decode long options).outcome = .ok model := by
  have hleads : Window.Leads False short long := ⟨hbegins, False.elim⟩
  cases hsettings : options.toReaderOptions.resolve with
  | error cause =>
      have hrefused (window : Window) (model : Model) :
          (Model.decode window options).outcome ≠ .ok model := by
        rw [Model.decode, ModelView.open, hsettings]
        intro hdecoded
        cases hdecoded
      exact ⟨fun model hlong => absurd hlong (hrefused long model),
        fun model hshort => absurd hshort (hrefused short model)⟩
  | ok settings =>
      have hstrict : settings.strict = options.strict.getD false :=
        congrArg ReaderSettings.strict (ReaderOptions.eq_of_resolve hsettings)
      constructor
      · rw [Model.decode_outcome hsettings, Model.decode_outcome hsettings, ← hstrict]
        apply ((ModelView.openWith_narrows hleads settings).mapError fun _ hcut => ?_).bind
        · intro opened opened' hviews
          exact ModelView.decode_narrows hviews _
        · exact hcut
      · intro model hshort
        have hdecoded := Model.decode_stays hleads hsettings
        rw [hshort] at hdecoded
        obtain ⟨_, hlong, rfl⟩ := hdecoded
        exact hlong

/-- The encoding of a version without a graph.  A strict reader of its first five bytes misses the
identifier, one of its first twelve bytes finds it and misses the root, and nothing changes with a
byte behind the whole. -/
theorem Model.decode_truncated_version :
    let bytes : List UInt8 := [16, 0, 0, 0, 77, 79, 68, 76, 0, 0, 6, 0, 8, 0, 4, 0, 6, 0, 0, 0, 3,
      0, 0, 0]
    let options : DecodeOptions := { strict := some true, expectedVersion := some 3 }
    ∃ model, (Model.decode (.ofList bytes) options).outcome = .ok model ∧
      model.schemaVersion = 3 ∧
      Ends (fun found => found = model) (DecodeError.CutOff true 5)
        (Model.decode (.ofList (bytes.take 5)) options).outcome ∧
      Ends (fun found => found = model) (DecodeError.CutOff true 12)
        (Model.decode (.ofList (bytes.take 12)) options).outcome ∧
      (Model.decode (.ofList (bytes ++ [9])) options).outcome = .ok model := by
  intro bytes options
  have hbegins (count : ℕ) :
      (Window.ofList (bytes.take count)).toList <+: (Window.ofList bytes).toList := by
    rw [Window.toList_ofList, Window.toList_ofList]
    exact List.take_prefix count bytes
  have hlonger : (Window.ofList bytes).toList <+: (Window.ofList (bytes ++ [9])).toList := by
    rw [Window.toList_ofList, Window.toList_ofList]
    exact List.prefix_append bytes [9]
  have hversion : (Model.decode (.ofList bytes) options).outcome.map Model.schemaVersion
      = .ok 3 := by decide
  cases hdecoded : (Model.decode (.ofList bytes) options).outcome with
  | error error =>
      rw [hdecoded] at hversion
      cases hversion
  | ok model =>
      rw [hdecoded] at hversion
      exact ⟨model, rfl, Except.ok.inj hversion,
        (Model.decode_truncated _ _ (hbegins 5) options).1 model hdecoded,
        (Model.decode_truncated _ _ (hbegins 12) options).1 model hdecoded,
        (Model.decode_truncated _ _ hlonger options).2 model hdecoded⟩

end GraphWire

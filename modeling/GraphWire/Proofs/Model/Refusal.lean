import GraphWire.Proofs.Builder.Finish
import GraphWire.Proofs.Model.Parts

/-!
# When encoding is refused

The parts of a model are written in an order in which each call of the builder is legal, so encoding
ends in bytes unless an integer is outside its type or the buffer would become too large.
-/

namespace GraphWire

open Build

/-- The head that every encoded model has. -/
def Layout.modelHead (sizePrefix : Bool) : FinishOptions :=
  ⟨some Layout.modelIdentifier, sizePrefix⟩

/-- Bytes from which a model is read back as it is kept, but for marks in front of its ids: a head
that leads to the model. -/
structure Model.KeptIn (model : Model) (force sizePrefix : Bool) (bytes : List UInt8) : Prop where
  fits : model.Fits
  head : ∃ root before after, Builder.Finishes before root (Layout.modelHead sizePrefix) after ∧
    before.Modest 2 3 ∧ after.written.bytes = bytes ∧
    (model.Readable → Reads before.written.bytes (fun table => ModelView.unpack ⟨table⟩)
      (model.kept force).reread root)

/-- Bytes of a model, whether or not defaults have been forced. -/
def Model.Written (model : Model) (sizePrefix : Bool) (bytes : List UInt8) : Prop :=
  ∃ force, model.KeptIn force sizePrefix bytes

theorem Model.Written.fits {model : Model} {sizePrefix : Bool} {bytes : List UInt8}
    (hwritten : model.Written sizePrefix bytes) : model.Fits := by
  obtain ⟨force, hkept⟩ := hwritten
  exact hkept.fits

theorem Model.writeBuffer_writes {before : Builder} (hready : before.Ready)
    (hmodest : before.Modest 0 3) (hempty : before.written.size = 0) (model : Model)
    (sizePrefix : Bool) :
    Writes (model.writeBuffer sizePrefix) before True model.Fits model.room
      fun bytes _ => model.KeptIn before.forceDefaults sizePrefix bytes := by
  unfold writeBuffer
  apply ((model.write_stores hready).fitted.bind (by simp only [room]; omega) _).of_fits
    (Iff.of_eq (and_true _))
  rintro root middle ⟨hfits, hadds, hreads⟩ hbound
  have hmiddle := hbound trivial
  have hraised := hadds.modest (le_refl 3) hmodest
  have hvalid : ∀ identifier ∈ (Layout.modelHead sizePrefix).identifier,
      Identifier.valid identifier = true := by
    rintro _ ⟨⟩
    decide
  have hfinish := finish_writes hadds.sound (root : Number) (Layout.modelHead sizePrefix)
  apply ((hfinish.of_legal fun _ => ⟨hadds.idle, hraised, ⟨root, Number.toNat?_natCast root,
    hadds.positive, hadds.within⟩, hvalid⟩).of_bound (by simp only [room]; omega)).bind_true
    (le_refl _)
  rintro _ after ⟨offset, hoffset, -, hfinishes⟩ hbound'
  obtain rfl : root = offset := by simpa using hoffset
  unfold Build.bytes
  apply Writes.get_bind
  rw [hfinishes.finished]
  exact Writes.pure ⟨hfits, root, middle, after, hfinishes, hraised, rfl, hreads hfits⟩ hbound'

/-- Encoding ends in the bytes of the model or in one of the two refusals of a legal call. -/
theorem Model.encode_ends_kept (model : Model) (options : EncodeOptions)
    {settings : BuilderSettings} (hsettings : options.toBuilderOptions.resolve = .ok settings) :
    match (model.encode options).outcome with
    | .ok bytes => model.KeptIn settings.forceDefaults (options.sizePrefix.getD false) bytes
    | .error error => Refuses model.Fits model.room error := by
  have hready : (Builder.new settings).Ready := ⟨Builder.sound_new hsettings, rfl⟩
  have hwrites := model.writeBuffer_writes hready (Builder.modest_new settings 3) rfl
    (options.sizePrefix.getD false)
  unfold encode runNew
  rw [hsettings]
  dsimp only
  unfold Writes at hwrites
  cases hresult : model.writeBuffer (options.sizePrefix.getD false) (Builder.new settings) with
  | ok bytes after =>
      rw [hresult] at hwrites
      exact hwrites.2.2
  | error error after =>
      rw [hresult] at hwrites
      exact hwrites trivial

/-- Whatever an encoder gives keeps its model. -/
theorem Model.keptIn_of_encode {model : Model} {options : EncodeOptions} {bytes : List UInt8}
    (hencoded : (model.encode options).outcome = .ok bytes) :
    ∃ settings, options.toBuilderOptions.resolve = .ok settings ∧
      model.KeptIn settings.forceDefaults (options.sizePrefix.getD false) bytes := by
  cases hsettings : options.toBuilderOptions.resolve with
  | error cause =>
      simp only [encode, runNew, hsettings] at hencoded
      cases hencoded
  | ok settings =>
      have hends := model.encode_ends_kept options hsettings
      rw [hencoded] at hends
      exact ⟨settings, rfl, hends⟩

theorem Model.encode_ends (model : Model) (options : EncodeOptions) {settings : BuilderSettings}
    (hsettings : options.toBuilderOptions.resolve = .ok settings) :
    match (model.encode options).outcome with
    | .ok bytes => model.Written (options.sizePrefix.getD false) bytes
    | .error error => Refuses model.Fits model.room error := by
  have hends := model.encode_ends_kept options hsettings
  cases houtcome : (model.encode options).outcome with
  | ok bytes =>
      rw [houtcome] at hends
      exact ⟨settings.forceDefaults, hends⟩
  | error error =>
      rw [houtcome] at hends
      exact hends

/-- A model is encoded if its integers fit and it has room in the largest buffer. -/
theorem Model.encode_isOk_of_fits {model : Model} (hfits : model.Fits)
    (hroom : model.room ≤ Layout.maxBufferSize) (options : EncodeOptions)
    {settings : BuilderSettings} (hsettings : options.toBuilderOptions.resolve = .ok settings) :
    ∃ bytes, (model.encode options).outcome = .ok bytes := by
  have hends := model.encode_ends options hsettings
  cases houtcome : (model.encode options).outcome with
  | ok bytes => exact ⟨bytes, rfl⟩
  | error error =>
      rw [houtcome] at hends
      cases error with
      | unrepresentable refused => exact absurd hfits hends
      | capacityLimit => exact absurd hroom (Nat.not_le.mpr hends)
      | _ => exact absurd hends id

/-- A model whose buffer may grow as needed is encoded exactly when every integer fits its type, and
the only other refusal is that of a buffer past the limit. -/
theorem Model.encode_isOk_iff_fits (model : Model) (options : EncodeOptions)
    (settings : BuilderSettings) (hsettings : options.toBuilderOptions.resolve = .ok settings) :
    ((model.encode options).outcome ≠ .error .capacityLimit →
      ((∃ bytes, (model.encode options).outcome = .ok bytes) ↔ model.Fits)) ∧
    ∀ error, (model.encode options).outcome = .error error →
      (∃ refused, error = .unrepresentable refused) ∧ ¬model.Fits ∨
        error = .capacityLimit ∧ Layout.maxBufferSize < model.room := by
  have hends := model.encode_ends options hsettings
  cases houtcome : (model.encode options).outcome with
  | ok bytes =>
      rw [houtcome] at hends
      refine ⟨fun _ => iff_of_true ⟨bytes, rfl⟩ hends.fits, ?_⟩
      rintro error ⟨⟩
  | error error =>
      rw [houtcome] at hends
      have hrefused : (∃ refused, error = .unrepresentable refused) ∧ ¬model.Fits ∨
          error = .capacityLimit ∧ Layout.maxBufferSize < model.room := by
        cases error with
        | unrepresentable refused => exact .inl ⟨⟨refused, rfl⟩, hends⟩
        | capacityLimit => exact .inr ⟨rfl, hends⟩
        | _ => exact absurd hends id
      constructor
      · intro hgrown
        rcases hrefused with ⟨-, hmisfit⟩ | ⟨rfl, -⟩
        · exact iff_of_false (by simp) hmisfit
        · exact absurd rfl hgrown
      · rintro _ ⟨⟩
        exact hrefused

/-- A version past the range of its type is the only thing wrong with this model. -/
theorem Model.encode_wide_version_refused :
    ∃ refused, (Model.encode ⟨(2 ^ 31 : ℕ), none⟩ {}).outcome
      = .error (.unrepresentable refused) := by
  obtain ⟨hencoded, hrefused⟩ := Model.encode_isOk_iff_fits ⟨(2 ^ 31 : ℕ), none⟩ {}
    ⟨1024, false, true⟩ (by rfl)
  have hmisfit : ¬Model.Fits ⟨(2 ^ 31 : ℕ), none⟩ := by
    intro hfits
    exact absurd hfits.1 (by decide)
  have hroom : ¬Layout.maxBufferSize < Model.room ⟨(2 ^ 31 : ℕ), none⟩ := by decide
  cases houtcome : (Model.encode ⟨(2 ^ 31 : ℕ), none⟩ {}).outcome with
  | ok bytes =>
      have hgrown : (Model.encode ⟨(2 ^ 31 : ℕ), none⟩ {}).outcome ≠ .error .capacityLimit := by
        rw [houtcome]
        rintro ⟨⟩
      exact absurd ((hencoded hgrown).mp ⟨bytes, houtcome⟩) hmisfit
  | error error =>
      rcases hrefused error houtcome with ⟨⟨refused, rfl⟩, -⟩ | ⟨-, hpast⟩
      · exact ⟨refused, rfl⟩
      · exact absurd hpast hroom

end GraphWire

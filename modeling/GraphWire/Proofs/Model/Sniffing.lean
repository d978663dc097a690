import GraphWire.Proofs.Model.Framing

/-!
# Telling a model by its identifier

Whether some bytes carry the identifier of a model can be asked without opening them.  A strict
reader asks the same of the frame that it has cut out of the bytes.  The two agree, but for a frame
that ends before an identifier could: there the question is answered from what follows the frame.
-/

namespace GraphWire

/-- What a strict reader is asked for, and nothing else. -/
def ReaderOptions.strictly (sizePrefixed : Bool) : ReaderOptions :=
  { strict := some true, sizePrefixed := some sizePrefixed }

/-- Bytes that are framed as a reader expects: there is a size prefix, if one is expected, and it
declares no more than what follows it. -/
def Window.Frames (window : Window) (sizePrefixed : Bool) : Prop :=
  sizePrefixed = true → Layout.sizePrefixWidth + declaredSize window.toList ≤ window.length

/-- A frame that reaches past its root offset and an identifier. -/
def Window.FramesIdentifier (window : Window) (sizePrefixed : Bool) : Prop :=
  sizePrefixed = true → Layout.offsetWidth + Layout.identifierLength ≤ declaredSize window.toList

/-! ## Identifiers -/

namespace Window

theorem hasIdentifier_iff {window : Window} {identifier : String} {sizePrefixed : Bool} :
    window.hasIdentifier identifier sizePrefixed = true ↔
      window.identifier? sizePrefixed = some identifier := by
  simp [hasIdentifier]

/-- The first bytes of a window carry its identifier if they reach past it, and none otherwise. -/
theorem identifier?_take (window : Window) (length : ℕ) (sizePrefixed : Bool) :
    (window.take length).identifier? sizePrefixed
      = if rootOffsetPosition sizePrefixed + Layout.offsetWidth + Layout.identifierLength ≤ length
        then window.identifier? sizePrefixed else none := by
  have hlength : (window.take length).length = min length window.length := rfl
  simp only [identifier?, hlength]
  by_cases hreaches :
      rootOffsetPosition sizePrefixed + Layout.offsetWidth + Layout.identifierLength ≤ length
  · have hslice : (window.take length).slice (rootOffsetPosition sizePrefixed + Layout.offsetWidth)
          Layout.identifierLength
        = window.slice (rootOffsetPosition sizePrefixed + Layout.offsetWidth)
          Layout.identifierLength := by
      rw [slice_eq, slice_eq, toList_take, List.drop_take, List.take_take,
        Nat.min_eq_left (by omega)]
    simp only [Nat.le_min, hreaches, true_and, hslice, if_true]
  · rw [if_neg hreaches, if_neg (by omega)]

end Window

/-! ## Opening strictly -/

/-- An error that is not about the identifier. -/
def ReadError.NotIdentifier : ReadError → Prop
  | .identifier _ _ => False
  | _ => True

theorem ends_notIdentifier {α : Type} (result : Except Malformed α) :
    Ends (fun _ => True) ReadError.NotIdentifier (result.mapError .malformed) := by
  cases result with
  | ok value => trivial
  | error cause => trivial

/-- Past the identifier of a frame nothing is refused for it. -/
theorem ModelView.openFramed_ends {framed : Window} {settings : ReaderSettings}
    (hexpected : framed.identifier? settings.sizePrefixed = some settings.identifier) :
    Ends (fun _ => True) ReadError.NotIdentifier (openFramed framed settings) := by
  unfold openFramed ReaderSettings.checkIdentifier
  rw [if_neg fun hother => hother.2 hexpected]
  apply Ends.bind (show Ends (fun _ => True) ReadError.NotIdentifier (.ok ()) from trivial)
  intro _ _
  apply Ends.bind (ends_notIdentifier _)
  intro root _
  apply Ends.bind (ends_notIdentifier _)
  intro version _
  have hversion : Ends (fun _ => True) ReadError.NotIdentifier (settings.checkVersion version) := by
    unfold ReaderSettings.checkVersion
    exact Ends.ite (fun _ => trivial) fun _ => Ends.ite (fun _ => trivial) fun _ => trivial
  exact hversion.bind fun _ _ => trivial

theorem ModelView.openFramed_eq_error {framed : Window} {settings : ReaderSettings}
    (hstrict : settings.strict = true)
    (hother : framed.identifier? settings.sizePrefixed ≠ some settings.identifier) :
    openFramed framed settings = .error
      (.identifier settings.identifier (framed.identifier? settings.sizePrefixed)) := by
  unfold openFramed ReaderSettings.checkIdentifier
  rw [if_pos ⟨hstrict, hother⟩]
  rfl

/-- A strict reader refuses a frame for its identifier exactly if that is not the expected one. -/
theorem ModelView.openFramed_refused_iff {framed : Window} {settings : ReaderSettings}
    (hstrict : settings.strict = true) :
    (∃ expected actual, openFramed framed settings = .error (.identifier expected actual)) ↔
      framed.identifier? settings.sizePrefixed ≠ some settings.identifier := by
  constructor
  · rintro ⟨expected, actual, hrefused⟩ hexpected
    have hends := openFramed_ends hexpected
    rw [hrefused] at hends
    exact hends
  · intro hother
    exact ⟨_, _, openFramed_eq_error hstrict hother⟩

/-- The bytes that are opened: those of the frame that a size prefix declares, or all of them. -/
def Window.framed (window : Window) (sizePrefixed : Bool) : Window :=
  if sizePrefixed then window.take (Layout.sizePrefixWidth + declaredSize window.toList) else window

/-- The frame carries the identifier of a model if the bytes do so and the frame reaches past it. -/
theorem Window.framed_identifier?_iff (window : Window) (sizePrefixed : Bool) :
    (window.framed sizePrefixed).identifier? sizePrefixed = some Layout.modelIdentifier ↔
      hasModelIdentifier window sizePrefixed = true ∧ window.FramesIdentifier sizePrefixed := by
  unfold hasModelIdentifier framed FramesIdentifier
  rw [hasIdentifier_iff]
  cases sizePrefixed with
  | false => simp
  | true =>
      have hreaches : rootOffsetPosition true + Layout.offsetWidth + Layout.identifierLength
          ≤ Layout.sizePrefixWidth + declaredSize window.toList ↔
            Layout.offsetWidth + Layout.identifierLength ≤ declaredSize window.toList := by
        have hroot : rootOffsetPosition true = Layout.sizePrefixWidth := rfl
        omega
      rw [if_pos rfl, identifier?_take]
      simp only [hreaches, forall_const]
      split
      · next hlong => simp [hlong]
      · next hshort => simp [hshort]

theorem ModelView.open_strictly {window : Window} {sizePrefixed : Bool}
    (hframes : window.Frames sizePrefixed) :
    ModelView.open window (.strictly sizePrefixed)
      = openFramed (window.framed sizePrefixed)
          ⟨true, Layout.modelIdentifier, sizePrefixed, .ofInt Layout.schemaVersion⟩ := by
  have hresolved : (ReaderOptions.strictly sizePrefixed).resolve
      = .ok ⟨true, Layout.modelIdentifier, sizePrefixed, .ofInt Layout.schemaVersion⟩ := by
    cases sizePrefixed <;> rfl
  simp only [ModelView.open, hresolved, Except.mapError, bind, Except.bind,
    openWith_eq_openFramed, ReaderSettings.frame, Window.framed]
  cases sizePrefixed with
  | false => rfl
  | true =>
      have hfits := hframes rfl
      simp only [if_true, window.frame_eq_ok (by omega) hfits]

/-- Bytes that are framed as expected carry the identifier of a model inside their frame exactly if
a strict reader does not refuse them for their identifier.  So the two questions have one answer,
but for a frame that is shorter than a root offset and an identifier. -/
theorem identifier_told_strictly (window : Window) (sizePrefixed : Bool)
    (hframes : window.Frames sizePrefixed) :
    hasModelIdentifier window sizePrefixed = true ∧ window.FramesIdentifier sizePrefixed ↔
      ∀ expected actual, ModelView.open window (.strictly sizePrefixed)
        ≠ .error (.identifier expected actual) := by
  rw [← window.framed_identifier?_iff, ModelView.open_strictly hframes]
  simp only [← not_exists]
  rw [ModelView.openFramed_refused_iff (by rfl), not_not]

/-- A frame with two bytes of the next one behind it. -/
theorem identifier_told_strictly_frame :
    let window := Window.ofList [24, 0, 0, 0, 16, 0, 0, 0, 77, 79, 68, 76, 0, 0, 6, 0, 8, 0, 4, 0,
      6, 0, 0, 0, 3, 0, 0, 0, 9, 0]
    window.Frames true ∧ hasModelIdentifier window true = true ∧ window.FramesIdentifier true ∧
      ∀ expected actual, ModelView.open window (.strictly true)
        ≠ .error (.identifier expected actual) := by
  intro window
  have hframes : window.Frames true := fun _ => by decide
  have hcarries : hasModelIdentifier window true = true := by decide
  have hreaches : window.FramesIdentifier true := fun _ => by decide
  exact ⟨hframes, hcarries, hreaches,
    (identifier_told_strictly window true hframes).mp ⟨hcarries, hreaches⟩⟩

/-- A frame of four bytes ends before its identifier.  Asked without opening it, the bytes behind it
are taken for that. -/
theorem identifier_told_past_frame :
    let window := Window.ofList [4, 0, 0, 0, 0, 0, 0, 0, 77, 79, 68, 76]
    window.Frames true ∧ hasModelIdentifier window true = true ∧
      ModelView.open window (.strictly true)
        = .error (.identifier Layout.modelIdentifier none) := by
  intro window
  have hframes : window.Frames true := fun _ => by decide
  have hnone : (window.framed true).identifier? true = none := by decide
  refine ⟨hframes, by decide, ?_⟩
  rw [ModelView.open_strictly hframes, ModelView.openFramed_eq_error rfl (by simp [hnone]), hnone]

end GraphWire

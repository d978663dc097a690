import GraphWire.Proofs.Model.Extension
import GraphWire.Proofs.Model.Refusal

/-!
# Framing by size prefixes

A buffer that starts with the byte length of the rest is a frame: a reader that expects the prefix
looks at the frame and at nothing behind it, and takes no part of the frame for the whole.  Encoding
with a size prefix makes frames, so frames that lie one after another are read one after another.
-/

namespace GraphWire

/-- The byte length that the size prefix of some bytes declares for the rest. -/
def declaredSize (bytes : List UInt8) : ℕ :=
  LittleEndian.combine (bytes.take Layout.sizePrefixWidth)

/-- Bytes that start with the byte length of the rest. -/
structure Framed (bytes : List UInt8) : Prop where
  head : Layout.sizePrefixWidth ≤ bytes.length
  declared : declaredSize bytes = bytes.length - Layout.sizePrefixWidth

/-- The first frames of a stream, cut off by reading each prefix in turn. -/
def cutFrames : ℕ → List UInt8 → List (List UInt8)
  | 0, _ => []
  | count + 1, stream =>
      let size := Layout.sizePrefixWidth + declaredSize stream
      stream.take size :: cutFrames count (stream.drop size)

/-- Decodes the first frames of a stream in place, each of them with all that is behind it. -/
def decodeFrames (options : DecodeOptions) : ℕ → List UInt8 → List (Logged DecodeError Model)
  | 0, _ => []
  | count + 1, stream =>
      let size := Layout.sizePrefixWidth + declaredSize stream
      Model.decode (.ofList stream) options :: decodeFrames options count (stream.drop size)

/-! ## The window of a frame -/

/-- Why bytes are refused that are fewer than their size prefix declares. -/
def cutShort (declared available : ℕ) : Malformed :=
  if available < Layout.sizePrefixWidth then .outside Layout.sizePrefixWidth 0 available
  else .sizePrefix declared (available - Layout.sizePrefixWidth)

theorem Window.load_prefix {window : Window} (hhead : Layout.sizePrefixWidth ≤ window.length) :
    window.load 0 Layout.sizePrefixWidth = .ok (declaredSize window.toList) := by
  rw [window.load_eq (by omega), wordAt, Window.slice_eq, List.drop_zero]
  rfl

theorem Window.frame_eq_ok {window : Window} (hhead : Layout.sizePrefixWidth ≤ window.length)
    (hdeclared : Layout.sizePrefixWidth + declaredSize window.toList ≤ window.length) :
    window.frame
      = .ok (window.take (Layout.sizePrefixWidth + declaredSize window.toList)) := by
  have hclaim : window.claim 0 Layout.sizePrefixWidth = .ok 0 :=
    Window.claim_natCast (show 0 + Layout.sizePrefixWidth ≤ window.length by omega)
  have hinside : ¬window.length - Layout.sizePrefixWidth < declaredSize window.toList := by omega
  unfold frame
  simp only [hclaim, window.load_prefix hhead, bind, Except.bind, if_neg hinside]
  rfl

theorem Window.frame_eq_error {window : Window} {declared : ℕ}
    (hdeclared : Layout.sizePrefixWidth ≤ window.length → declaredSize window.toList = declared)
    (hshort : window.length < Layout.sizePrefixWidth + declared) :
    window.frame = .error (cutShort declared window.length) := by
  unfold frame cutShort
  by_cases hhead : Layout.sizePrefixWidth ≤ window.length
  · have hclaim : window.claim 0 Layout.sizePrefixWidth = .ok 0 :=
      Window.claim_natCast (show 0 + Layout.sizePrefixWidth ≤ window.length by omega)
    have hpast : window.length - Layout.sizePrefixWidth < declared := by omega
    simp only [hclaim, window.load_prefix hhead, hdeclared hhead, bind, Except.bind, if_pos hpast,
      if_neg (Nat.not_lt.mpr hhead)]
    rfl
  · have hclaim : window.claim 0 Layout.sizePrefixWidth
        = .error (.outside Layout.sizePrefixWidth 0 window.length) := by
      have hzero : Number.toNat? 0 = some 0 := Number.toNat?_literal 0
      simp only [claim, hzero, Nat.zero_add, if_neg hhead]
    simp only [hclaim, bind, Except.bind, if_pos (Nat.not_le.mp hhead)]

namespace Framed

variable {frame tail : List UInt8} {window : Window}

theorem declaredSize_append (hframed : Framed frame) (tail : List UInt8) :
    declaredSize (frame ++ tail) = frame.length - Layout.sizePrefixWidth := by
  rw [← hframed.declared]
  unfold declaredSize
  rw [List.take_append_of_le_length hframed.head]

theorem size_append (hframed : Framed frame) (tail : List UInt8) :
    Layout.sizePrefixWidth + declaredSize (frame ++ tail) = frame.length := by
  have hhead := hframed.head
  rw [hframed.declaredSize_append]
  omega

/-- The window of a frame holds the frame, whatever is behind it. -/
theorem frame_eq (hframed : Framed frame) (hwindow : window.toList = frame ++ tail) :
    ∃ framed, window.frame = .ok framed ∧ framed.toList = frame := by
  have hsize := hframed.size_append tail
  have hlength := congrArg List.length hwindow
  rw [Window.length_toList, List.length_append] at hlength
  have hhead := hframed.head
  rw [← hwindow] at hsize
  refine ⟨_, Window.frame_eq_ok (by omega) (by omega), ?_⟩
  rw [Window.toList_take, hsize, hwindow, List.take_left]

/-- Less than a whole frame is refused. -/
theorem frame_eq_error (hframed : Framed frame) (hbegins : window.toList <+: frame)
    (hproper : window.toList ≠ frame) :
    window.frame
      = .error (cutShort (frame.length - Layout.sizePrefixWidth) window.length) := by
  obtain ⟨rest, hrest⟩ := hbegins
  have hlength := congrArg List.length hrest
  rw [List.length_append, Window.length_toList] at hlength
  have hhead := hframed.head
  have hmissing : rest ≠ [] := by
    rintro rfl
    exact hproper (by rw [← hrest, List.append_nil])
  have hpositive := List.length_pos_iff.mpr hmissing
  apply Window.frame_eq_error
  · intro hstarts
    rw [← hframed.declared, ← hrest]
    unfold declaredSize
    rw [List.take_append_of_le_length (by rwa [Window.length_toList])]
  · omega

end Framed

/-! ## Opening and decoding -/

/-- Two outcomes of opening a buffer: the same error, or the same records and roots from which every
path leads to the same. -/
def ModelView.SameOpening : Except ReadError (ModelView × List Event) →
    Except ReadError (ModelView × List Event) → Prop
  | .ok (view, events), .ok (view', events') =>
      view'.table.position = view.table.position ∧ events' = events ∧
        ∀ {α : Type} (path : Path .model α), path.follow view' = path.follow view
  | .error error, .error error' => error' = error
  | _, _ => False

namespace Framed

variable {frame tail : List UInt8} {short long : Window}

/-- Opening a frame is opening it with whatever is behind it. -/
theorem open_stays (hframed : Framed frame) (hshort : short.toList = frame)
    (hlong : long.toList = frame ++ tail) {options : ReaderOptions}
    (hsized : options.sizePrefixed = some true) :
    Stays True (ModelView.OpensAlike True) (ModelView.open short options)
      (ModelView.open long options) := by
  unfold ModelView.open
  cases hsettings : options.resolve with
  | error cause => exact .error _
  | ok settings =>
      have hexpected := congrArg ReaderSettings.sizePrefixed (ReaderOptions.eq_of_resolve hsettings)
      rw [hsized, Option.getD_some] at hexpected
      have hnothing : short.toList = frame ++ [] := by rw [hshort, List.append_nil]
      obtain ⟨alone, halone, hbytes⟩ := hframed.frame_eq hnothing
      obtain ⟨first, hfirst, hbytes'⟩ := hframed.frame_eq hlong
      have hleads : Window.Leads True alone first :=
        ⟨by rw [hbytes, hbytes'], fun _ => by rw [hbytes, hbytes']⟩
      have hopened := ModelView.openFramed_stays hleads settings
      change Stays True _ (ModelView.openWith short settings) (ModelView.openWith long settings)
      simp only [ModelView.openWith_eq_openFramed, ReaderSettings.frame, hexpected, halone, hfirst]
      exact hopened

/-- Decoding a frame is decoding it with whatever is behind it. -/
theorem decode_append (hframed : Framed frame) (hshort : short.toList = frame)
    (hlong : long.toList = frame ++ tail) {options : DecodeOptions}
    (hsized : options.sizePrefixed = some true) :
    Model.decode long options = Model.decode short options := by
  have hopened := hframed.open_stays hshort hlong hsized
  unfold Model.decode
  cases hresult : ModelView.open short options.toReaderOptions with
  | error error =>
      rw [hresult] at hopened
      rw [hopened trivial]
  | ok opened =>
      rw [hresult] at hopened
      obtain ⟨opened', hresult', hview, hevents⟩ := hopened
      rw [hresult']
      simp only [hevents trivial, (ModelView.decode_stays hview _).eq]

theorem open_append (hframed : Framed frame) (hshort : short.toList = frame)
    (hlong : long.toList = frame ++ tail) {options : ReaderOptions}
    (hsized : options.sizePrefixed = some true) :
    ModelView.SameOpening (ModelView.open short options) (ModelView.open long options) := by
  have hopened := hframed.open_stays hshort hlong hsized
  cases hresult : ModelView.open short options with
  | error error =>
      rw [hresult] at hopened
      rw [hopened trivial]
      rfl
  | ok opened =>
      rw [hresult] at hopened
      obtain ⟨opened', hresult', hview, hevents⟩ := hopened
      rw [hresult']
      exact ⟨hview.position, hevents trivial, fun path => path.follow_eq hview⟩

/-- A reader of less than a whole frame finds that bytes are missing, before it looks at anything
else. -/
theorem open_eq_error (hframed : Framed frame) (hbegins : short.toList <+: frame)
    (hproper : short.toList ≠ frame) {options : ReaderOptions} {settings : ReaderSettings}
    (hsettings : options.resolve = .ok settings) (hsized : settings.sizePrefixed = true) :
    ModelView.open short options = .error (.malformed
      (cutShort (frame.length - Layout.sizePrefixWidth) short.length)) := by
  simp only [ModelView.open, hsettings, bind, Except.bind, Except.mapError,
    ModelView.openWith_eq_openFramed, ReaderSettings.frame, hsized, if_true,
    hframed.frame_eq_error hbegins hproper]

end Framed

/-- A model that is encoded with a size prefix is a frame. -/
theorem Model.KeptIn.framed {model : Model} {force : Bool} {bytes : List UInt8}
    (hkept : model.KeptIn force true bytes) : Framed bytes := by
  obtain ⟨-, root, before, after, hfinishes, -, rfl, -⟩ := hkept
  have hplaced := hfinishes.sizePrefix rfl
  have hhead := hplaced.length_le
  rw [LittleEndian.length_split] at hhead
  have hsize := after.written.size_eq
  have hlimit := hfinishes.limited
  have hmaximum := Layout.maxBufferSize_lt
  have hbytes := hplaced.take_drop
  rw [← hsize, Nat.sub_self, List.drop_zero, LittleEndian.length_split] at hbytes
  refine ⟨by simp only [Layout.sizePrefixWidth]; omega, ?_⟩
  simp only [declaredSize, Layout.sizePrefixWidth, hbytes, ← hsize]
  exact LittleEndian.combine_split_of_lt (by omega)

theorem Model.framed_of_encode {model : Model} {options : EncodeOptions} {bytes : List UInt8}
    (hencoded : (model.encode options).outcome = .ok bytes)
    (hsized : options.sizePrefix = some true) : Framed bytes := by
  obtain ⟨settings, -, hkept⟩ := Model.keptIn_of_encode hencoded
  rw [hsized, Option.getD_some] at hkept
  exact hkept.framed

/-! ## Streams of frames -/

theorem cutFrames_flatten {frames : List (List UInt8)} (hframed : ∀ frame ∈ frames, Framed frame)
    (tail : List UInt8) : cutFrames frames.length (frames.flatten ++ tail) = frames := by
  induction frames with
  | nil => rfl
  | cons frame frames ih =>
      rw [List.forall_mem_cons] at hframed
      obtain ⟨hfirst, hrest⟩ := hframed
      simp only [List.length_cons, cutFrames, List.flatten_cons, List.append_assoc,
        hfirst.size_append, List.take_left, List.drop_left, ih hrest]

theorem decodeFrames_flatten {frames : List (List UInt8)}
    (hframed : ∀ frame ∈ frames, Framed frame) (tail : List UInt8) {options : DecodeOptions}
    (hsized : options.sizePrefixed = some true) :
    decodeFrames options frames.length (frames.flatten ++ tail)
      = frames.map fun frame => Model.decode (.ofList frame) options := by
  induction frames with
  | nil => rfl
  | cons frame frames ih =>
      rw [List.forall_mem_cons] at hframed
      obtain ⟨hfirst, hrest⟩ := hframed
      have hdecoded := hfirst.decode_append (Window.toList_ofList frame)
        (Window.toList_ofList (frame ++ (frames.flatten ++ tail))) hsized
      simp only [List.length_cons, decodeFrames, List.flatten_cons, List.append_assoc,
        hfirst.size_append, List.drop_left, ih hrest, hdecoded, List.map_cons]

/-- Frames and size prefixes agree.  What follows a frame changes nothing of what any reader that
expects the prefix can find out, and any reader refuses a part of a frame for the bytes that are
missing.  Encoding with a size prefix gives a frame.  So the encodings of some models that lie one
after another are cut apart by reading each prefix in turn, and decoded in place as they are alone,
whatever follows the last of them. -/
theorem sizePrefix_frames :
    (∀ (frame tail : List UInt8) (short long : Window), Framed frame → short.toList = frame →
      long.toList = frame ++ tail →
      (∀ options : ReaderOptions, options.sizePrefixed = some true →
        ModelView.SameOpening (ModelView.open short options) (ModelView.open long options)) ∧
      ∀ options : DecodeOptions, options.sizePrefixed = some true →
        Model.decode long options = Model.decode short options) ∧
    (∀ (frame : List UInt8) (window : Window), Framed frame → window.toList <+: frame →
      window.toList ≠ frame → ∃ cause : Malformed, cause.inBytes = true ∧
        (∀ (options : ReaderOptions) (settings : ReaderSettings), options.resolve = .ok settings →
          settings.sizePrefixed = true →
          ModelView.open window options = .error (.malformed cause)) ∧
        ∀ (options : DecodeOptions) (settings : ReaderSettings),
          options.toReaderOptions.resolve = .ok settings → settings.sizePrefixed = true →
          Model.decode window options = ⟨[], .error (.read (.malformed cause))⟩) ∧
    (∀ (model : Model) (options : EncodeOptions) (bytes : List UInt8),
      (model.encode options).outcome = .ok bytes → options.sizePrefix = some true →
      Framed bytes) ∧
    ∀ (encodings : List (Model × EncodeOptions × List UInt8)) (tail : List UInt8),
      (∀ entry ∈ encodings, entry.2.1.sizePrefix = some true ∧
        (entry.1.encode entry.2.1).outcome = .ok entry.2.2) →
      let frames := encodings.map fun entry => entry.2.2
      cutFrames frames.length (frames.flatten ++ tail) = frames ∧
        ∀ options : DecodeOptions, options.sizePrefixed = some true →
          decodeFrames options frames.length (frames.flatten ++ tail)
            = frames.map fun frame => Model.decode (.ofList frame) options := by
  refine ⟨?_, ?_, ?_, ?_⟩
  · intro frame tail short long hframed hshort hlong
    exact ⟨fun options hsized => hframed.open_append hshort hlong hsized,
      fun options hsized => hframed.decode_append hshort hlong hsized⟩
  · intro frame window hframed hbegins hproper
    have hopen {options : ReaderOptions} {settings : ReaderSettings}
        (hsettings : options.resolve = .ok settings) (hsized : settings.sizePrefixed = true) :=
      hframed.open_eq_error hbegins hproper hsettings hsized
    refine ⟨cutShort (frame.length - Layout.sizePrefixWidth) window.length, ?_,
      fun options settings => hopen, ?_⟩
    · unfold cutShort
      split <;> rfl
    · intro options settings hsettings hsized
      rw [Model.decode, hopen hsettings hsized]
  · intro model options bytes hencoded hsized
    exact Model.framed_of_encode hencoded hsized
  · intro encodings tail hencodings frames
    have hframed : ∀ frame ∈ frames, Framed frame := by
      intro frame hframe
      obtain ⟨entry, hentry, rfl⟩ := List.mem_map.mp hframe
      obtain ⟨hsized, hencoded⟩ := hencodings entry hentry
      exact Model.framed_of_encode hencoded hsized
    exact ⟨cutFrames_flatten hframed tail, fun options => decodeFrames_flatten hframed tail⟩

/-- An encoded model with two bytes of the next buffer behind it, without its last byte, and twice
in a row. -/
theorem sizePrefix_frames_version :
    let model : Model := ⟨3, none⟩
    let bytes : List UInt8 := [24, 0, 0, 0, 16, 0, 0, 0, 77, 79, 68, 76, 0, 0, 6, 0, 8, 0, 4, 0, 6,
      0, 0, 0, 3, 0, 0, 0]
    let options : DecodeOptions := { sizePrefixed := some true }
    let alone := Model.decode (.ofList bytes) options
    alone.outcome.map Model.schemaVersion = .ok 3 ∧
      (model.encode { sizePrefix := some true }).outcome = .ok bytes ∧ Framed bytes ∧
      Model.decode (.ofList (bytes ++ [9, 0])) options = alone ∧
      (∃ cause : Malformed, cause.inBytes = true ∧ Model.decode (.ofList (bytes.take 27)) options
        = ⟨[], .error (.read (.malformed cause))⟩) ∧
      decodeFrames options 2 (bytes ++ (bytes ++ [9, 0])) = [alone, alone] := by
  intro model bytes options alone
  obtain ⟨happend, hcut, hencode, hstream⟩ := sizePrefix_frames
  have hencoded : (model.encode { sizePrefix := some true }).outcome = .ok bytes := by
    decide +kernel
  have hframed := hencode model { sizePrefix := some true } bytes hencoded rfl
  have hshort : (Window.ofList (bytes.take 27)).toList ≠ bytes := by
    rw [Window.toList_ofList]
    decide
  have hbegins : (Window.ofList (bytes.take 27)).toList <+: bytes := by
    rw [Window.toList_ofList]
    exact List.take_prefix 27 bytes
  obtain ⟨cause, hbytes, -, hrefused⟩ := hcut bytes _ hframed hbegins hshort
  have hframes := hstream [(model, { sizePrefix := some true }, bytes),
    (model, { sizePrefix := some true }, bytes)] [9, 0] (by simp [hencoded])
  refine ⟨by decide +kernel, hencoded, hframed, ?_, ⟨cause, hbytes, ?_⟩, ?_⟩
  · exact (happend bytes [9, 0] _ _ hframed (Window.toList_ofList _) (Window.toList_ofList _)).2
      options rfl
  · have hsettings : ReaderOptions.resolve { sizePrefixed := some true }
        = .ok ⟨false, "MODL", true, .ofInt 1⟩ := by rfl
    exact hrefused options _ hsettings rfl
  · exact hframes.2 options rfl

end GraphWire

import GraphWire.Proofs.Builder.Refinement
import GraphWire.Proofs.Session.Growth

/-!
# Sessions over a scratch array

Every call on a builder over a scratch array has the outcome that it has over a region, so a whole
session has: whatever is proved of sessions over regions is true of a running program.  With the
lemmas about capacities it follows that growth, which copies the array and changes every index,
cannot be observed.
-/

namespace GraphWire

open Build

variable {α β : Type}

/-! ## Writers -/

namespace Build

theorem Refines.map {concrete : BuildOver Scratch α} {abstract : Build α}
    (hrefines : Refines concrete abstract) (form : α → β) :
    Refines (form <$> concrete) (form <$> abstract) :=
  hrefines.bind fun value => .pure (form value)

theorem Refines.mapM {write : α → BuildOver Scratch β} {write' : α → Build β}
    (hwrite : ∀ item, Refines (write item) (write' item)) (items : List α) :
    Refines (items.mapM write) (items.mapM write') := by
  induction items with
  | nil => exact .pure []
  | cons item items ih =>
      rw [List.mapM_cons, List.mapM_cons]
      exact (hwrite item).bind fun _ => ih.bind fun _ => .pure _

theorem Refines.reference {write : α → BuildOver Scratch ℕ} {write' : α → Build ℕ}
    (hwrite : ∀ child, Refines (write child) (write' child)) (child : Option α) :
    Refines (Build.reference (child.map write)) (Build.reference (child.map write')) := by
  cases child with
  | none => exact .pure _
  | some child => exact (hwrite child).bind fun _ => .pure _

theorem string_refines (text : String) : Refines (string text) (string text) :=
  stringBytes_refines (Utf8.encode text)

end Build

theorem AttrType.writeField_refines (type : AttrType) (value : Option type.Value) :
    Refines (type.writeField value) (type.writeField value) := by
  cases type with
  | scalar _ | padMode => exact .pure _
  | indices => exact .reference (scalars_refines .uint32) value

theorem AttrRecord.writeFields_refines {attrs : List AttrField} (record : AttrRecord attrs) :
    Refines record.writeFields record.writeFields := by
  induction record with
  | nil => exact .pure []
  | cons value rest ih =>
      exact (AttrType.writeField_refines _ value).bind fun _ => ih.bind fun _ => .pure _

theorem Attrs.write_refines (attrs : Attrs) : Refines attrs.write attrs.write :=
  attrs.record.writeFields_refines.bind table_refines

theorem Payload.write_refines (payload : Payload) : Refines payload.write payload.write := by
  obtain ⟨kind, data⟩ := payload
  cases kind with
  | floats => exact (Refines.reference (scalars_refines .float32) data).bind fun _ => table_refines _
  | ints => exact (Refines.reference (scalars_refines .int32) data).bind fun _ => table_refines _

theorem Operator.write_refines (operator : Operator) : Refines operator.write operator.write :=
  (Refines.reference (scalars_refines .uint32) _).bind fun _ =>
    (Refines.reference Attrs.write_refines _).bind fun _ => table_refines _

theorem Constant.write_refines (constant : Constant) : Refines constant.write constant.write :=
  (Refines.reference (scalars_refines .uint32) _).bind fun _ =>
    (Refines.reference Payload.write_refines _).bind fun _ => table_refines _

theorem NodeData.write_refines (data : NodeData) : Refines data.write data.write := by
  cases data with
  | operator content => exact content.write_refines
  | constant content => exact content.write_refines
  | value => exact table_refines []

theorem Node.write_refines (node : Node) : Refines node.write node.write :=
  (Refines.reference string_refines _).bind fun _ =>
    (Refines.reference NodeData.write_refines _).bind fun _ => table_refines _

theorem Graph.write_refines (graph : Graph) : Refines graph.write graph.write := by
  have hnodes (nodes : List Node) : Refines (Graph.writeNodes nodes) (Graph.writeNodes nodes) :=
    (Refines.mapM Node.write_refines nodes).bind fun _ => offsets_refines _
  exact (Refines.reference hnodes _).bind fun _ => table_refines _

theorem Model.write_refines (model : Model) : Refines model.write model.write :=
  (Refines.reference Graph.write_refines _).bind fun _ => table_refines _

/-! ## Calls -/

theorem Call.perform_refines (call : Call) : Refines call.perform call.perform := by
  have hnothing {concrete : BuildOver Scratch Unit} {abstract : Build Unit}
      (hrefines : Refines concrete abstract) :
      Refines (Call.perform.nothing concrete) (Call.perform.nothing abstract) :=
    hrefines.bind fun _ => .pure _
  cases call with
  | prepare alignment additional => exact hnothing (prepare_refines alignment additional)
  | write type value => exact hnothing (Build.write_refines type value)
  | writeOffset target => exact hnothing (writeOffset_refines target)
  | addField slot field => exact hnothing (addField_refines slot field)
  | startTable fieldCount => exact hnothing (startTable_refines fieldCount)
  | endTable => exact endTable_refines.map _
  | startVector elementSize count alignment =>
      exact hnothing (startVector_refines elementSize count alignment)
  | endVector => exact endVector_refines.map _
  | scalars type values => exact (scalars_refines type values).map _
  | offsets targets => exact (offsets_refines targets).map _
  | string content => exact (stringBytes_refines content).map _
  | attrs content => exact content.write_refines.map _
  | payload content => exact content.write_refines.map _
  | operator content => exact content.write_refines.map _
  | constant content => exact content.write_refines.map _
  | valueNode => exact (table_refines []).map _
  | node content => exact content.write_refines.map _
  | graph content => exact content.write_refines.map _
  | model content => exact content.write_refines.map _
  | finish root options => exact hnothing (finish_refines root options)
  | bytes => exact bytes_refines.map _
  | offset => exact .look fun builder => .pure (Answer.offset builder.offset)
  | clear => exact hnothing clear_refines

/-! ## Sessions -/

namespace Builder

variable {builder : Builder Scratch}

/-- A call over a scratch array is the call over the region that the array stands for. -/
theorem Fitted.step (hfitted : builder.Fitted) (call : Call) :
    builder.plain.step call = ((builder.step call).1, (builder.step call).2.plain) ∧
      (builder.step call).2.Fitted := by
  have hcall := call.perform_refines builder hfitted
  unfold RefinesAt at hcall
  unfold Builder.step
  cases hresult : call.perform builder with
  | ok answer next =>
      rw [hresult] at hcall
      rw [hcall.1]
      exact ⟨rfl, hcall.2⟩
  | error error next =>
      rw [hresult] at hcall
      rw [hcall.1]
      exact ⟨rfl, hcall.2⟩

/-- And so is a whole session, whether or not its calls succeed. -/
theorem Fitted.run (hfitted : builder.Fitted) (calls : List Call) :
    builder.plain.run calls = ((builder.run calls).1, (builder.run calls).2.plain) ∧
      (builder.run calls).2.Fitted := by
  induction calls generalizing builder with
  | nil => exact ⟨rfl, hfitted⟩
  | cons call calls ih =>
      obtain ⟨hstep, hnext⟩ := hfitted.step call
      obtain ⟨hlater, hlast⟩ := ih hnext
      simp only [Builder.run, hstep, hlater]
      exact ⟨trivial, hlast⟩

theorem fitted_new {options : BuilderOptions} {settings : BuilderSettings}
    (hsettings : options.resolve = .ok settings) : (Builder.new settings Scratch).Fitted where
  spans := Scratch.spans_blank _
  limited := (options.settings_of_resolve hsettings).1.2
  alignment := Number.atLeast_ofInt 1
  finished := nofun

theorem plain_new (settings : BuilderSettings) :
    (Builder.new settings Scratch).plain = Builder.new settings :=
  congrArg (fun written : Region => { Builder.new settings with written })
    (Scratch.region_blank settings.initialSize)

/-- A session on a new array has the outcomes that it has on a new region, and the array it leaves
stands for the region. -/
theorem run_new_scratch {options : BuilderOptions} {settings : BuilderSettings}
    (hsettings : options.resolve = .ok settings) (calls : List Call) :
    let session := (Builder.new settings Scratch).run calls
    (Builder.new settings).run calls = (session.1, session.2.plain) ∧ session.2.Fitted := by
  rw [← plain_new]
  exact (fitted_new hsettings).run calls

theorem log_run_new_scratch {options : BuilderOptions} {settings : BuilderSettings}
    (hsettings : options.resolve = .ok settings) (calls : List Call) :
    ((Builder.new settings Scratch).run calls).2.log = ((Builder.new settings).run calls).2.log := by
  rw [(run_new_scratch hsettings calls).1]
  exact (plain_log _).symm

/-- Two sessions of the same calls on arrays of different sizes have the same outcomes, errors and
bytes among them, however often and wherever the arrays grow.  They leave arrays with the same bytes
written and builders that have nothing different but the capacity and the records of growth.  As this
is so for every sequence of calls, it is so after each call of a sequence. -/
theorem run_new_eq_of_initialSize {options options' : BuilderOptions}
    {settings settings' : BuilderSettings} (hsettings : options.resolve = .ok settings)
    (hsettings' : options'.resolve = .ok settings')
    (hforce : settings'.forceDefaults = settings.forceDefaults)
    (hdedupe : settings'.dedupeVtables = settings.dedupeVtables) (calls : List Call) :
    let first := (Builder.new settings Scratch).run calls
    let second := (Builder.new settings' Scratch).run calls
    second.1 = first.1 ∧ second.2.offset = first.2.offset ∧
      second.2.vtableCount = first.2.vtableCount ∧
      second.2.written.region = first.2.written.region ∧
      second.2.plain = first.2.plain.resized second.2.capacity second.2.log ∧
      second.2.plain.notes = first.2.plain.notes := by
  intro first second
  have hplain := run_eq_of_initialSize hsettings hsettings' hforce hdedupe calls
  rw [(run_new_scratch hsettings calls).1, (run_new_scratch hsettings' calls).1] at hplain
  obtain ⟨houtcomes, hoffset, hvtables, hsame, hnotes⟩ := hplain
  exact ⟨houtcomes, hoffset, hvtables, congrArg Builder.written hsame, hsame, hnotes⟩

/-- An array of one byte is exchanged four times while a string is written, and one of the usual size
is not. -/
theorem run_new_eq_of_initialSize_one :
    let calls : List Call := [.string [104, 105], .finish 8 {}, .bytes]
    let first := (Builder.new ⟨1024, false, true⟩ Scratch).run calls
    let second := (Builder.new ⟨1, false, true⟩ Scratch).run calls
    second.2.log.length = 5 ∧ first.2.log.length = 1 ∧
      second.1 = first.1 ∧ second.2.offset = first.2.offset ∧
      second.2.vtableCount = first.2.vtableCount ∧
      second.2.written.region = first.2.written.region ∧
      second.2.plain = first.2.plain.resized second.2.capacity second.2.log ∧
      second.2.plain.notes = first.2.plain.notes := by
  have hsettings : BuilderOptions.resolve {} = .ok ⟨1024, false, true⟩ := by rfl
  have hsettings' : BuilderOptions.resolve { initialSize := some 1 } = .ok ⟨1, false, true⟩ := by
    rfl
  have hlog := log_run_new_scratch hsettings [.string [104, 105], .finish 8 {}, .bytes]
  have hlog' := log_run_new_scratch hsettings' [.string [104, 105], .finish 8 {}, .bytes]
  refine ⟨?_, ?_, run_new_eq_of_initialSize hsettings hsettings' rfl rfl _⟩
  · rw [hlog']
    decide +kernel
  · rw [hlog]
    decide +kernel

end Builder

/-! ## Encoding -/

/-- Over a scratch array a model is encoded as it is over a region. -/
theorem Model.encode_scratch (model : Model) (options : EncodeOptions) :
    model.encode options Scratch = model.encode options := by
  have hwrites (sizePrefix : Bool) :
      Refines (model.writeBuffer sizePrefix) (model.writeBuffer sizePrefix) :=
    model.write_refines.bind fun _ => (finish_refines _ _).bind fun _ => bytes_refines
  unfold Model.encode Build.runNew
  cases hsettings : options.toBuilderOptions.resolve with
  | error cause => rfl
  | ok settings =>
      have hrefines := hwrites (options.sizePrefix.getD false) _ (Builder.fitted_new hsettings)
      unfold RefinesAt at hrefines
      rw [Builder.plain_new] at hrefines
      dsimp only
      split at hrefines
      · next hresult =>
          rw [hresult, hrefines.1]
          rfl
      · next hresult =>
          rw [hresult, hrefines.1]
          rfl

end GraphWire

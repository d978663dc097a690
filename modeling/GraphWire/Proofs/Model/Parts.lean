import GraphWire.Proofs.Model.Attributes
import Mathlib.Data.List.Forall2

/-!
# Writing models

The parts of a model from the elements of a constant up to the model itself.  In each statement the
children have been written before, and what their statements say of them holds for every buffer that
ends in their bytes, so it still holds when the parent is read.
-/

namespace GraphWire

open Build

variable {before : Builder}

/-! ## Constants -/

/-- A table whose only field is a list of four-byte numbers. -/
theorem Build.words_table_stores (hready : before.Ready) (type : Scalar) (hwidth : type.width = 4)
    (values? : Option (List type.Value)) :
    Stores (do let data ← reference (values?.map (scalars type)); table [data]) before
      (∀ values ∈ values?, ∀ value ∈ values, type.Fits value) (wordsRoom values? + tableRoom 1) True
      (fun table => table.scalars type 0) (values?.map (List.map type.stored)) := by
  unfold Stores
  apply ((words_writes hready type hwidth values?).bind (by omega) _).of_fits
    (Iff.of_eq (and_true _))
  rintro _ middle ⟨target, rfl, hfollows, hwithin, hvalues⟩ hbound
  have hmiddle := hbound trivial
  have hfield : ∀ field ∈ [Field.reference target], field.Ready middle.written.size := by
    simpa using ready_of_refers hvalues hwithin
  apply (parent_writes hfollows.ready [.reference target] (by simp) hfield).mono id
  · simp [Field.Fits]
  · simp only [List.length_singleton]
    omega
  · rintro offset after ⟨hadds, htable⟩
    refine ⟨hfollows.adds hadds, ?_⟩
    intro _ _ window hwindow
    have hplaced := hvalues.vector_mono (hadds.suffix.trans hwindow)
    exact scalars_eq_of_field (htable.mono hwindow) rfl hplaced

theorem Payload.write_stores (hready : before.Ready) (payload : Payload) :
    Stores payload.write before payload.Fits payload.room True
      (fun table => PayloadView.unpack ⟨payload.kind, table⟩) payload.stored := by
  obtain ⟨kind, data⟩ := payload
  have hall (type : Scalar) (hwidth : type.width = 4) (values? : Option (List type.Value)) :=
    words_table_stores hready type hwidth values?
  unfold Stores
  cases kind with
  | floats =>
      apply (hall .float32 rfl data).mono id _ (le_refl _)
      · rintro offset after ⟨hadds, hreads⟩
        refine ⟨hadds, fun _ _ window hwindow => ?_⟩
        have hread := hreads (by simp [Scalar.Fits]) trivial window hwindow
        simp only [PayloadView.unpack, PayloadView.data, hread, bind, Except.bind]
        rfl
      · simp [Fits, Scalar.Fits]
  | ints =>
      apply (hall .int32 rfl data).mono id _ (le_refl _)
      · rintro offset after ⟨hadds, hreads⟩
        refine ⟨hadds, fun hfits _ window hwindow => ?_⟩
        have hread := hreads (hfits rfl) trivial window hwindow
        simp only [PayloadView.unpack, PayloadView.data, hread, bind, Except.bind]
        rfl
      · simp [Fits]

/-- The elements of a constant are found through its tag. -/
theorem ConstantView.data_eq {window : Window} {offset target : ℕ} {force : Bool}
    {fields : List Field} {placed : Payload → ℕ → Prop} {data : Option Payload}
    (htable : TableAt window.toList offset (Field.slots force 0 fields))
    (htag : fields[1]? = some (tagField (data.map Payload.kind)))
    (hfield : fields[2]? = some (.reference (target : Number)))
    (hdata : Refers placed data target) :
    ConstantView.data ⟨⟨window, (window.length - offset : ℕ)⟩⟩
      = .ok (data.map fun payload => ⟨payload.kind, ⟨window, (window.length - target : ℕ)⟩⟩) := by
  have hunion := union?_eq_of_field htable Payload.kind htag hfield hdata
  change Table.union? _ 1 = _ at hunion
  unfold ConstantView.data
  cases data with
  | none =>
      simp only [hunion]
      rfl
  | some payload =>
      simp only [hunion, Option.map_some, bind, Except.bind, Table.member_code]
      rfl

theorem Constant.write_stores (hready : before.Ready) (constant : Constant) :
    Stores constant.write before constant.Fits constant.room True
      (fun table => ConstantView.unpack ⟨table⟩) constant.stored := by
  obtain ⟨shape, data⟩ := constant
  unfold Stores write
  apply (words_writes hready .uint32 rfl shape).bind (by simp only [room]; omega)
  rintro _ middle ⟨target, rfl, hfollows, hwithin, hvalues⟩ hbound
  have hmiddle := hbound trivial
  have hdata := part_writes hfollows.ready (Payload.write_stores hfollows.ready) data
  apply (hdata.bind (by simp only [room]; omega) _).of_fits (Iff.of_eq (and_true _))
  rintro _ last ⟨target', rfl, hfollows', hwithin', hpayload⟩ hbound'
  have hlast := hbound' trivial
  have hfields : ∀ field ∈ [Field.reference target, tagField (data.map Payload.kind),
      .reference target'], field.Ready last.written.size := by
    simp only [List.forall_mem_cons]
    exact ⟨ready_of_refers hvalues (hwithin.trans hfollows'.size_le), trivial,
      ready_of_refers hpayload hwithin', by simp⟩
  apply (parent_writes hfollows'.ready _ (by simp) hfields).mono id
  · simp only [List.forall_mem_cons]
    exact iff_of_true ⟨trivial, fits_tagField _, trivial, by simp⟩ trivial
  · change last.written.size + tableRoom 3 ≤ _
    simp only [room]
    omega
  · rintro offset after ⟨hadds, htable⟩
    refine ⟨(hfollows.trans hfollows').adds hadds, ?_⟩
    rintro ⟨-, hfits⟩ - window hwindow
    have htable' := htable.mono hwindow
    have hplaced := hvalues.vector_mono (hfollows'.suffix.trans (hadds.suffix.trans hwindow))
    have hview := ConstantView.data_eq htable' rfl rfl hpayload
    have hshape : ConstantView.shape _ = _ := scalars_eq_of_field htable' rfl hplaced
    unfold ConstantView.unpack
    simp only [hview, hshape, bind, Except.bind]
    cases data with
    | none => rfl
    | some payload =>
        obtain ⟨-, hreads⟩ := hpayload
        have hread := hreads (hfits payload rfl) trivial window (hadds.suffix.trans hwindow)
        simp only [Option.map_some, hread]
        rfl

/-! ## Operators -/

/-- The attributes of an operator are found through their tag. -/
theorem OperatorView.attrs_eq {window : Window} {offset target : ℕ} {force : Bool}
    {fields : List Field} {placed : Attrs → ℕ → Prop} {attrs : Option Attrs}
    (htable : TableAt window.toList offset (Field.slots force 0 fields))
    (htag : fields[1]? = some (tagField (attrs.map Attrs.kind)))
    (hfield : fields[2]? = some (.reference (target : Number)))
    (hattrs : Refers placed attrs target) :
    OperatorView.attrs ⟨⟨window, (window.length - offset : ℕ)⟩⟩
      = .ok (attrs.map fun attrs => ⟨attrs.kind, ⟨window, (window.length - target : ℕ)⟩⟩) := by
  have hunion := union?_eq_of_field htable Attrs.kind htag hfield hattrs
  change Table.union? _ 1 = _ at hunion
  unfold OperatorView.attrs
  cases attrs with
  | none =>
      simp only [hunion]
      rfl
  | some attrs =>
      simp only [hunion, Option.map_some, AttrsView.ofUnion, bind, Except.bind, Table.member_code]
      rfl

/-- A stored operator type is read as the member that it is the number of. -/
theorem OperatorView.type_eq {window : Window} {offset : ℕ} {force : Bool} {fields : List Field}
    {type : Number} {member : OperatorType}
    (htable : TableAt window.toList offset (Field.slots force 0 fields))
    (hfield : fields[0]? = some (.scalar .int8 type (0 : Number)))
    (hcode : Scalar.int8.stored type = (Tag.code member : Number)) :
    OperatorView.type ⟨⟨window, (window.length - offset : ℕ)⟩⟩ = .ok member := by
  have hscalar : Table.scalar _ .int8 0 (0 : Number) = _ := integer_eq_of_field htable hfield
  unfold OperatorView.type
  simp only [hscalar, hcode, bind, Except.bind, Table.member_code]

theorem Operator.write_stores (hready : before.Ready) (operator : Operator) :
    Stores operator.write before operator.Fits operator.room operator.Legible
      (fun table => OperatorView.unpack ⟨table⟩) (operator.kept before.forceDefaults) := by
  obtain ⟨type, attrs, inputs⟩ := operator
  unfold Stores write
  apply ((words_writes hready .uint32 rfl inputs).bind (by simp only [room]; omega) _).of_fits
    (show _ ∧ (∀ record ∈ attrs, record.Fits) ∧ Scalar.int8.Fits type ↔ _ by
      unfold Fits
      tauto)
  rintro _ middle ⟨target, rfl, hfollows, hwithin, hvalues⟩ hbound
  have hmiddle := hbound trivial
  have hattrs := part_writes hfollows.ready (Attrs.write_stores hfollows.ready) attrs
  apply hattrs.bind (by simp only [room]; omega)
  rintro _ last ⟨target', rfl, hfollows', hwithin', hrecord⟩ hbound'
  have hlast := hbound' trivial
  have hfields : ∀ field ∈ [Field.scalar .int8 type (0 : Number), tagField (attrs.map Attrs.kind),
      .reference target', .reference target], field.Ready last.written.size := by
    simp only [List.forall_mem_cons]
    exact ⟨trivial, trivial, ready_of_refers hrecord hwithin',
      ready_of_refers hvalues (hwithin.trans hfollows'.size_le), by simp⟩
  apply (parent_writes hfollows'.ready _ (by simp) hfields).mono id
  · simp only [List.forall_mem_cons]
    constructor
    · rintro ⟨hfits, -⟩
      exact fits_integer_iff.mp hfits
    · intro hfits
      exact ⟨fits_integer_iff.mpr hfits, fits_tagField _, trivial, trivial, by simp⟩
  · change last.written.size + tableRoom 4 ≤ _
    simp only [room]
    omega
  · rintro offset after ⟨hadds, htable⟩
    refine ⟨(hfollows.trans hfollows').adds hadds, ?_⟩
    rintro ⟨hfits, hfits', -⟩ ⟨hmember, hlegible⟩ window hwindow
    have htable' := htable.mono hwindow
    have hplaced := hvalues.vector_mono (hfollows'.suffix.trans (hadds.suffix.trans hwindow))
    have hview := OperatorView.attrs_eq htable' rfl rfl hrecord
    have hinputs : OperatorView.inputs _ = _ := scalars_eq_of_field htable' rfl hplaced
    obtain ⟨member, hcode⟩ := Scalar.stored_of_member hfits hmember
    have htype := OperatorView.type_eq htable' rfl hcode
    unfold OperatorView.unpack
    simp only [hview, hinputs, htype, bind, Except.bind]
    cases attrs with
    | none =>
        simp only [kept, stored, hcode]
        rfl
    | some record =>
        obtain ⟨-, hreads⟩ := hrecord
        have hread :=
          hreads (hfits' record rfl) (hlegible record rfl) window (hadds.suffix.trans hwindow)
        simp only [Option.map_some, hread, kept, stored, hcode, hfollows.forceDefaults]
        rfl

/-! ## Nodes -/

/-- What a node is, read by a reader that knows its kind. -/
theorem NodeData.write_stores (hready : before.Ready) (data : NodeData) :
    Stores data.write before data.Fits data.room data.Legible
      (fun table => (NodeDataView.ofKind table data.kind).unpack)
      (data.kept before.forceDefaults) := by
  unfold Stores
  cases data with
  | operator content =>
      apply (Operator.write_stores hready content).imp
      rintro offset after ⟨hadds, hreads⟩
      refine ⟨hadds, fun hfits hlegible window hwindow => ?_⟩
      exact congrArg (NodeData.operator <$> ·) (hreads hfits hlegible window hwindow)
  | constant content =>
      apply (Constant.write_stores hready content).imp
      rintro offset after ⟨hadds, hreads⟩
      refine ⟨hadds, fun hfits _ window hwindow => ?_⟩
      exact congrArg (NodeData.constant <$> ·) (hreads hfits trivial window hwindow)
  | value =>
      apply (parent_writes hready [] (by simp) (by simp)).mono id _ (le_refl _)
      · rintro offset after ⟨hadds, -⟩
        exact ⟨hadds, fun _ _ window _ => rfl⟩
      · exact iff_of_true (by simp) trivial

/-- What a node is is found through its tag. -/
theorem NodeView.data_eq {window : Window} {offset target : ℕ} {force : Bool}
    {fields : List Field} {placed : NodeData → ℕ → Prop} {data : Option NodeData}
    (htable : TableAt window.toList offset (Field.slots force 0 fields))
    (htag : fields[1]? = some (tagField (data.map NodeData.kind)))
    (hfield : fields[2]? = some (.reference (target : Number)))
    (hdata : Refers placed data target) :
    NodeView.data ⟨⟨window, (window.length - offset : ℕ)⟩⟩
      = .ok (data.map fun data =>
          NodeDataView.ofKind ⟨window, (window.length - target : ℕ)⟩ data.kind) := by
  have hunion := union?_eq_of_field htable NodeData.kind htag hfield hdata
  change Table.union? _ 1 = _ at hunion
  unfold NodeView.data
  cases data with
  | none =>
      simp only [hunion]
      rfl
  | some data =>
      simp only [hunion, Option.map_some, bind, Except.bind, Table.member_code]
      rfl

theorem Node.write_stores (hready : before.Ready) (node : Node) :
    Stores node.write before (∀ data ∈ node.data, data.Fits) node.room
      (∀ data ∈ node.data, data.Legible) (fun table => NodeView.unpack ⟨table⟩)
      (node.kept before.forceDefaults).reread := by
  obtain ⟨id, data⟩ := node
  unfold Stores write
  apply (text_writes hready (id.map Utf16.text)).bind_true (by simp only [room]; omega)
  rintro _ middle ⟨target, rfl, hfollows, hwithin, htext⟩ hbound
  have hmiddle := hbound trivial
  have hdata := part_writes hfollows.ready (NodeData.write_stores hfollows.ready) data
  apply (hdata.bind (by simp only [room]; omega) _).of_fits (Iff.of_eq (and_true _))
  rintro _ last ⟨target', rfl, hfollows', hwithin', hcontent⟩ hbound'
  have hlast := hbound' trivial
  have hfields : ∀ field ∈ [Field.reference target, tagField (data.map NodeData.kind),
      .reference target'], field.Ready last.written.size := by
    simp only [List.forall_mem_cons]
    exact ⟨ready_of_refers htext (hwithin.trans hfollows'.size_le), trivial,
      ready_of_refers hcontent hwithin', by simp⟩
  apply (parent_writes hfollows'.ready _ (by simp) hfields).mono fun hcall => hcall
  · simp only [List.forall_mem_cons]
    exact iff_of_true ⟨trivial, fits_tagField _, trivial, by simp⟩ trivial
  · change last.written.size + tableRoom 3 ≤ _
    simp only [room]
    omega
  · rintro offset after ⟨hadds, htable⟩
    refine ⟨(hfollows.trans hfollows').adds hadds, ?_⟩
    rintro hfits hlegible window hwindow
    have htable' := htable.mono hwindow
    have hsuffix := hfollows'.suffix.trans (hadds.suffix.trans hwindow)
    have hview := NodeView.data_eq htable' rfl rfl hcontent
    have hid : NodeView.id _ = _ :=
      string?_eq_of_field htable' rfl (htext.imp fun _ _ hstring => hstring.mono hsuffix)
    have hreread : ((id.map Utf16.text).map Utf8.unmarked).map Utf16.ofString
        = id.map Utf16.reread := by
      rw [Option.map_map, Option.map_map]
      rfl
    unfold NodeView.unpack
    simp only [hview, hid, bind, Except.bind, hreread]
    cases data with
    | none => rfl
    | some content =>
        obtain ⟨-, hreads⟩ := hcontent
        have hread :=
          hreads (hfits content rfl) (hlegible content rfl) window (hadds.suffix.trans hwindow)
        simp only [Option.map_some, hread, kept, reread, hfollows.forceDefaults]
        rfl

/-! ## Graphs -/

/-- Nodes at a list of offsets, each of which is read back if what it is is legible. -/
def NodesAt (force : Bool) (bytes : List UInt8) : List Node → List ℕ → Prop :=
  List.Forall₂ fun node offset => (∀ data ∈ node.data, data.Fits) →
    (∀ data ∈ node.data, data.Legible) →
    Reads bytes (fun table => NodeView.unpack ⟨table⟩) (node.kept force).reread offset

variable {force : Bool}

theorem NodesAt.mono {bytes more : List UInt8} {nodes : List Node} {offsets : List ℕ}
    (hnodes : NodesAt force bytes nodes offsets) (hsuffix : bytes <:+ more) :
    NodesAt force more nodes offsets :=
  hnodes.imp fun _ _ hnode hfits hlegible => (hnode hfits hlegible).mono hsuffix

/-- Nodes are read in order. -/
theorem NodesAt.read_eq {window : Window} {nodes : List Node} {offsets : List ℕ}
    (hnodes : NodesAt force window.toList nodes offsets)
    (hfits : ∀ node ∈ nodes, ∀ data ∈ node.data, data.Fits)
    (hlegible : ∀ node ∈ nodes, ∀ data ∈ node.data, data.Legible) :
    (offsets.map fun offset => NodeView.mk ⟨window, (window.length - offset : ℕ)⟩).mapM
      NodeView.unpack = .ok (nodes.map fun node => (node.kept force).reread) := by
  induction hnodes with
  | nil => rfl
  | @cons node offset nodes offsets hnode _ ih =>
      rw [List.forall_mem_cons] at hfits hlegible
      have hread : NodeView.unpack _ = _ :=
        hnode hfits.1 hlegible.1 window (List.suffix_refl _)
      have hreads := ih hfits.2 hlegible.2
      rw [List.map_cons, List.mapM_cons, hread, hreads]
      rfl

theorem Graph.writeNodes_writes (hready : before.Ready) (nodes : List Node) :
    Writes (writeNodes nodes) before True (∀ node ∈ nodes, ∀ data ∈ node.data, data.Fits)
      (before.written.size + ((nodes.map Node.room).sum + 4 * nodes.length + 20))
      fun offset after => before.Adds offset after ∧ ∃ offsets,
        VectorAt after.written.bytes offset 4 (offsets.map .reference) ∧
        NodesAt before.forceDefaults after.written.bytes nodes offsets := by
  unfold writeNodes
  have hnodes := mapM_writes (fun bytes (node : Node) offset =>
    (∀ data ∈ node.data, data.Fits) → (∀ data ∈ node.data, data.Legible) →
      Reads bytes (fun table => NodeView.unpack ⟨table⟩)
        (node.kept before.forceDefaults).reread offset)
    (fun hnode hsuffix hfits hlegible => (hnode hfits hlegible).mono hsuffix)
    (fun hready hforce node => hforce ▸ Node.write_stores hready node) nodes hready rfl
  apply (hnodes.bind (by omega) _).of_fits (Iff.of_eq (and_true _))
  rintro offsets middle ⟨hfollows, hoffsets, hplaced⟩ hbound
  have hmiddle := hbound trivial
  have hlength := hplaced.length_eq
  apply ((offsets_writes hfollows.ready offsets hoffsets).of_bound (by omega)).imp
  rintro offset after ⟨hadds, hvector⟩
  exact ⟨hfollows.adds hadds, offsets, hvector, NodesAt.mono hplaced hadds.suffix⟩

theorem Graph.write_stores (hready : before.Ready) (graph : Graph) :
    Stores graph.write before (∀ nodes ∈ graph.nodes, ∀ node ∈ nodes, ∀ data ∈ node.data, data.Fits)
      graph.room (∀ nodes ∈ graph.nodes, ∀ node ∈ nodes, ∀ data ∈ node.data, data.Legible)
      (fun table => GraphView.unpack ⟨table⟩) (graph.kept before.forceDefaults).reread := by
  obtain ⟨nodes?⟩ := graph
  unfold Stores write
  have hnodes := reference_writes (fun bytes (nodes : List Node) target => ∃ offsets : List ℕ,
    VectorAt bytes target 4 (offsets.map .reference) ∧
      NodesAt before.forceDefaults bytes nodes offsets) hready
    fun nodes (_ : nodes ∈ nodes?) => writeNodes_writes hready nodes
  apply (hnodes.bind (by simp only [room]; omega) _).of_fits (Iff.of_eq (and_true _))
  rintro _ middle ⟨target, rfl, hfollows, hwithin, hplaced⟩ hbound
  have hmiddle := hbound trivial
  have hfields : ∀ field ∈ [Field.reference target], field.Ready middle.written.size := by
    simpa using ready_of_refers hplaced hwithin
  apply (parent_writes hfollows.ready _ (by simp) hfields).mono fun hcall => hcall
  · simp [Field.Fits]
  · change middle.written.size + tableRoom 1 ≤ _
    simp only [room]
    omega
  · rintro offset after ⟨hadds, htable⟩
    refine ⟨hfollows.adds hadds, ?_⟩
    rintro hfits hlegible window hwindow
    have htable' := htable.mono hwindow
    have hsuffix := hadds.suffix.trans hwindow
    cases nodes? with
    | none =>
        have htables : Table.tables _ 0 = _ :=
          tables_eq_of_field htable' none rfl hplaced
        simp only [GraphView.unpack, GraphView.nodes, htables, bind, Except.bind]
        rfl
    | some nodes =>
        obtain ⟨hpositive, offsets, hvector, hall⟩ := hplaced
        have htables : Table.tables _ 0 = _ :=
          tables_eq_of_field htable' (some offsets) rfl ⟨hpositive, hvector.mono hsuffix⟩
        have hreads := (hall.mono hsuffix).read_eq (hfits nodes rfl) (hlegible nodes rfl)
        have hviews : GraphView.nodes ⟨⟨window, (window.length - offset : ℕ)⟩⟩
            = .ok (some (offsets.map fun offset =>
              NodeView.mk ⟨window, (window.length - offset : ℕ)⟩)) := by
          simp only [GraphView.nodes, htables, bind, Except.bind, Option.map_some, List.map_map]
          rfl
        simp only [GraphView.unpack, hviews, bind, Except.bind, hreads, kept, reread,
          Option.map_some, List.map_map]
        rfl

/-! ## Models -/

/-- The nodes of a model are those of its graph. -/
theorem Model.forall_nodes (model : Model) (holds : Node → Prop) :
    (∀ graph ∈ model.graph, ∀ nodes ∈ graph.nodes, ∀ node ∈ nodes, holds node)
      ↔ ∀ node ∈ model.nodes, holds node := by
  obtain ⟨version, graph?⟩ := model
  rcases graph? with _ | ⟨_ | nodes⟩ <;> simp [Model.nodes]

/-- The room of a model's parts without the head of its buffer. -/
theorem Model.write_stores (hready : before.Ready) (model : Model) :
    Stores model.write before model.Fits ((model.graph.map Graph.room).getD 0 + tableRoom 2)
      model.Readable (fun table => ModelView.unpack ⟨table⟩)
      (model.kept before.forceDefaults).reread := by
  have hnodes := model.forall_nodes fun node => ∀ data ∈ node.data, data.Fits
  have hlegible := model.forall_nodes fun node => ∀ data ∈ node.data, data.Legible
  unfold Fits Readable
  rw [← hnodes, ← hlegible]
  obtain ⟨version, graph?⟩ := model
  unfold Stores write
  have hgraph := part_writes hready (Graph.write_stores hready) graph?
  apply (hgraph.bind (by simp only; omega) _).of_fits and_comm
  rintro _ middle ⟨target, rfl, hfollows, hwithin, hplaced⟩ hbound
  have hmiddle := hbound trivial
  have hfields : ∀ field ∈ [Field.scalar .int32 version (0 : Number), .reference target],
      field.Ready middle.written.size := by
    simp only [List.forall_mem_cons]
    exact ⟨trivial, ready_of_refers hplaced hwithin, by simp⟩
  apply (parent_writes hfollows.ready _ (by simp) hfields).mono fun hcall => hcall
  · simp only [List.forall_mem_cons]
    constructor
    · rintro ⟨hfits, -⟩
      exact fits_integer_iff.mp hfits
    · intro hfits
      exact ⟨fits_integer_iff.mpr hfits, trivial, by simp⟩
  · change middle.written.size + tableRoom 2 ≤ _
    simp only
    omega
  · rintro offset after ⟨hadds, htable⟩
    refine ⟨hfollows.adds hadds, ?_⟩
    rintro ⟨-, hfits⟩ hlegible window hwindow
    have htable' := htable.mono hwindow
    have hversion : ModelView.schemaVersion _ = _ := integer_eq_of_field htable' rfl
    have htable? : Table.table? _ 1 = _ := table?_eq_of_field htable' rfl hplaced
    unfold ModelView.unpack ModelView.graph
    simp only [hversion, htable?, bind, Except.bind]
    cases graph? with
    | none => rfl
    | some graph =>
        obtain ⟨-, hreads⟩ := hplaced
        have hread :=
          hreads (hfits graph rfl) (hlegible graph rfl) window (hadds.suffix.trans hwindow)
        simp only [Option.map_some, pure, Except.pure, hread]
        rfl

end GraphWire

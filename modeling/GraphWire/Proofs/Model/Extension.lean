import GraphWire.Model.Decoding
import GraphWire.Model.Path
import GraphWire.Proofs.Reader.Extension

/-!
# Models in a longer window

The views of a model read tables and nothing else, so what is read of a model from the shorter of
two windows is read alike from the longer one.
-/

namespace GraphWire

variable {same : Prop} {short long : Table}

/-! ## Attributes -/

/-- Unknown members are reported for the position of the table, which is the same. -/
theorem Table.Leads.member_eq {α : Type} [Tag α] (hleads : Table.Leads same short long)
    (what : String) (number : Number) :
    (long.member what number : Except Malformed α) = short.member what number := by
  unfold Table.member Table.unknownTag
  rw [hleads.position]

theorem AttrType.read_stays (hleads : Table.Leads same short long) (slot : ℕ) (type : AttrType) :
    Stays same Eq (type.read short slot) (type.read long slot) := by
  cases type with
  | scalar type =>
      apply (hleads.scalar_stays type slot type.zero).map
      rintro value _ rfl
      rfl
  | padMode =>
      apply (hleads.scalar_stays .int8 slot (0 : Number)).bind
      rintro code _ rfl
      rw [hleads.member_eq]
      exact .refl _
  | indices => exact hleads.scalars_stays .uint32 slot

theorem AttrRecord.read_stays (hleads : Table.Leads same short long) (fields : List AttrField)
    (slot : ℕ) : Stays same Eq (AttrRecord.read short fields slot)
      (AttrRecord.read long fields slot) := by
  induction fields generalizing slot with
  | nil => exact .ok rfl
  | cons field fields ih =>
      apply (AttrType.read_stays hleads slot field.type).bind
      rintro value _ rfl
      apply (ih (slot + 1)).bind
      rintro rest _ rfl
      exact .ok rfl

/-- Views of one kind of attribute record. -/
structure AttrsView.Leads (same : Prop) (short long : AttrsView) : Prop where
  kind : long.kind = short.kind
  table : Table.Leads same short.table long.table

theorem AttrsView.ofUnion_stays (hleads : Table.Leads same short long) (tag position : Number) :
    Stays same (AttrsView.Leads same) (AttrsView.ofUnion short tag position)
      (AttrsView.ofUnion long tag position) := by
  unfold ofUnion
  rw [hleads.member_eq]
  apply (Stays.refl _).bind
  rintro kind _ rfl
  exact .ok ⟨rfl, hleads.elsewhere position⟩

theorem AttrsView.unpack_stays {short long : AttrsView} (hleads : short.Leads same long) :
    Stays same Eq short.unpack long.unpack := by
  obtain ⟨kind, table⟩ := short
  obtain ⟨_, table'⟩ := long
  obtain ⟨rfl, htable⟩ := hleads
  apply (AttrRecord.read_stays htable _ 0).bind
  rintro record _ rfl
  exact .ok rfl

/-! ## Constants -/

/-- Views of one kind of payload. -/
structure PayloadView.Leads (same : Prop) (short long : PayloadView) : Prop where
  kind : long.kind = short.kind
  table : Table.Leads same short.table long.table

theorem PayloadView.unpack_stays {short long : PayloadView} (hleads : short.Leads same long) :
    Stays same Eq short.unpack long.unpack := by
  obtain ⟨kind, table⟩ := short
  obtain ⟨_, table'⟩ := long
  obtain ⟨rfl, htable⟩ := hleads
  have hdata (kind : PayloadKind) :
      Stays same Eq (PayloadView.mk kind table).data (PayloadView.mk kind table').data := by
    cases kind with
    | floats => exact htable.scalars_stays .float32 0
    | ints => exact htable.scalars_stays .int32 0
  apply (hdata _).bind
  rintro data _ rfl
  exact .ok rfl

theorem ConstantView.data_stays (hleads : Table.Leads same short long) :
    Stays same (Option.Rel (PayloadView.Leads same)) (ConstantView.data ⟨short⟩)
      (ConstantView.data ⟨long⟩) := by
  apply (hleads.union?_stays 1).bind
  rintro slot? _ rfl
  cases slot? with
  | none => exact .ok .none
  | some slot =>
      dsimp only
      rw [hleads.member_eq]
      apply (Stays.refl _).bind
      rintro kind _ rfl
      exact .ok (.some ⟨rfl, hleads.elsewhere slot.position⟩)

theorem ConstantView.unpack_stays (hleads : Table.Leads same short long) :
    Stays same Eq (ConstantView.unpack ⟨short⟩) (ConstantView.unpack ⟨long⟩) := by
  apply (ConstantView.data_stays hleads).bind
  intro payload? payload'? hpayload
  have hrest (data : Option Payload) : Stays same Eq
      (do return Constant.mk (← (ConstantView.mk short).shape) data)
      (do return Constant.mk (← (ConstantView.mk long).shape) data) := by
    apply (hleads.scalars_stays .uint32 0).bind
    rintro shape _ rfl
    exact .ok rfl
  cases hpayload with
  | none => exact hrest none
  | some hpayload => exact (PayloadView.unpack_stays hpayload).some_bind hrest

/-! ## Operators -/

theorem OperatorView.type_stays (hleads : Table.Leads same short long) :
    Stays same Eq (OperatorView.type ⟨short⟩) (OperatorView.type ⟨long⟩) := by
  apply (hleads.scalar_stays .int8 0 (0 : Number)).bind
  rintro code _ rfl
  rw [hleads.member_eq]
  exact .refl _

theorem OperatorView.attrs_stays (hleads : Table.Leads same short long) :
    Stays same (Option.Rel (AttrsView.Leads same)) (OperatorView.attrs ⟨short⟩)
      (OperatorView.attrs ⟨long⟩) := by
  apply (hleads.union?_stays 1).bind
  rintro slot? _ rfl
  cases slot? with
  | none => exact .ok .none
  | some slot => exact (AttrsView.ofUnion_stays hleads _ _).map fun _ _ hattrs => .some hattrs

theorem OperatorView.unpack_stays (hleads : Table.Leads same short long) :
    Stays same Eq (OperatorView.unpack ⟨short⟩) (OperatorView.unpack ⟨long⟩) := by
  apply (OperatorView.attrs_stays hleads).bind
  intro attrs? attrs'? hattrs
  apply (OperatorView.type_stays hleads).bind
  rintro type _ rfl
  have hrest (attrs : Option Attrs) : Stays same Eq
      (do return Operator.mk (Tag.code type : ℕ) attrs (← (OperatorView.mk short).inputs))
      (do return Operator.mk (Tag.code type : ℕ) attrs (← (OperatorView.mk long).inputs)) := by
    apply (hleads.scalars_stays .uint32 3).bind
    rintro inputs _ rfl
    exact .ok rfl
  cases hattrs with
  | none => exact hrest none
  | some hattrs => exact (AttrsView.unpack_stays hattrs).some_bind hrest

/-! ## Nodes -/

/-- Views of one kind of node. -/
inductive NodeDataView.Leads (same : Prop) : NodeDataView → NodeDataView → Prop where
  | operator {short long : Table} (table : Table.Leads same short long) :
      Leads same (.operator ⟨short⟩) (.operator ⟨long⟩)
  | constant {short long : Table} (table : Table.Leads same short long) :
      Leads same (.constant ⟨short⟩) (.constant ⟨long⟩)
  | value {short long : Table} (table : Table.Leads same short long) :
      Leads same (.value short) (.value long)

theorem NodeDataView.unpack_stays {short long : NodeDataView} (hleads : short.Leads same long) :
    Stays same Eq short.unpack long.unpack := by
  cases hleads with
  | operator table =>
      apply (OperatorView.unpack_stays table).map
      rintro content _ rfl
      rfl
  | constant table =>
      apply (ConstantView.unpack_stays table).map
      rintro content _ rfl
      rfl
  | value table => exact .ok rfl

theorem NodeView.data_stays (hleads : Table.Leads same short long) :
    Stays same (Option.Rel (NodeDataView.Leads same)) (NodeView.data ⟨short⟩)
      (NodeView.data ⟨long⟩) := by
  apply (hleads.union?_stays 1).bind
  rintro slot? _ rfl
  cases slot? with
  | none => exact .ok .none
  | some slot =>
      dsimp only
      rw [hleads.member_eq]
      apply (Stays.refl _).bind
      rintro kind _ rfl
      have hpayload := hleads.elsewhere slot.position
      cases kind with
      | operator => exact .ok (.some (.operator hpayload))
      | constant => exact .ok (.some (.constant hpayload))
      | value => exact .ok (.some (.value hpayload))

theorem NodeView.unpack_stays (hleads : Table.Leads same short long) :
    Stays same Eq (NodeView.unpack ⟨short⟩) (NodeView.unpack ⟨long⟩) := by
  apply (NodeView.data_stays hleads).bind
  intro data? data'? hdata
  have hrest (data : Option NodeData) : Stays same Eq
      (do return Node.mk ((← (NodeView.mk short).id).map Utf16.ofString) data)
      (do return Node.mk ((← (NodeView.mk long).id).map Utf16.ofString) data) := by
    apply (hleads.string?_stays 0).bind
    rintro id _ rfl
    exact .ok rfl
  cases hdata with
  | none => exact hrest none
  | some hdata => exact (NodeDataView.unpack_stays hdata).some_bind hrest

/-! ## Graph and model -/

theorem GraphView.nodes_stays (hleads : Table.Leads same short long) :
    Stays same (Option.Rel (List.Forall₂ fun node node' => Table.Leads same node.table node'.table))
      (GraphView.nodes ⟨short⟩) (GraphView.nodes ⟨long⟩) := by
  apply (hleads.tables_stays 0).bind
  rintro _ _ (htables | _)
  · refine .ok (.some ?_)
    rw [List.forall₂_map_left_iff, List.forall₂_map_right_iff]
    exact htables
  · exact .ok .none

theorem GraphView.node_stays (hleads : Table.Leads same short long) (index : Number) :
    Stays same (fun node node' => Table.Leads same node.table node'.table)
      (GraphView.node ⟨short⟩ index) (GraphView.node ⟨long⟩ index) :=
  (hleads.tableElement_stays 0 index).map fun _ _ htable => htable

theorem GraphView.unpack_stays (hleads : Table.Leads same short long) :
    Stays same Eq (GraphView.unpack ⟨short⟩) (GraphView.unpack ⟨long⟩) := by
  apply (GraphView.nodes_stays hleads).bind
  rintro _ _ (hnodes | _)
  · apply (Stays.mapM hnodes fun _ _ hnode => NodeView.unpack_stays hnode).bind
    intro nodes nodes' hsame
    rw [List.forall₂_eq_eq_eq] at hsame
    exact .ok (congrArg (fun nodes => Graph.mk (some nodes)) hsame)
  · exact .ok rfl

theorem ModelView.schemaVersion_stays (hleads : Table.Leads same short long) :
    Stays same Eq (ModelView.schemaVersion ⟨short⟩) (ModelView.schemaVersion ⟨long⟩) :=
  hleads.scalar_stays .int32 0 (0 : Number)

theorem ModelView.graph_stays (hleads : Table.Leads same short long) :
    Stays same (Option.Rel fun graph graph' => Table.Leads same graph.table graph'.table)
      (ModelView.graph ⟨short⟩) (ModelView.graph ⟨long⟩) := by
  apply (hleads.table?_stays 1).bind
  rintro _ _ (htable | _)
  · exact .ok (.some htable)
  · exact .ok .none

theorem ModelView.unpack_stays (hleads : Table.Leads same short long) :
    Stays same Eq (ModelView.unpack ⟨short⟩) (ModelView.unpack ⟨long⟩) := by
  apply (ModelView.graph_stays hleads).bind
  intro graph? graph'? hgraph
  apply (ModelView.schemaVersion_stays hleads).bind
  rintro version _ rfl
  cases hgraph with
  | none => exact .ok rfl
  | some hgraph =>
      apply (GraphView.unpack_stays hgraph).bind
      rintro graph _ rfl
      exact .ok rfl

/-! ## Paths -/

/-- Views of one class that read alike. -/
def ViewClass.Leads (same : Prop) : (viewed : ViewClass) → viewed.View → viewed.View → Prop
  | attrs, (short : AttrsView), (long : AttrsView) => short.Leads same long
  | payload, (short : PayloadView), (long : PayloadView) => short.Leads same long
  | viewed, short, long => Table.Leads same (viewed.table short) (viewed.table long)

theorem ViewClass.Leads.table {viewed : ViewClass} {short long : viewed.View}
    (hleads : viewed.Leads same short long) :
    Table.Leads same (viewed.table short) (viewed.table long) := by
  cases viewed with
  | attrs => exact AttrsView.Leads.table hleads
  | payload => exact PayloadView.Leads.table hleads
  | _ => exact hleads

/-- Vectors in one slot. -/
structure VectorView.Leads (same : Prop) (short long : VectorView) : Prop where
  type : long.type = short.type
  slot : long.slot = short.slot
  table : Table.Leads same short.table long.table
  width : short.type.width = 4

namespace VectorView.Leads

variable {short long : VectorView} (hleads : short.Leads same long)
include hleads

theorem length_stays : Stays same Eq short.length long.length := by
  obtain ⟨table, type, slot⟩ := short
  obtain ⟨table', _, _⟩ := long
  obtain ⟨rfl, rfl, htable, -⟩ := hleads
  exact htable.vectorLength_stays _ 4

theorem get_stays (index : Number) : Stays same Eq
    (do return (⟨_, ← short.get index⟩ : Σ type : Scalar, type.Value))
    (do return ⟨_, ← long.get index⟩) := by
  obtain ⟨table, type, slot⟩ := short
  obtain ⟨table', _, _⟩ := long
  obtain ⟨rfl, rfl, htable, -⟩ := hleads
  apply (htable.element_stays _ _ index).bind
  rintro value _ rfl
  exact .ok rfl

theorem toList_stays : Stays same Eq
    (do return (⟨_, ← short.toList⟩ : Σ type : Scalar, Option (List type.Value)) :
      Except AccessError _)
    (do return ⟨_, ← long.toList⟩) := by
  obtain ⟨table, type, slot⟩ := short
  obtain ⟨table', _, _⟩ := long
  obtain ⟨rfl, rfl, htable, -⟩ := hleads
  apply (htable.scalars_stays _ _).mapError.bind
  rintro values _ rfl
  exact .ok rfl

theorem words_stays : Stays same Eq
    (do return (⟨_, ← short.words⟩ : Σ type : Scalar, Option (List type.Value)) :
      Except AccessError _)
    (do return ⟨_, ← long.words⟩) := by
  obtain ⟨table, type, slot⟩ := short
  obtain ⟨table', _, _⟩ := long
  obtain ⟨rfl, rfl, htable, hwidth⟩ := hleads
  apply (htable.scalarView_stays hwidth _).mapError.bind
  rintro values _ rfl
  exact .ok rfl

end VectorView.Leads

theorem VectorField.view_leads {viewed : ViewClass} {short long : viewed.View}
    (vector : VectorField viewed) (hleads : viewed.Leads same short long) :
    (vector.view short).Leads same (vector.view long) := by
  cases vector with
  | inputs => exact ⟨rfl, rfl, hleads, rfl⟩
  | shape => exact ⟨rfl, rfl, hleads, rfl⟩
  | indices slot => exact ⟨rfl, rfl, hleads.table, rfl⟩
  | data =>
      have hpayload : PayloadView.Leads same short long := hleads
      have hwidth (kind : PayloadKind) : kind.scalar.width = 4 := by cases kind <;> rfl
      exact ⟨congrArg PayloadKind.scalar hpayload.kind, rfl, hpayload.table, hwidth _⟩

/-- Every accessor gives the same. -/
theorem Getter.read_stays {viewed : ViewClass} {α : Type} {short long : viewed.View}
    (getter : Getter viewed α) (hleads : viewed.Leads True short long) :
    Stays True Eq (getter.read short) (getter.read long) := by
  have htable := hleads.table
  cases getter with
  | position => exact .ok htable.position.symm
  | bytes => exact .ok (htable.window.bytes trivial).symm
  | hasField slot => exact (htable.hasField_stays slot).mapError
  | schemaVersion => exact (ModelView.schemaVersion_stays htable).mapError
  | nodeCount => exact (htable.vectorLength_stays 0 4).mapError
  | nodePositions =>
      apply (GraphView.nodes_stays htable).mapError.bind
      rintro _ _ (hnodes | _)
      · refine .ok (congrArg some ?_)
        have hpositions := hnodes.imp fun _ _ hnode => hnode.position.symm
        rw [← List.forall₂_eq_eq_eq, List.forall₂_map_left_iff, List.forall₂_map_right_iff]
        exact hpositions
      · exact .ok rfl
  | id => exact (htable.string?_stays 0).mapError
  | dataType => exact (htable.scalar_stays .uint8 1 (0 : Number)).mapError
  | operatorType => exact (OperatorView.type_stays htable).mapError
  | attrsType => exact (htable.scalar_stays .uint8 1 (0 : Number)).mapError
  | payloadType => exact (htable.scalar_stays .uint8 1 (0 : Number)).mapError
  | attrsKind => exact .ok (AttrsView.Leads.kind hleads).symm
  | field slot type => exact (AttrType.read_stays htable slot type).mapError
  | payloadKind => exact .ok (PayloadView.Leads.kind hleads).symm
  | length vector => exact (vector.view_leads hleads).length_stays.mapError
  | element vector index => exact (vector.view_leads hleads).get_stays index
  | list vector => exact (vector.view_leads hleads).toList_stays
  | words vector => exact (vector.view_leads hleads).words_stays
  | wholeModel => exact (ModelView.unpack_stays htable).mapError
  | wholeGraph => exact (GraphView.unpack_stays htable).mapError
  | wholeNode => exact (NodeView.unpack_stays htable).mapError
  | wholeOperator => exact (OperatorView.unpack_stays htable).mapError
  | wholeConstant => exact (ConstantView.unpack_stays htable).mapError
  | wholeAttrs => exact (AttrsView.unpack_stays hleads).mapError
  | wholePayload => exact (PayloadView.unpack_stays hleads).mapError

theorem rel_getElem? {α β : Type} {related : α → β → Prop} {items : List α}
    {items' : List β} (hitems : List.Forall₂ related items items') (index : ℕ) :
    Option.Rel related items[index]? items'[index]? := by
  induction hitems generalizing index with
  | nil => exact .none
  | cons hitem _ ih =>
      cases index with
      | zero => exact .some hitem
      | succ index => simpa using ih index

/-- Every step leads to views that read alike. -/
theorem Step.follow_stays {viewed next : ViewClass} {short long : viewed.View}
    (step : Step viewed next) (hleads : viewed.Leads same short long) :
    Stays same (Option.Rel (next.Leads same)) (step.follow short) (step.follow long) := by
  have htable := hleads.table
  cases step with
  | graph => exact (ModelView.graph_stays htable).mapError
  | node index => exact (GraphView.node_stays htable index).map fun _ _ hnode => .some hnode
  | listed index =>
      apply (GraphView.nodes_stays htable).mapError.bind
      rintro _ _ (hnodes | _)
      · exact .ok (rel_getElem? hnodes index)
      · exact .ok .none
  | operator =>
      apply (NodeView.data_stays htable).mapError.bind
      rintro _ _ ((hdata | hdata | hdata) | _)
      · exact .ok (.some hdata)
      · exact .ok .none
      · exact .ok .none
      · exact .ok .none
  | constant =>
      apply (NodeView.data_stays htable).mapError.bind
      rintro _ _ ((hdata | hdata | hdata) | _)
      · exact .ok .none
      · exact .ok (.some hdata)
      · exact .ok .none
      · exact .ok .none
  | value =>
      apply (NodeView.data_stays htable).mapError.bind
      rintro _ _ ((hdata | hdata | hdata) | _)
      · exact .ok .none
      · exact .ok .none
      · exact .ok (.some hdata)
      · exact .ok .none
  | attrs => exact (OperatorView.attrs_stays htable).mapError
  | data => exact (ConstantView.data_stays htable).mapError

/-- Every path leads to the same. -/
theorem Path.follow_eq {viewed : ViewClass} {α : Type} (path : Path viewed α)
    {short long : viewed.View} (hleads : viewed.Leads True short long) :
    path.follow long = path.follow short := by
  induction path with
  | get getter => rw [follow, follow, (getter.read_stays hleads).eq]
  | step first rest ih =>
      apply Stays.eq
      unfold follow
      apply (first.follow_stays hleads).bind
      rintro _ _ (hnext | _)
      · dsimp only
        rw [ih hnext]
        exact .refl _
      · exact .ok rfl

/-! ## Opening and decoding -/

/-- Options that are accepted are kept as they are, with the defaults filled in. -/
theorem ReaderOptions.eq_of_resolve {options : ReaderOptions} {settings : ReaderSettings}
    (hsettings : options.resolve = .ok settings) :
    settings = {
      strict := options.strict.getD false
      identifier := options.identifier.getD Layout.modelIdentifier
      sizePrefixed := options.sizePrefixed.getD false
      expectedVersion := options.expectedVersion.getD (Number.ofInt Layout.schemaVersion) } := by
  unfold resolve at hsettings
  cases hidentifier : Identifier.check (options.identifier.getD Layout.modelIdentifier) with
  | error cause =>
      simp only [hidentifier, bind, Except.bind] at hsettings
      cases hsettings
  | ok checked =>
      simp only [hidentifier, bind, Except.bind] at hsettings
      split at hsettings
      · cases hsettings
      · cases hsettings
        rfl

/-- The root of a model in the bytes that belong to its buffer, with the records logged. -/
def ModelView.openFramed (window : Window) (settings : ReaderSettings) :
    Except ReadError (ModelView × List Event) := do
  settings.checkIdentifier (window.identifier? settings.sizePrefixed)
  let root ← (window.rootTable settings.sizePrefixed).mapError .malformed
  let view : ModelView := ⟨⟨window, (root : Number)⟩⟩
  let version ← view.schemaVersion.mapError .malformed
  let mismatch ← settings.checkVersion version
  return (view, mismatch ++ [.rootResolved window.length root version])

theorem ModelView.openWith_eq_openFramed (window : Window) (settings : ReaderSettings) :
    ModelView.openWith window settings
      = settings.frame window >>= fun framed => ModelView.openFramed framed settings := rfl

/-- Two roots at one position.  The records name the number of bytes, which is the same only when
the bytes are. -/
structure ModelView.OpensAlike (same : Prop) (short long : ModelView × List Event) : Prop where
  view : Table.Leads same short.1.table long.1.table
  events : same → long.2 = short.2

theorem Window.Leads.checkIdentifier_stays {short long : Window} (hleads : short.Leads same long)
    (settings : ReaderSettings) (sizePrefixed : Bool) :
    Stays same Eq (settings.checkIdentifier (short.identifier? sizePrefixed))
      (settings.checkIdentifier (long.identifier? sizePrefixed)) := by
  apply Stays.check
  · rintro ⟨hstrict, hother⟩
    refine ⟨hstrict, fun hexpected => hother (hleads.identifier?_eq hexpected)⟩
  · intro hsame hother
    rw [hleads.identifier?_eq_of_same hsame]
    exact ⟨hother, rfl⟩
  · intro _
    exact .ok rfl

theorem ModelView.openFramed_stays {short long : Window} (hleads : short.Leads same long)
    (settings : ReaderSettings) :
    Stays same (ModelView.OpensAlike same) (ModelView.openFramed short settings)
      (ModelView.openFramed long settings) := by
  apply (hleads.checkIdentifier_stays settings settings.sizePrefixed).bind
  intro _ _ _
  apply (hleads.rootTable_stays settings.sizePrefixed).mapError.bind
  rintro root _ rfl
  have htable : Table.Leads same ⟨short, (root : Number)⟩ ⟨long, (root : Number)⟩ := ⟨hleads, rfl⟩
  apply (ModelView.schemaVersion_stays htable).mapError.bind
  rintro version _ rfl
  apply (Stays.refl _).bind
  rintro mismatch _ rfl
  refine .ok ⟨htable, fun hsame => ?_⟩
  rw [hleads.length_eq hsame]

theorem ModelView.decode_stays {short long : ModelView}
    (hleads : Table.Leads same short.table long.table) (validate : Bool) :
    Stays same Eq (short.decode validate) (long.decode validate) := by
  apply (ModelView.unpack_stays hleads).mapError.bind
  rintro model _ rfl
  exact .refl _

end GraphWire

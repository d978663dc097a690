import GraphWire.Model.Validation
import GraphWire.Proofs.Number.Product
import GraphWire.Proofs.Reader.Coverage
import GraphWire.Proofs.Schema.Tag
import Mathlib.Data.List.Nodup
import Mathlib.Data.List.Pairwise
import Mathlib.Logic.Relation

/-!
# What validation reports

A model can break a promise in four places: the id of a node, the shape of a constant, the
attributes of an operator and each input of an operator.  For each of them there is a relation that
says what is wrong, without the order in which it is looked for.  Validation reports each fault
once, node after node, and a model without faults is a directed acyclic graph.
-/

namespace GraphWire

/-! ## Faults -/

/-- The first of the nodes with an id. -/
structure FirstWithId (nodes : List Node) (id : Utf16) (first : ℕ) : Prop where
  found : ∃ node, nodes[first]? = some node ∧ node.id = some id
  least : ∀ position < first, ∀ node, nodes[position]? = some node → node.id ≠ some id

/-- An earlier node has the id of a node. -/
inductive IdFault (nodes : List Node) (index : ℕ) (node : Node) : Issue → Prop
  | duplicate {id : Utf16} {first : ℕ} (hid : node.id = some id)
      (hfirst : FirstWithId nodes id first) (hearlier : first < index) :
      IdFault nodes index node (.duplicateId index id first)

/-- A constant has a payload whose length is not the number of elements of the shape. -/
inductive ShapeFault (index : ℕ) (constant : Constant) : Issue → Prop
  | mismatch {payload : Payload} (hpayload : constant.data = some payload)
      (hlength : (elementCount (constant.shape.getD [])).toNat?
        ≠ some (payload.data.getD []).length) :
      ShapeFault index constant (.shapeMismatch index payload.kind (payload.data.getD []).length
        (constant.shape.getD []) (elementCount (constant.shape.getD [])))

/-- An operator has attributes that are not the record of its type. -/
inductive AttrsFault (index : ℕ) (operator : Operator) : Issue → Prop
  | mismatch {attrs : Attrs} {type : OperatorType} (hattrs : operator.attrs = some attrs)
      (htype : operator.type.toNat? = some (Tag.code type))
      (hkind : type.attrsKind? ≠ some attrs.kind) :
      AttrsFault index operator (.attrsMismatch index type attrs.kind)

/-- An input is not an earlier node with something to consume. -/
inductive InputFault (nodes : List Node) (index : ℕ) (input : Number) : Issue → Prop
  | dangling (hnowhere : ∀ position < nodes.length, input.toNat? ≠ some position) :
      InputFault nodes index input (.danglingInput index input nodes.length)
  | self (hinput : input.toNat? = some index) (hinside : index < nodes.length) :
      InputFault nodes index input (.selfInput index)
  | forward {position : ℕ} (hinput : input.toNat? = some position)
      (hinside : position < nodes.length) (hlater : index < position) :
      InputFault nodes index input (.forwardInput index input)
  | kind {position : ℕ} {source : Node} (hinput : input.toNat? = some position)
      (hearlier : position < index) (hsource : nodes[position]? = some source)
      (hdata : source.data = none) :
      InputFault nodes index input (.inputKind index input)

/-- What is wrong with a node. -/
inductive Fault (nodes : List Node) (index : ℕ) (node : Node) : Issue → Prop
  | id {issue : Issue} (hfault : IdFault nodes index node issue) : Fault nodes index node issue
  | shape {constant : Constant} {issue : Issue} (hdata : node.data = some (.constant constant))
      (hfault : ShapeFault index constant issue) : Fault nodes index node issue
  | attrs {operator : Operator} {issue : Issue} (hdata : node.data = some (.operator operator))
      (hfault : AttrsFault index operator issue) : Fault nodes index node issue
  | input {operator : Operator} {input : Number} {issue : Issue}
      (hdata : node.data = some (.operator operator)) (hinput : input ∈ operator.inputs.getD [])
      (hfault : InputFault nodes index input issue) : Fault nodes index node issue

/-! ## Reports -/

/-- A report of the one issue that a fault gives, or of none when there is no fault. -/
def Reports (fault : Issue → Prop) (issues : List Issue) : Prop :=
  issues.length ≤ 1 ∧ ∀ issue, issue ∈ issues ↔ fault issue

theorem Reports.none {fault : Issue → Prop} (hnone : ∀ issue, ¬fault issue) : Reports fault [] :=
  ⟨Nat.zero_le _, fun issue => iff_of_false List.not_mem_nil (hnone issue)⟩

theorem Reports.one {fault : Issue → Prop} {issue : Issue} (hfault : fault issue)
    (hunique : ∀ other, fault other → other = issue) : Reports fault [issue] :=
  ⟨le_refl _, fun other => List.mem_singleton.trans ⟨fun hsame => hsame ▸ hfault, hunique other⟩⟩

/-- The report of a node: its id first, then what its data is wrong in.  The inputs of an operator
are reported one by one in their order. -/
inductive NodeReport (nodes : List Node) (index : ℕ) (node : Node) : List Issue → Prop
  | constant {content : Constant} {ids shapes : List Issue}
      (hdata : node.data = some (.constant content))
      (hids : Reports (IdFault nodes index node) ids)
      (hshapes : Reports (ShapeFault index content) shapes) :
      NodeReport nodes index node (ids ++ shapes)
  | operator {content : Operator} {ids attrs : List Issue} {inputs : List (List Issue)}
      (hdata : node.data = some (.operator content))
      (hids : Reports (IdFault nodes index node) ids)
      (hattrs : Reports (AttrsFault index content) attrs)
      (hinputs : List.Forall₂ (fun input => Reports (InputFault nodes index input))
        (content.inputs.getD []) inputs) :
      NodeReport nodes index node (ids ++ attrs ++ inputs.flatten)
  | plain {ids : List Issue} (hdata : node.data = none ∨ node.data = some .value)
      (hids : Reports (IdFault nodes index node) ids) : NodeReport nodes index node ids

/-! ## The four checks -/

variable {nodes : List Node} {index : ℕ} {node : Node}

theorem firstWithId_eq_some {id : Utf16} {first : ℕ} :
    firstWithId nodes id = some first ↔ FirstWithId nodes id first := by
  unfold firstWithId
  rw [List.findIdx?_eq_some_iff_getElem]
  constructor
  · rintro ⟨hinside, hfound, hleast⟩
    refine ⟨⟨nodes[first], List.getElem?_eq_getElem hinside, beq_iff_eq.mp hfound⟩, ?_⟩
    intro position hbefore node hnode hid
    obtain ⟨_, rfl⟩ := List.getElem?_eq_some_iff.mp hnode
    exact hleast position hbefore (beq_iff_eq.mpr hid)
  · rintro ⟨⟨node, hnode, hid⟩, hleast⟩
    obtain ⟨hinside, rfl⟩ := List.getElem?_eq_some_iff.mp hnode
    refine ⟨hinside, beq_iff_eq.mpr hid, ?_⟩
    intro position hbefore hsame
    exact hleast position hbefore _ (List.getElem?_eq_getElem _) (beq_iff_eq.mp hsame)

theorem idIssues_reports (nodes : List Node) (index : ℕ) (node : Node) :
    Reports (IdFault nodes index node) (idIssues nodes index node) := by
  unfold idIssues
  split
  · next hid =>
      apply Reports.none
      rintro _ ⟨hid', -, -⟩
      cases hid.symm.trans hid'
  · next id hid =>
      split
      · next first hfirst =>
          rw [Option.filter_eq_some_iff, decide_eq_true_eq] at hfirst
          apply Reports.one (.duplicate hid (firstWithId_eq_some.mp hfirst.1) hfirst.2)
          rintro _ ⟨hid', hfirst', -⟩
          obtain rfl := Option.some.inj (hid.symm.trans hid')
          obtain rfl := Option.some.inj (hfirst.1.symm.trans (firstWithId_eq_some.mpr hfirst'))
          rfl
      · next hnone =>
          apply Reports.none
          rintro _ ⟨hid', hfirst, hearlier⟩
          obtain rfl := Option.some.inj (hid.symm.trans hid')
          rw [Option.filter_eq_none_iff] at hnone
          exact hnone _ (firstWithId_eq_some.mpr hfirst) (decide_eq_true hearlier)

theorem shapeIssues_reports (index : ℕ) (constant : Constant) :
    Reports (ShapeFault index constant) (shapeIssues index constant) := by
  unfold shapeIssues
  split
  · next hpayload =>
      apply Reports.none
      rintro _ ⟨hpayload', -⟩
      cases hpayload.symm.trans hpayload'
  · next payload hpayload =>
      simp only [Number.equals_natCast]
      split
      · next hequal =>
          apply Reports.none
          rintro _ ⟨hpayload', hlength⟩
          obtain rfl := Option.some.inj (hpayload.symm.trans hpayload')
          exact hlength hequal
      · next hdiffer =>
          apply Reports.one (.mismatch hpayload hdiffer)
          rintro _ ⟨hpayload', -⟩
          obtain rfl := Option.some.inj (hpayload.symm.trans hpayload')
          rfl

/-- The attributes of an operator are reported unless the name of its type is needed and it has
none. -/
theorem attrsIssues_ends (index : ℕ) (operator : Operator) :
    Ends (Reports (AttrsFault index operator))
      (fun unknown => unknown = ⟨operator.type⟩ ∧
        Tag.isMember OperatorType operator.type = false) (attrsIssues index operator) := by
  unfold attrsIssues
  split
  · next hattrs =>
      apply Reports.none
      rintro _ ⟨hattrs', -, -⟩
      cases hattrs.symm.trans hattrs'
  · next attrs hattrs =>
      unfold OperatorType.ofNumber
      cases htype : (Tag.ofNumber? operator.type : Option OperatorType) with
      | none =>
          refine Ends.ite nofun fun _ => ⟨rfl, ?_⟩
          rw [Tag.isMember, htype]
          rfl
      | some type =>
          have hunique {type' : OperatorType}
              (htype' : operator.type.toNat? = some (Tag.code type')) : type = type' :=
            Option.some.inj (htype.symm.trans (Tag.ofNumber?_eq_some.mpr htype'))
          apply Ends.ite
          · intro hkind
            apply Reports.none
            rintro _ ⟨hattrs', htype', hkind'⟩
            obtain rfl := Option.some.inj (hattrs.symm.trans hattrs')
            obtain rfl := hunique htype'
            exact hkind' hkind
          · intro hkind
            apply Reports.one (.mismatch hattrs (Tag.ofNumber?_eq_some.mp htype) hkind)
            rintro _ ⟨hattrs', htype', -⟩
            obtain rfl := Option.some.inj (hattrs.symm.trans hattrs')
            obtain rfl := hunique htype'
            rfl

/-- An input that is the index of a node is wrong if the node is not an earlier one with data. -/
theorem inputFault_iff {input : Number} {position : ℕ} {source : Node}
    (hinput : input.toNat? = some position) (hsource : nodes[position]? = some source) (index : ℕ)
    (issue : Issue) :
    InputFault nodes index input issue ↔
      position = index ∧ issue = .selfInput index ∨
      index < position ∧ issue = .forwardInput index input ∨
      position < index ∧ source.data = none ∧ issue = .inputKind index input := by
  obtain ⟨hinside, -⟩ := List.getElem?_eq_some_iff.mp hsource
  have hunique {position' : ℕ} (hinput' : input.toNat? = some position') : position = position' :=
    Option.some.inj (hinput.symm.trans hinput')
  constructor
  · intro hfault
    cases hfault with
    | dangling hnowhere => exact absurd hinput (hnowhere position hinside)
    | self hinput' => exact Or.inl ⟨hunique hinput', rfl⟩
    | forward hinput' _ hlater =>
        obtain rfl := hunique hinput'
        exact Or.inr (Or.inl ⟨hlater, rfl⟩)
    | kind hinput' hearlier hsource' hdata =>
        obtain rfl := hunique hinput'
        obtain rfl := Option.some.inj (hsource.symm.trans hsource')
        exact Or.inr (Or.inr ⟨hearlier, hdata, rfl⟩)
  · rintro (⟨rfl, rfl⟩ | ⟨hlater, rfl⟩ | ⟨hearlier, hdata, rfl⟩)
    · exact .self hinput hinside
    · exact .forward hinput hinside hlater
    · exact .kind hinput hearlier hsource hdata

theorem inputIssues_reports (hindex : index < nodes.length) (input : Number) :
    Reports (InputFault nodes index input) (inputIssues nodes index input) := by
  unfold inputIssues
  split
  · next hnone =>
      have hnowhere : ∀ position < nodes.length, input.toNat? ≠ some position := by
        intro position hinside hinput
        rw [hinput, Option.bind_some, List.getElem?_eq_getElem hinside] at hnone
        cases hnone
      apply Reports.one (.dangling hnowhere)
      rintro _ (_ | ⟨hinput, -⟩ | ⟨hinput, hinside, -⟩ | ⟨hinput, hearlier, -⟩)
      · rfl
      · exact absurd hinput (hnowhere _ hindex)
      · exact absurd hinput (hnowhere _ hinside)
      · exact absurd hinput (hnowhere _ (by omega))
  · next position source hsome =>
      obtain ⟨_, hinput, hfound⟩ := Option.bind_eq_some_iff.mp hsome
      obtain ⟨_, hsource, hpair⟩ := Option.map_eq_some_iff.mp hfound
      cases hpair
      have hfault := inputFault_iff hinput hsource index
      split
      · next hself =>
          apply Reports.one ((hfault _).mpr (Or.inl ⟨hself, rfl⟩))
          intro other hother
          rcases (hfault other).mp hother with ⟨-, rfl⟩ | ⟨hlater, -⟩ | ⟨hearlier, -⟩
          · rfl
          · omega
          · omega
      split
      · next hlater =>
          apply Reports.one ((hfault _).mpr (Or.inr (Or.inl ⟨hlater, rfl⟩)))
          intro other hother
          rcases (hfault other).mp hother with ⟨hself, -⟩ | ⟨-, rfl⟩ | ⟨hearlier, -⟩
          · omega
          · rfl
          · omega
      · next hself hlater =>
          have hkind (issue : Issue) : InputFault nodes index input issue ↔
              source.data = none ∧ issue = .inputKind index input := by
            rw [hfault, and_iff_right (show position < index by omega)]
            simp only [hself, hlater, false_and, false_or]
          split
          · next hdata =>
              rw [Option.isNone_iff_eq_none] at hdata
              exact Reports.one ((hkind _).mpr ⟨hdata, rfl⟩) fun other hother =>
                ((hkind other).mp hother).2
          · next hdata =>
              rw [Option.isNone_iff_eq_none] at hdata
              exact Reports.none fun issue hissue => hdata ((hkind issue).mp hissue).1

/-! ## Nodes and models -/

/-- An operator has a type that is no member of its enumeration. -/
def Model.Unnamed (model : Model) (unknown : UnknownOperator) : Prop :=
  ∃ node ∈ model.nodes, ∃ operator, node.data = some (.operator operator) ∧
    operator.type = unknown.type ∧ Tag.isMember OperatorType operator.type = false

/-- The types of all operators are members of their enumeration. -/
def Model.KnownOperators (model : Model) : Prop :=
  ∀ node ∈ model.nodes, ∀ operator, node.data = some (.operator operator) →
    Tag.isMember OperatorType operator.type = true

/-- Each node of a model is reported, in node order. -/
def Model.NodeReports (model : Model) (reports : List (List Issue)) : Prop :=
  List.Forall₂ (fun entry => NodeReport model.nodes entry.2 entry.1) model.nodes.zipIdx reports

theorem nodeIssues_ends {model : Model} (hnode : model.nodes[index]? = some node) :
    Ends (NodeReport model.nodes index node) model.Unnamed
      (nodeIssues model.nodes index node) := by
  obtain ⟨hindex, -⟩ := List.getElem?_eq_some_iff.mp hnode
  have hids := idIssues_reports model.nodes index node
  unfold nodeIssues
  cases hdata : node.data with
  | none => exact .plain (Or.inl hdata) (by simpa using hids)
  | some data =>
      cases data with
      | value => exact .plain (Or.inr hdata) (by simpa using hids)
      | constant constant => exact .constant hdata hids (shapeIssues_reports index constant)
      | operator operator =>
          have hends := attrsIssues_ends index operator
          have hinputs : List.Forall₂
              (fun input => Reports (InputFault model.nodes index input)) (operator.inputs.getD [])
              ((operator.inputs.getD []).map (inputIssues model.nodes index)) := by
            rw [List.forall₂_map_right_iff, List.forall₂_same]
            exact fun input _ => inputIssues_reports hindex input
          simp only [dataIssues]
          cases hattrs : attrsIssues index operator with
          | error unknown =>
              rw [hattrs] at hends
              obtain ⟨rfl, htype⟩ := hends
              exact ⟨node, List.mem_of_getElem? hnode, operator, hdata, rfl, htype⟩
          | ok attrs =>
              rw [hattrs] at hends
              change NodeReport _ _ _ (_ ++ (attrs ++ _))
              rw [← List.append_assoc, List.flatMap_def]
              exact .operator hdata hids hends hinputs

theorem Model.validate_ends (model : Model) :
    Ends (fun issues => ∃ reports, model.NodeReports reports ∧ issues = reports.flatten)
      model.Unnamed model.validate := by
  apply Ends.bind (Ends.mapM_forall₂ fun entry hentry => ?_)
  · intro reports hreports
    exact ⟨reports, hreports, rfl⟩
  · exact nodeIssues_ends (List.mem_zipIdx_iff_getElem?.mp hentry)

/-- Validation of a model with known operators always comes to a report of each node. -/
theorem Model.KnownOperators.exists_reports {model : Model} (hknown : model.KnownOperators) :
    ∃ reports, model.validate = .ok reports.flatten ∧ model.NodeReports reports := by
  have hends := model.validate_ends
  cases hvalidate : model.validate with
  | ok issues =>
      rw [hvalidate] at hends
      obtain ⟨reports, hreports, rfl⟩ := hends
      exact ⟨reports, rfl, hreports⟩
  | error unknown =>
      rw [hvalidate] at hends
      obtain ⟨node, hnode, operator, hdata, -, htype⟩ := hends
      rw [hknown node hnode operator hdata] at htype
      cases htype

/-! ## Each fault once -/

theorem Fault.node_eq {issue : Issue} (hfault : Fault nodes index node issue) :
    issue.node = index := by
  rcases hfault with ⟨⟨⟩⟩ | ⟨-, ⟨⟩⟩ | ⟨-, ⟨⟩⟩ | ⟨-, -, ⟨⟩⟩ <;> rfl

/-- Reports of one item after another hold the faults of all items. -/
theorem mem_flatten_of_forall₂ {α : Type} {items : List α} {reports : List (List Issue)}
    {fault : α → Issue → Prop}
    (hreports : List.Forall₂ (fun item report => ∀ issue, issue ∈ report ↔ fault item issue)
      items reports) (issue : Issue) :
    issue ∈ reports.flatten ↔ ∃ item ∈ items, fault item issue := by
  induction hreports with
  | nil => simp
  | cons hfirst _ ih =>
      rw [List.flatten_cons, List.mem_append, hfirst, ih, List.exists_mem_cons_iff]

/-- The report of a node holds its faults. -/
theorem NodeReport.mem_iff {report : List Issue} (hreport : NodeReport nodes index node report)
    (issue : Issue) : issue ∈ report ↔ Fault nodes index node issue := by
  cases hreport with
  | constant hdata hids hshapes =>
      rw [List.mem_append, hids.2, hshapes.2]
      constructor
      · rintro (hfault | hfault)
        · exact .id hfault
        · exact .shape hdata hfault
      · rintro (hfault | ⟨hdata', hfault⟩ | ⟨hdata', -⟩ | ⟨hdata', -, -⟩)
        · exact Or.inl hfault
        · cases hdata.symm.trans hdata'
          exact Or.inr hfault
        · cases hdata.symm.trans hdata'
        · cases hdata.symm.trans hdata'
  | operator hdata hids hattrs hinputs =>
      have hinput := mem_flatten_of_forall₂ (hinputs.imp fun _ _ hinput => hinput.2) issue
      rw [List.mem_append, List.mem_append, hids.2, hattrs.2, hinput]
      constructor
      · rintro ((hfault | hfault) | ⟨input, hmember, hfault⟩)
        · exact .id hfault
        · exact .attrs hdata hfault
        · exact .input hdata hmember hfault
      · rintro (hfault | ⟨hdata', -⟩ | ⟨hdata', hfault⟩ | ⟨hdata', hmember, hfault⟩)
        · exact Or.inl (Or.inl hfault)
        · cases hdata.symm.trans hdata'
        · cases hdata.symm.trans hdata'
          exact Or.inl (Or.inr hfault)
        · cases hdata.symm.trans hdata'
          exact Or.inr ⟨_, hmember, hfault⟩
  | plain hdata hids =>
      rw [hids.2]
      refine ⟨.id, ?_⟩
      rintro (hfault | ⟨hdata', -⟩ | ⟨hdata', -⟩ | ⟨hdata', -, -⟩)
      · exact hfault
      all_goals
        rcases hdata with hdata | hdata
        · cases hdata.symm.trans hdata'
        · cases hdata.symm.trans hdata'

/-- The issues of a model are the faults of its nodes. -/
theorem Model.NodeReports.mem_iff {model : Model} {reports : List (List Issue)}
    (hreports : model.NodeReports reports) (issue : Issue) :
    issue ∈ reports.flatten ↔
      ∃ index node, model.nodes[index]? = some node ∧ Fault model.nodes index node issue := by
  rw [mem_flatten_of_forall₂ (hreports.imp fun _ _ hreport => hreport.mem_iff) issue]
  constructor
  · rintro ⟨⟨node, index⟩, hentry, hfault⟩
    exact ⟨index, node, List.mem_zipIdx_iff_getElem?.mp hentry, hfault⟩
  · rintro ⟨index, node, hnode, hfault⟩
    exact ⟨(node, index), List.mem_zipIdx_iff_getElem?.mpr hnode, hfault⟩

/-! ## Consistent models -/

/-- The promises of a producer: no two nodes have the same id, constants are as long as their shapes
say, attributes are those of the operator types, and inputs are earlier nodes that have data. -/
structure Model.Consistent (model : Model) : Prop where
  ids : (model.nodes.filterMap Node.id).Nodup
  shapes : ∀ node ∈ model.nodes, ∀ constant, node.data = some (.constant constant) →
    ∀ payload, constant.data = some payload →
      (elementCount (constant.shape.getD [])).toNat? = some (payload.data.getD []).length
  attrs : ∀ node ∈ model.nodes, ∀ operator, node.data = some (.operator operator) →
    ∀ attrs, operator.attrs = some attrs → ∃ type : OperatorType,
      operator.type.toNat? = some (Tag.code type) ∧ type.attrsKind? = some attrs.kind
  inputs : ∀ (index : ℕ) (node : Node), model.nodes[index]? = some node →
    ∀ operator, node.data = some (.operator operator) → ∀ input ∈ operator.inputs.getD [],
      ∃ (position : ℕ) (source : Node), input.toNat? = some position ∧ position < index ∧
        model.nodes[position]? = some source ∧ source.data ≠ none

/-- Ids are distinct if no earlier node has the id of a node. -/
theorem nodup_ids_iff (nodes : List Node) :
    (nodes.filterMap Node.id).Nodup ↔ ∀ (index : ℕ) (node : Node), nodes[index]? = some node →
      ∀ issue, ¬IdFault nodes index node issue := by
  rw [List.Nodup, List.pairwise_filterMap, List.pairwise_iff_getElem]
  constructor
  · rintro hdistinct index node hnode _ ⟨hid, ⟨⟨node', hnode', hid'⟩, -⟩, hearlier⟩
    obtain ⟨hindex, rfl⟩ := List.getElem?_eq_some_iff.mp hnode
    obtain ⟨hfirst, rfl⟩ := List.getElem?_eq_some_iff.mp hnode'
    exact hdistinct _ index hfirst hindex hearlier _ hid' _ hid rfl
  · rintro hnone first second hfirst hsecond hearlier id hid _ hid' rfl
    cases hleast : firstWithId nodes id with
    | none =>
        have hnowhere := List.findIdx?_eq_none_iff.mp hleast nodes[first] (List.getElem_mem hfirst)
        rw [hid, beq_self_eq_true] at hnowhere
        cases hnowhere
    | some least =>
        have hleast := firstWithId_eq_some.mp hleast
        have hbefore : least ≤ first := by
          by_contra hafter
          exact hleast.least first (by omega) _ (List.getElem?_eq_getElem hfirst) hid
        exact hnone second _ (List.getElem?_eq_getElem hsecond) _
          (.duplicate hid' hleast (by omega))

/-- An input has no fault if it is an earlier node that has data. -/
theorem no_inputFault_iff (index : ℕ) (input : Number) :
    (∀ issue, ¬InputFault nodes index input issue) ↔ ∃ (position : ℕ) (source : Node),
      input.toNat? = some position ∧ position < index ∧ nodes[position]? = some source ∧
        source.data ≠ none := by
  constructor
  · intro hnone
    obtain ⟨position, hinside, hinput⟩ :
        ∃ position < nodes.length, input.toNat? = some position := by
      by_contra hnowhere
      push Not at hnowhere
      exact hnone _ (.dangling hnowhere)
    have hsource := List.getElem?_eq_getElem hinside
    have hfault := inputFault_iff hinput hsource index
    have hearlier : position < index := by
      rcases lt_trichotomy position index with hearlier | hself | hlater
      · exact hearlier
      · exact absurd ((hfault _).mpr (Or.inl ⟨hself, rfl⟩)) (hnone _)
      · exact absurd ((hfault _).mpr (Or.inr (Or.inl ⟨hlater, rfl⟩))) (hnone _)
    exact ⟨position, _, hinput, hearlier, hsource, fun habsent =>
      hnone _ (.kind hinput hearlier hsource habsent)⟩
  · rintro ⟨position, source, hinput, hearlier, hsource, hpresent⟩ issue hfault
    rcases (inputFault_iff hinput hsource index issue).mp hfault with
      ⟨hself, -⟩ | ⟨hlater, -⟩ | ⟨-, habsent, -⟩
    · exact hearlier.ne hself
    · exact hearlier.asymm hlater
    · exact hpresent habsent

/-- A model keeps its promises if no node has a fault. -/
theorem Model.consistent_iff {model : Model} (hknown : model.KnownOperators) :
    model.Consistent ↔ ∀ (index : ℕ) (node : Node), model.nodes[index]? = some node →
      ∀ issue, ¬Fault model.nodes index node issue := by
  constructor
  · rintro hconsistent index node hnode issue (hfault | ⟨hdata, hfault⟩ | ⟨hdata, hfault⟩ |
      ⟨hdata, hinput, hfault⟩)
    · exact (nodup_ids_iff model.nodes).mp hconsistent.ids index node hnode issue hfault
    · obtain ⟨hpayload, hlength⟩ := hfault
      exact hlength (hconsistent.shapes node (List.mem_of_getElem? hnode) _ hdata _ hpayload)
    · obtain ⟨hattrs, htype, hkind⟩ := hfault
      obtain ⟨type, htype', hkind'⟩ :=
        hconsistent.attrs node (List.mem_of_getElem? hnode) _ hdata _ hattrs
      rw [← Tag.ofNumber?_eq_some] at htype htype'
      obtain rfl := Option.some.inj (htype.symm.trans htype')
      exact hkind hkind'
    · have hearlier := hconsistent.inputs index node hnode _ hdata _ hinput
      exact (no_inputFault_iff index _).mpr hearlier issue hfault
  · intro hnone
    have hsome {node : Node} (hnode : node ∈ model.nodes) : ∃ index, ∀ issue,
        ¬Fault model.nodes index node issue := by
      obtain ⟨index, hindex⟩ := List.mem_iff_getElem?.mp hnode
      exact ⟨index, hnone index node hindex⟩
    constructor
    · rw [nodup_ids_iff]
      exact fun index node hnode issue hfault => hnone index node hnode issue (.id hfault)
    · intro node hnode constant hdata payload hpayload
      obtain ⟨index, hnone⟩ := hsome hnode
      by_contra hlength
      exact hnone _ (.shape hdata (.mismatch hpayload hlength))
    · intro node hnode operator hdata attrs hattrs
      obtain ⟨index, hnone⟩ := hsome hnode
      obtain ⟨type, htype⟩ := Option.isSome_iff_exists.mp (hknown node hnode operator hdata)
      rw [Tag.ofNumber?_eq_some] at htype
      refine ⟨type, htype, ?_⟩
      by_contra hkind
      exact hnone _ (.attrs hdata (.mismatch hattrs htype hkind))
    · intro index node hnode operator hdata input hinput
      rw [← no_inputFault_iff]
      exact fun issue hfault => hnone index node hnode issue (.input hdata hinput hfault)

/-! ## Evaluation order -/

/-- The node at one index is an input of the node at another. -/
def Model.Feeds (model : Model) (source target : ℕ) : Prop :=
  ∃ (node : Node) (operator : Operator), model.nodes[target]? = some node ∧
    node.data = some (.operator operator) ∧
    ∃ input ∈ operator.inputs.getD [], input.toNat? = some source

/-- No node depends on itself, directly or through others. -/
def Model.Acyclic (model : Model) : Prop :=
  ∀ index, ¬Relation.TransGen model.Feeds index index

theorem Model.Consistent.acyclic {model : Model} (hconsistent : model.Consistent) :
    model.Acyclic := by
  have hstep {source target : ℕ} (hfeeds : model.Feeds source target) : source < target := by
    obtain ⟨node, operator, hnode, hdata, input, hinput, hsource⟩ := hfeeds
    obtain ⟨position, -, hposition, hearlier, -⟩ :=
      hconsistent.inputs target node hnode operator hdata input hinput
    rwa [Option.some.inj (hsource.symm.trans hposition)]
  intro index hcycle
  have hpath : ∀ target, Relation.TransGen model.Feeds index target → index < target := by
    intro target hpath
    induction hpath with
    | single hfeeds => exact hstep hfeeds
    | tail _ hfeeds ih => exact ih.trans (hstep hfeeds)
  exact lt_irrefl index (hpath index hcycle)

/-! ## The result of validation -/

theorem Model.NodeReports.eq_nil_iff {model : Model} {reports : List (List Issue)}
    (hreports : model.NodeReports reports) (hknown : model.KnownOperators) :
    reports.flatten = [] ↔ model.Consistent := by
  rw [consistent_iff hknown, List.eq_nil_iff_forall_not_mem]
  simp only [hreports.mem_iff, not_exists, not_and]
  exact ⟨fun hnone index node hnode issue => hnone issue index node hnode,
    fun hnone issue index node hnode => hnone index node hnode issue⟩

/-- A model with known operators is accepted if it keeps its promises. -/
theorem Model.checkValid_eq_ok_iff {model : Model} (hknown : model.KnownOperators) :
    model.checkValid = .ok () ↔ model.Consistent := by
  obtain ⟨reports, hvalidate, hreports⟩ := hknown.exists_reports
  rw [← hreports.eq_nil_iff hknown, checkValid, hvalidate]
  simp

/-- Validation reports exactly the faults of a model.  Whatever its nodes and inputs are, as long as
the operator types are members of their enumeration, validation does not fail, and its issues are
the reports of the nodes in their order.  There are none just for a consistent model, and such a
model is acyclic. -/
theorem Model.validate_exact (model : Model) (hknown : model.KnownOperators) :
    ∃ reports, model.validate = .ok reports.flatten ∧ model.NodeReports reports ∧
      (reports.flatten = [] ↔ model.Consistent) ∧ (reports.flatten = [] → model.Acyclic) := by
  obtain ⟨reports, hvalidate, hreports⟩ := hknown.exists_reports
  have hempty := hreports.eq_nil_iff hknown
  exact ⟨reports, hvalidate, hreports, hempty, fun hnone => (hempty.mp hnone).acyclic⟩

/-- A model with a fault of every kind.  The second node has an id twice and inputs that are its
own, later, fractional, negative and not a number; the third has no data for its shape; the last has
attributes of another operator and an input without data. -/
def Model.faulty : Model :=
  ⟨1, some ⟨some [⟨some "a", some .value⟩,
    ⟨some "a", some (.operator ⟨(Tag.code OperatorType.relu : ℕ), none,
      some [0, 1, 2, .finite (.ofOdd 1 1 rfl), (-1 : ℤ), .nan]⟩)⟩,
    ⟨none, some (.constant ⟨some [2, 3], some ⟨.ints, none⟩⟩)⟩,
    ⟨none, none⟩,
    ⟨some "b", some (.operator ⟨(Tag.code OperatorType.conv2d : ℕ),
      some ⟨.leakyRelu, .cons (some 3) .nil⟩, some [3]⟩)⟩]⟩⟩

theorem Model.validate_exact_faulty :
    faulty.KnownOperators ∧ ∃ reports, faulty.validate = .ok reports.flatten ∧
      faulty.NodeReports reports ∧ reports.flatten =
        [.duplicateId 1 "a" 0, .selfInput 1, .forwardInput 1 2,
          .danglingInput 1 (.finite (.ofOdd 1 1 rfl)) 5, .danglingInput 1 (-1 : ℤ) 5,
          .danglingInput 1 .nan 5, .shapeMismatch 2 .ints 0 [2, 3] 6,
          .attrsMismatch 4 .conv2d .leakyRelu, .inputKind 4 3] := by
  have hknown : faulty.KnownOperators := by
    have htypes : Tag.isMember OperatorType (Tag.code OperatorType.relu : ℕ) = true ∧
        Tag.isMember OperatorType (Tag.code OperatorType.conv2d : ℕ) = true := by decide
    intro node hnode operator hdata
    change node ∈ [_, _, _, _, _] at hnode
    simp only [List.mem_cons, List.not_mem_nil, or_false] at hnode
    rcases hnode with rfl | rfl | rfl | rfl | rfl <;> cases hdata
    · exact htypes.1
    · exact htypes.2
  obtain ⟨reports, hvalidate, hreports, -⟩ := validate_exact faulty hknown
  exact ⟨hknown, reports, hvalidate, hreports, Except.ok.inj (hvalidate.symm.trans (by rfl))⟩

/-! ## Shapes -/

/-- Only the shape of a constant is reported as a mismatch of the shape. -/
theorem Fault.shapeFault {issue : Issue} (hfault : Fault nodes index node issue)
    (hcode : issue.code = "shape-mismatch") :
    ∃ constant, node.data = some (.constant constant) ∧ ShapeFault index constant issue := by
  cases hfault with
  | id hfault =>
      cases hfault
      exact absurd hcode (by simp [Issue.code])
  | shape hdata hfault => exact ⟨_, hdata, hfault⟩
  | attrs hdata hfault =>
      cases hfault
      exact absurd hcode (by simp [Issue.code])
  | input hdata hinput hfault => cases hfault <;> exact absurd hcode (by simp [Issue.code])

/-- A constant is reported for its shape if the shape does not have the length of its payload. -/
theorem Model.shape_reported_iff {model : Model} {issues : List Issue}
    (hvalidate : model.validate = .ok issues) (hnode : model.nodes[index]? = some node)
    {constant : Constant} (hdata : node.data = some (.constant constant)) {payload : Payload}
    (hpayload : constant.data = some payload) :
    (∃ issue ∈ issues, issue.code = "shape-mismatch" ∧ issue.node = index) ↔
      (elementCount (constant.shape.getD [])).toNat? ≠ some (payload.data.getD []).length := by
  have hends := model.validate_ends
  rw [hvalidate] at hends
  obtain ⟨reports, hreports, rfl⟩ := hends
  simp only [hreports.mem_iff]
  constructor
  · rintro ⟨issue, ⟨index', node', hnode', hfault⟩, hcode, hindex⟩
    obtain rfl : index' = index := hfault.node_eq.symm.trans hindex
    obtain rfl := Option.some.inj (hnode.symm.trans hnode')
    obtain ⟨constant', hdata', hshape⟩ := hfault.shapeFault hcode
    cases hdata.symm.trans hdata'
    cases hshape with
    | mismatch hpayload' hlength => rwa [Option.some.inj (hpayload.symm.trans hpayload')]
  · intro hlength
    exact ⟨_, ⟨index, node, hnode, .shape hdata (.mismatch hpayload hlength)⟩, rfl, rfl⟩

/-- The check of shapes compares with the exact product of the sizes, however many there are, unless
the product overflows before a size that is zero.  Then the exact product is zero, and the constant
is reported whatever its length is.  Sizes of one word do not come to that before the
thirty-fourth. -/
theorem Model.validate_shape (model : Model) (index : ℕ) (node : Node) (constant : Constant)
    (payload : Payload) (sizes : List ℕ) (hnode : model.nodes[index]? = some node)
    (hdata : node.data = some (.constant constant)) (hpayload : constant.data = some payload)
    (hsizes : (constant.shape.getD []).map Number.toNat? = sizes.map some)
    (hlength : (payload.data.getD []).length < Number.exactLimit) :
    (model.KnownOperators → ∃ issues, model.validate = .ok issues) ∧
      (∀ issues, model.validate = .ok issues →
        ((∃ issue ∈ issues, issue.code = "shape-mismatch" ∧ issue.node = index) ↔
          sizes.prod ≠ (payload.data.getD []).length ∨
            Number.OverflowsBeforeZero 1 (constant.shape.getD []))) ∧
      (Number.OverflowsBeforeZero 1 (constant.shape.getD []) → sizes.prod = 0 ∧
        ((∀ size ∈ sizes, size < 2 ^ 32) → 33 < sizes.length)) := by
  refine ⟨fun hknown => ?_, fun issues hvalidate => ?_, fun hoverflow => ?_⟩
  · obtain ⟨reports, hvalidate, -⟩ := hknown.exists_reports
    exact ⟨_, hvalidate⟩
  · rw [shape_reported_iff hvalidate hnode hdata hpayload, elementCount, Ne,
      Number.foldl_mul_toNat?_iff hsizes hlength, not_and_or, not_not]
  · have hcount : (constant.shape.getD []).length = sizes.length := by
      simpa using congrArg List.length hsizes
    rw [← hcount]
    exact ⟨hoverflow.prod_eq_zero hsizes, hoverflow.length_lt hsizes⟩

/-- The model of a single constant of integers. -/
def Model.constant (sizes : List ℕ) (data : List Number) : Model :=
  ⟨1, some ⟨some [⟨none, some (.constant ⟨some (sizes.map Nat.cast), some ⟨.ints, some data⟩⟩)⟩]⟩⟩

/-- A product that is rounded, past the exact integers, before a zero makes it exact again. -/
theorem Model.validate_shape_large :
    let sizes := [4294967295, 4294967295, 4294967291, 0]
    (constant sizes []).validate = .ok [] ∧ sizes.prod = 0 ∧
      ¬Number.OverflowsBeforeZero 1 (sizes.map Nat.cast) := by
  intro sizes
  have hvalidate : (constant sizes []).validate = .ok [] := by rfl
  have hreported := (validate_shape (constant sizes []) 0 _ _ _ sizes rfl rfl rfl (by rfl)
    (by decide)).2.1 _ hvalidate
  refine ⟨hvalidate, by decide, fun hoverflow => ?_⟩
  obtain ⟨_, hissue, -⟩ := hreported.mpr (Or.inr hoverflow)
  cases hissue

/-- A product that overflows before a zero.  The constant is empty, as its shape says, and is
reported. -/
theorem Model.validate_shape_overflow :
    let sizes := List.replicate 33 4294967295 ++ [0]
    sizes.prod = 0 ∧ (constant sizes []).validate =
      .ok [.shapeMismatch 0 .ints 0 (sizes.map Nat.cast) .nan] := by
  exact ⟨by decide, by rfl⟩

end GraphWire

import GraphWire.Model.Decoding
import GraphWire.Proofs.Model.Validation
import GraphWire.Proofs.Number.Format
import GraphWire.Proofs.Text.Utf16
import Mathlib.Algebra.Order.Ring.Int

/-!
# Decoding arbitrary bytes

A decoder is given bytes that no encoder has written: distances may be negative or huge, vtables may
lie in one another, vectors may overlap and tags may stand in front of foreign payloads.  The main
statement is that decoding always ends in a model or in one of the refusals that its caller can
expect, and that a model that comes out holds only numbers of the wire types of their fields.
-/

namespace GraphWire

/-! ## Numbers of a wire type -/

/-- The integers of a wire type. -/
def IntegerType.Holds (type : IntegerType) (number : Number) : Prop :=
  ∃ value : ℤ, number = .ofInt value ∧ type.least ≤ value ∧ value ≤ type.greatest

/-- The integer that a word stores is one of the word's type. -/
theorem IntegerType.holds_ofWord (type : IntegerType) {word : ℕ} (hword : word < 256 ^ type.width) :
    type.Holds (.ofInt (TwosComplement.ofWord type.signed type.width word)) := by
  refine ⟨_, rfl, ?_⟩
  cases type <;>
    simp only [least, greatest, signed, width, TwosComplement.cardinality, TwosComplement.ofWord,
      Nat.reducePow, Nat.reduceDiv, if_true, Bool.false_eq_true, if_false, true_and,
      false_and] at hword ⊢ <;>
    omega

/-! ## Well-typed models -/

/-- The values of a field that a reader gives: a scalar of its type, a pad mode, or a list of
indices that may be absent. -/
def AttrType.Holds : (type : AttrType) → Option type.Value → Prop
  | .scalar (.integer type), some number => type.Holds number
  | .scalar (.float format), some number => format.Holds number
  | .scalar .flag, some _ => True
  | .scalar (.long _), some _ => True
  | .scalar _, none => False
  | .padMode, some number => ∃ mode : PadMode, number = (Tag.code mode : Number)
  | .padMode, none => False
  | .indices, indices? => ∀ indices ∈ indices?, ∀ index ∈ indices, IntegerType.uint32.Holds index

/-- Every field has a value of its type. -/
def AttrRecord.WellTyped {fields : List AttrField} (record : AttrRecord fields) : Prop :=
  record.All AttrType.Holds

/-- The type of an operator is a member of its enumeration, and its attributes and inputs hold
numbers of their wire types. -/
def Operator.WellTyped (operator : Operator) : Prop :=
  (∃ type : OperatorType, operator.type = (Tag.code type : Number)) ∧
    (∀ attrs ∈ operator.attrs, attrs.record.WellTyped) ∧
    ∀ inputs ∈ operator.inputs, ∀ input ∈ inputs, IntegerType.uint32.Holds input

/-- The elements of a constant are values of its element type. -/
def Payload.WellTyped (payload : Payload) : Prop :=
  ∀ elements ∈ payload.data, ∀ element ∈ elements,
    match payload.kind with
    | .floats => FloatFormat.binary32.Holds element
    | .ints => IntegerType.int32.Holds element

def Constant.WellTyped (constant : Constant) : Prop :=
  (∀ shape ∈ constant.shape, ∀ size ∈ shape, IntegerType.uint32.Holds size) ∧
    ∀ payload ∈ constant.data, payload.WellTyped

def NodeData.WellTyped : NodeData → Prop
  | .operator content => content.WellTyped
  | .constant content => content.WellTyped
  | .value => True

def Node.WellTyped (node : Node) : Prop :=
  (∀ id ∈ node.id, id.WellFormed) ∧ ∀ data ∈ node.data, data.WellTyped

/-- A model whose numbers all belong to the wire types of their places and whose ids are texts of
characters.  The kinds of attribute records, payloads and nodes are members of their unions by their
types, and none of them has the number zero. -/
def Model.WellTyped (model : Model) : Prop :=
  IntegerType.int32.Holds model.schemaVersion ∧ ∀ node ∈ model.nodes, node.WellTyped

/-! ## What the views give -/

/-- A stored or absent integer is one of its type. -/
theorem Table.integer_yields (table : Table) (type : IntegerType) (slot : Number) :
    Yields type.Holds (table.scalar (.integer type) slot (0 : Number)) := by
  apply (table.scalar_yields (.integer type) slot (0 : Number)).mono
  intro value hvalue
  rcases hvalue with hdefault | ⟨word, hword, hstored⟩
  · rw [hdefault]
    exact ⟨0, rfl, by cases type <;> decide, by cases type <;> decide⟩
  · rw [hstored]
    exact type.holds_ofWord hword

/-- A list of stored indices holds unsigned integers. -/
theorem Table.indices_yields (table : Table) (slot : Number) :
    Yields (fun indices? => ∀ indices ∈ indices?, ∀ index ∈ indices, IntegerType.uint32.Holds index)
      (table.scalars .uint32 slot) := by
  apply (table.scalars_yields .uint32 slot).mono
  intro indices? hindices indices hsome index hindex
  obtain ⟨word, hword, hstored⟩ := hindices indices hsome index hindex
  rw [hstored]
  exact IntegerType.uint32.holds_ofWord hword

/-- A number that a table holds as a tag is the number of the member that is found for it. -/
theorem Table.member_yields {α : Type} [Tag α] (table : Table) (what : String) (number : ℤ) :
    Yields (fun member : α => Number.ofInt number = (Tag.code member : Number))
      (table.member what (.ofInt number)) := by
  unfold Table.member
  cases hfound : (Tag.ofNumber? (.ofInt number) : Option α) with
  | none => rfl
  | some member => exact congrArg Number.ofInt (Tag.code_of_ofNumber? hfound)

/-- The member for a stored number, when the number is known to be an integer. -/
theorem Table.member_yields_of_holds {α : Type} [Tag α] (table : Table) (what : String)
    {type : IntegerType} {number : Number} (hnumber : type.Holds number) :
    Yields (fun member : α => number = (Tag.code member : Number)) (table.member what number) := by
  obtain ⟨value, hvalue, -⟩ := hnumber
  rw [hvalue]
  exact table.member_yields what value

theorem AttrType.read_yields (table : Table) (slot : ℕ) (type : AttrType) :
    Yields type.Holds (type.read table slot) := by
  cases type with
  | scalar type =>
      cases type with
      | integer type => exact Ends.map (table.integer_yields type slot)
      | flag =>
          apply Ends.map ((table.scalar_yields .flag slot false).mono _)
          intro value _
          trivial
      | long signed =>
          apply Ends.map ((table.scalar_yields (.long signed) slot (0 : ℤ)).mono _)
          intro value _
          trivial
      | float format =>
          apply Ends.map ((table.scalar_yields (.float format) slot (0 : Number)).mono _)
          intro value hvalue
          rcases hvalue with hdefault | ⟨word, -, hstored⟩
          · rw [hdefault, show (0 : Number) = format.decode 0 by cases format <;> decide]
            exact format.holds_decode 0
          · rw [hstored]
            exact format.holds_decode word
  | padMode =>
      apply Ends.bind (table.integer_yields .int8 slot)
      intro code hcode
      apply Ends.bind (table.member_yields_of_holds "PadMode" hcode)
      intro mode hmode
      exact ⟨mode, hmode⟩
  | indices => exact table.indices_yields slot

theorem AttrRecord.read_yields (table : Table) (fields : List AttrField) (slot : ℕ) :
    Yields AttrRecord.WellTyped (AttrRecord.read table fields slot) := by
  induction fields generalizing slot with
  | nil => trivial
  | cons field fields ih =>
      apply Ends.bind (field.type.read_yields table slot)
      intro value hvalue
      apply Ends.bind (ih (slot + 1))
      intro rest hrest
      exact ⟨hvalue, hrest⟩

theorem AttrsView.unpack_yields (view : AttrsView) :
    Yields (fun attrs => attrs.record.WellTyped) view.unpack := by
  apply Ends.bind (AttrRecord.read_yields view.table view.kind.fields 0)
  intro record hrecord
  exact hrecord

theorem AttrsView.ofUnion_yields (owner : Table) (slot : UnionSlot) :
    Yields (fun _ => True) (AttrsView.ofUnion owner slot.tag slot.position) := by
  apply Ends.bind (owner.member_yields "OperatorAttrs" slot.tag)
  intro kind _
  trivial

theorem PayloadView.unpack_yields (view : PayloadView) :
    Yields Payload.WellTyped view.unpack := by
  obtain ⟨kind, table⟩ := view
  cases kind with
  | floats =>
      apply Ends.bind (table.scalars_yields .float32 0)
      intro data hdata elements hsome element helement
      obtain ⟨word, -, hstored⟩ := hdata elements hsome element helement
      rw [hstored]
      exact FloatFormat.binary32.holds_decode word
  | ints =>
      apply Ends.bind (table.scalars_yields .int32 0)
      intro data hdata elements hsome element helement
      obtain ⟨word, hword, hstored⟩ := hdata elements hsome element helement
      rw [hstored]
      exact IntegerType.int32.holds_ofWord hword

theorem ConstantView.data_yields (view : ConstantView) : Yields (fun _ => True) view.data := by
  apply Ends.bind (view.table.union?_yields 1)
  intro slot? _
  cases slot? with
  | none => trivial
  | some slot =>
      apply Ends.bind (view.table.member_yields "ConstantData" slot.tag)
      intro kind _
      trivial

theorem ConstantView.unpack_yields (view : ConstantView) :
    Yields Constant.WellTyped view.unpack := by
  have hshape (data : Option Payload) (hdata : ∀ payload ∈ data, payload.WellTyped) :
      Yields Constant.WellTyped (do let shape ← view.shape; return ⟨shape, data⟩) := by
    apply Ends.bind (view.table.indices_yields 0)
    intro shape hshape
    exact ⟨hshape, hdata⟩
  apply Ends.bind view.data_yields
  intro data? _
  cases data? with
  | none => exact hshape none (by simp)
  | some payload =>
      apply Ends.bind payload.unpack_yields.map_some
      intro data hdata
      exact hshape data hdata

theorem OperatorView.type_yields (view : OperatorView) : Yields (fun _ => True) view.type := by
  apply Ends.bind (view.table.integer_yields .int8 0)
  intro code hcode
  apply (view.table.member_yields_of_holds "OperatorType" hcode).mono
  intro type _
  trivial

theorem OperatorView.attrs_yields (view : OperatorView) : Yields (fun _ => True) view.attrs := by
  apply Ends.bind (view.table.union?_yields 1)
  intro slot? _
  cases slot? with
  | none => trivial
  | some slot => exact Ends.map ((AttrsView.ofUnion_yields view.table slot).mono fun _ _ => trivial)

theorem OperatorView.unpack_yields (view : OperatorView) :
    Yields Operator.WellTyped view.unpack := by
  have hinputs (type : OperatorType) (attrs : Option Attrs)
      (hattrs : ∀ record ∈ attrs, record.record.WellTyped) :
      Yields Operator.WellTyped
        (do let inputs ← view.inputs; return ⟨Tag.code type, attrs, inputs⟩) := by
    apply Ends.bind (view.table.indices_yields 3)
    intro inputs hinputs
    exact ⟨⟨type, rfl⟩, hattrs, hinputs⟩
  apply Ends.bind view.attrs_yields
  intro attrs? _
  apply Ends.bind view.type_yields
  intro type _
  cases attrs? with
  | none => exact hinputs type none (by simp)
  | some attrs =>
      apply Ends.bind attrs.unpack_yields.map_some
      intro attrs hattrs
      exact hinputs type attrs hattrs

theorem NodeView.data_yields (view : NodeView) : Yields (fun _ => True) view.data := by
  apply Ends.bind (view.table.union?_yields 1)
  intro slot? _
  cases slot? with
  | none => trivial
  | some slot =>
      apply Ends.bind (view.table.member_yields "NodeKind" slot.tag)
      intro kind _
      trivial

theorem NodeDataView.unpack_yields (view : NodeDataView) :
    Yields NodeData.WellTyped view.unpack := by
  cases view with
  | operator view => exact Ends.map view.unpack_yields
  | constant view => exact Ends.map view.unpack_yields
  | value table => trivial

theorem NodeView.unpack_yields (view : NodeView) : Yields Node.WellTyped view.unpack := by
  have hid (data : Option NodeData) (hdata : ∀ content ∈ data, content.WellTyped) :
      Yields Node.WellTyped
        (do let id ← view.id; return (⟨id.map Utf16.ofString, data⟩ : Node)) := by
    apply Ends.bind (view.table.string?_yields 0)
    intro text? _
    refine ⟨?_, hdata⟩
    intro id hmember
    obtain ⟨text, -, rfl⟩ := Option.map_eq_some_iff.mp hmember
    exact Utf16.wellFormed_ofString text
  apply Ends.bind view.data_yields
  intro data? _
  cases data? with
  | none => exact hid none (by simp)
  | some data =>
      apply Ends.bind data.unpack_yields.map_some
      intro data hdata
      exact hid data hdata

theorem GraphView.nodes_yields (view : GraphView) : Yields (fun _ => True) view.nodes := by
  apply Ends.bind (view.table.tables_yields 0)
  intro tables _
  trivial

theorem GraphView.unpack_yields (view : GraphView) :
    Yields (fun graph => ∀ nodes ∈ graph.nodes, ∀ node ∈ nodes, node.WellTyped) view.unpack := by
  apply Ends.bind view.nodes_yields
  intro nodes? _
  cases nodes? with
  | none => simp
  | some nodes =>
      apply Ends.bind (Ends.mapM fun node _ => node.unpack_yields)
      intro nodes hnodes
      simpa using hnodes

theorem ModelView.graph_yields (view : ModelView) : Yields (fun _ => True) view.graph := by
  apply Ends.bind (view.table.table?_yields 1)
  intro table? _
  trivial

theorem ModelView.schemaVersion_yields (view : ModelView) :
    Yields IntegerType.int32.Holds view.schemaVersion :=
  view.table.integer_yields .int32 0

theorem ModelView.unpack_yields (view : ModelView) : Yields Model.WellTyped view.unpack := by
  apply Ends.bind view.graph_yields
  intro graph? _
  apply Ends.bind view.schemaVersion_yields
  intro version hversion
  cases graph? with
  | none => exact ⟨hversion, by simp [Model.nodes]⟩
  | some graph =>
      apply Ends.bind graph.unpack_yields
      intro graph hgraph
      refine ⟨hversion, ?_⟩
      cases hnodes : graph.nodes with
      | none => simp [Model.nodes, hnodes]
      | some nodes => simpa [Model.nodes, hnodes] using hgraph nodes hnodes

/-! ## The outcome of decoding -/

theorem Model.WellTyped.knownOperators {model : Model} (htyped : model.WellTyped) :
    model.KnownOperators := by
  intro node hnode operator hdata
  obtain ⟨⟨type, htype⟩, -⟩ := (htyped.2 node hnode).2 _ hdata
  rw [Tag.isMember, htype, LawfulTag.ofNumber?_code]
  rfl

theorem Model.checkValid_ends {model : Model} (htyped : model.WellTyped) :
    Ends (fun _ => True) (fun error => ∃ issues, error = .violations issues) model.checkValid := by
  obtain ⟨reports, hvalidate, -⟩ := htyped.knownOperators.exists_reports
  unfold checkValid
  rw [hvalidate]
  exact Ends.ite (fun _ => trivial) fun _ => ⟨_, rfl⟩

/-- The refusals of a reader with checked settings: it may find fault with the bytes, and with the
identifier or the version only when it is strict. -/
def ReadError.Expected (settings : ReaderSettings) : ReadError → Prop
  | .argument _ => False
  | .malformed cause => cause.inBytes = true
  | .identifier _ _ | .version _ _ => settings.strict = true

theorem ModelView.openWith_ends (window : Window) (settings : ReaderSettings) :
    Ends (fun _ => True) (ReadError.Expected settings) (ModelView.openWith window settings) := by
  have hmalformed {α : Type} {property : α → Prop} {result : Except Malformed α}
      (hresult : Yields property result) :
      Ends property (ReadError.Expected settings) (result.mapError .malformed) :=
    hresult.mapError fun cause hcause => hcause
  have hframe : Ends (fun _ => True) (ReadError.Expected settings) (settings.frame window) :=
    Ends.ite (fun _ => hmalformed window.frame_yields) fun _ => trivial
  apply Ends.bind hframe
  intro framed _
  have hidentifier (actual : Option String) :
      Ends (fun _ => True) (ReadError.Expected settings) (settings.checkIdentifier actual) :=
    Ends.ite (fun hother => hother.1) fun _ => trivial
  apply Ends.bind (hidentifier _)
  intro _ _
  apply Ends.bind (hmalformed (framed.indirect_yields _))
  intro root _
  apply Ends.bind (hmalformed (ModelView.schemaVersion_yields _))
  intro version _
  have hversion :
      Ends (fun _ => True) (ReadError.Expected settings) (settings.checkVersion version) :=
    Ends.ite (fun _ => trivial) fun _ => Ends.ite (fun hstrict => hstrict) fun _ => trivial
  apply Ends.bind hversion
  intro mismatch _
  trivial

/-- The refusals that the caller of a decoder can expect. -/
def DecodeError.Expected (settings : ReaderSettings) (validate : Bool) : DecodeError → Prop
  | .read error => error.Expected settings
  | .validation error => validate = true ∧ ∃ issues, error = .violations issues

theorem ModelView.decode_ends (view : ModelView) (settings : ReaderSettings) (validate : Bool) :
    Ends Model.WellTyped (DecodeError.Expected settings validate) (view.decode validate) := by
  apply Ends.bind (view.unpack_yields.mapError fun cause hcause => hcause)
  intro model htyped
  cases validate with
  | false => exact htyped
  | true =>
      have hvalid : Ends (fun _ => True) (DecodeError.Expected settings true)
          (model.checkValid.mapError .validation) :=
        (model.checkValid_ends htyped).mapError fun error hviolations => ⟨rfl, hviolations⟩
      apply Ends.bind hvalid
      intro _ _
      exact htyped

/-- Decoding is safe.  Whatever the bytes of a window are and wherever the window lies, decoding
under accepted options ends in a well-typed model or in a refusal that the options allow for.  No
load leaves the window, since that would be a fault that is not in the bytes, and no name is asked
for an operator type that has none. -/
theorem Model.decode_ends_expected (window : Window) (options : DecodeOptions)
    (settings : ReaderSettings)
    (haccepted : options.toReaderOptions.resolve = .ok settings) :
    Ends Model.WellTyped (DecodeError.Expected settings (options.validate.getD false))
      (Model.decode window options).outcome := by
  have hopen : ModelView.open window options.toReaderOptions =
      ModelView.openWith window settings := by
    rw [ModelView.open, haccepted]
    rfl
  have hroot := ModelView.openWith_ends window settings
  unfold Model.decode
  rw [hopen]
  cases hresult : ModelView.openWith window settings with
  | error error =>
      rw [hresult] at hroot
      exact hroot
  | ok result => exact result.1.decode_ends settings _

/-- Bytes that point every distance at themselves. -/
theorem Model.decode_zeros_ends_expected :
    ReaderOptions.resolve {} = .ok ⟨false, "MODL", false, .ofInt 1⟩ ∧
      Ends Model.WellTyped (DecodeError.Expected ⟨false, "MODL", false, .ofInt 1⟩ true)
        (Model.decode (.ofList (List.replicate 16 0)) { validate := true }).outcome := by
  have haccepted : ReaderOptions.resolve {} = .ok ⟨false, "MODL", false, .ofInt 1⟩ := by rfl
  exact ⟨haccepted, Model.decode_ends_expected _ { validate := true } _ haccepted⟩

end GraphWire

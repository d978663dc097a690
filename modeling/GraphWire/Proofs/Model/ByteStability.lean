import GraphWire.Proofs.Builder.Parallel
import GraphWire.Proofs.Model.EncodeOptions
import GraphWire.Proofs.Number.Words
import GraphWire.Proofs.Session.Growth

/-!
# Encoding what has been decoded

A decoded model holds rounded floats, filled-in zeros and plain integers where the model that was
encoded may have held something else.  Encoding it again puts the same words in the same places, as
long as the same fields are left out: a float attribute that is no zero but is rounded to one is
written the first time and left out the second.  So the bytes are stable for models without such
attributes (`Model.Settled`) and for encoders that force defaults.
-/

namespace GraphWire

open Build

/-! ## Stored values -/

namespace Scalar

/-- What is kept of a value is written as the word that it was read from. -/
theorem word_stored {type : Scalar} {value : type.Value} (hfits : type.Fits value) :
    type.word (type.stored value) = type.word value := by
  cases type with
  | integer type =>
      obtain ⟨integer, hinteger⟩ := Option.isSome_iff_exists.mp hfits
      obtain ⟨hvalue, hrange⟩ := Option.filter_eq_some_iff.mp hinteger
      have hstored : type.value? (.ofInt integer) = some integer := by
        simp only [IntegerType.value?, Number.toInt?_ofInt, Option.filter_some, hrange, if_true]
      simp only [word, stored, hvalue, Option.getD_some, hstored, hinteger]
  | flag => rfl
  | long signed =>
      have hword := TwosComplement.word_lt 8 value
      have hcardinality : TwosComplement.cardinality 8 = 18446744073709551616 := by decide
      have hstored : TwosComplement.word 8 (TwosComplement.ofWord signed 8
          (TwosComplement.word 8 value)) = TwosComplement.word 8 value := by
        rw [hcardinality] at hword
        simp only [TwosComplement.ofWord, hcardinality]
        generalize TwosComplement.word 8 value = word at hword ⊢
        simp only [TwosComplement.word, hcardinality]
        split <;> omega
      simp only [word, stored, hstored]
  | float format => simp only [word, stored, format.encode_round]

theorem stored_stored {type : Scalar} {value : type.Value} (hfits : type.Fits value) :
    type.stored (type.stored value) = type.stored value := by
  obtain ⟨word, hword⟩ := fits_iff.mp hfits
  have hagain : type.word (type.stored value) = .ok word := by
    rw [word_stored hfits, hword]
  rw [← ofWord_word hagain, ofWord_word hword]

/-- An integer equals what is kept of it. -/
theorem same_stored {type : IntegerType} {number : Number}
    (hfits : (integer type).Fits number) (other : Number) :
    (integer type).same ((integer type).stored number) other
      = (integer type).same number other := by
  obtain ⟨value, hvalue⟩ := Option.isSome_iff_exists.mp hfits
  obtain ⟨hinteger, -⟩ := Option.filter_eq_some_iff.mp hvalue
  simp only [same, stored, hinteger, Option.getD_some, Number.equals_of_toInt? hinteger]

/-- Whether a value that is stored as a zero is one.  A float may be too small for its format. -/
def Settled (type : Scalar) (value : type.Value) : Prop :=
  type.same (type.stored value) type.zero = true → type.same value type.zero = true

instance (type : Scalar) (value : type.Value) : Decidable (type.Settled value) :=
  inferInstanceAs (Decidable (_ → _))

/-- An integer that its type can hold keeps its value. -/
theorem settled_of_fits {type : IntegerType} {number : Number}
    (hfits : (integer type).Fits number) : (integer type).Settled number := by
  intro hzero
  rwa [same_stored hfits] at hzero

theorem same_zero (type : Scalar) : type.same type.zero type.zero = true := by
  have hnumber : Number.equals 0 0 = true := by decide
  cases type with
  | integer type => exact hnumber
  | flag => rfl
  | long signed => rfl
  | float format => exact hnumber

/-- What is stored is left out only if it was no zero from the start. -/
theorem keep_stored {type : Scalar} {value : type.Value} {force : Bool}
    (hkept : (force || !type.same value type.zero) = true)
    (hsettled : force = true ∨ type.Settled value) :
    (force || !type.same (type.stored value) type.zero) = true := by
  cases hzero : type.same (type.stored value) type.zero with
  | false => simp
  | true =>
      rcases hsettled with hforce | hsettled
      · rw [hforce, Bool.true_or]
      · rwa [hsettled hzero] at hkept

theorem settled_stored {type : Scalar} {value : type.Value} (hfits : type.Fits value) :
    type.Settled (type.stored value) := by
  intro hzero
  rwa [stored_stored hfits] at hzero

end Scalar

/-- No scalar but a short integer is stored as a zero unless it is one. -/
def AttrType.Settled : (type : AttrType) → Option type.Value → Prop
  | .scalar (.integer _), _ => True
  | .scalar type, value => type.Settled (value.getD type.zero)
  | _, _ => True

theorem AttrType.Settled.scalar {type : Scalar} {value : Option type.Value}
    (hsettled : (AttrType.scalar type).Settled value) (hfits : (AttrType.scalar type).Fits value) :
    type.Settled (value.getD type.zero) := by
  cases type with
  | integer type => exact Scalar.settled_of_fits hfits
  | flag => exact hsettled
  | long signed => exact hsettled
  | float format => exact hsettled

def NodeData.Settled : NodeData → Prop
  | .operator content => ∀ attrs ∈ content.attrs, attrs.record.All AttrType.Settled
  | _ => True

/-- No float attribute of the model is stored as a zero unless it is one. -/
def Model.Settled (model : Model) : Prop :=
  ∀ node ∈ model.nodes, ∀ data ∈ node.data, data.Settled

/-! ## Parts in parallel -/

namespace Build

variable {α β : Type} {settings : BuilderSettings}

/-- The items of a list one after another, each beside its changed form. -/
theorem Parallel.mapM {write : α → Build β} {change : α → α} {items : List α}
    (hwrite : ∀ item ∈ items, Parallel settings Eq (write item) (write (change item))) :
    Parallel settings Eq (items.mapM write) ((items.map change).mapM write) := by
  induction items with
  | nil => exact pure rfl
  | cons item items ih =>
      rw [List.map_cons, List.mapM_cons, List.mapM_cons]
      apply (hwrite item List.mem_cons_self).bind
      rintro value _ rfl
      apply (ih fun other hother => hwrite other (List.mem_cons_of_mem item hother)).bind
      rintro values _ rfl
      exact pure rfl

/-- A child that may be absent. -/
theorem Parallel.reference {write : α → Build ℕ} {change : α → α} {child? : Option α}
    (hwrite : ∀ child ∈ child?, Parallel settings Eq (write child) (write (change child))) :
    Parallel settings Eq (reference (child?.map write))
      (Build.reference ((child?.map change).map write)) := by
  cases child? with
  | none => exact pure rfl
  | some child =>
      apply (hwrite child rfl).bind
      rintro offset _ rfl
      exact pure rfl

/-- A list of numbers and what is kept of it are written alike. -/
theorem scalars_stored {type : Scalar} {values : List type.Value}
    (hfits : ∀ value ∈ values, type.Fits value) :
    (scalars type (values.map type.stored) : Build ℕ) = scalars type values := by
  have hwrites : (writeAll (write type) (values.map type.stored) : Build Unit)
      = writeAll (write type) values := by
    induction values with
    | nil => rfl
    | cons value values ih =>
        have hwrite : (write type (type.stored value) : Build Unit) = write type value := by
          unfold write
          rw [Scalar.word_stored (hfits value List.mem_cons_self)]
        simp only [List.map_cons, writeAll, hwrite,
          ih fun other hother => hfits other (List.mem_cons_of_mem value hother)]
  unfold scalars
  rw [hwrites, List.length_map]

theorem words_parallel (type : Scalar) {values? : Option (List type.Value)}
    (hfits : ∀ values ∈ values?, ∀ value ∈ values, type.Fits value) :
    Parallel settings Eq (reference (values?.map (scalars type)))
      (reference ((values?.map (List.map type.stored)).map (scalars type))) := by
  apply Parallel.reference
  intro values hvalues
  rw [scalars_stored (hfits values hvalues)]
  exact .of_steady (steady_operates.scalars type values)

end Build

variable {settings : BuilderSettings}

/-- An integer field may be given what is kept of its value. -/
theorem Field.alike_stored {type : IntegerType} {number default : Number}
    (hfits : (Scalar.integer type).Fits number) :
    (Field.scalar (.integer type) number default).Alike settings
      (.scalar (.integer type) ((Scalar.integer type).stored number) default) := by
  apply Field.alike_scalar
  · rw [Scalar.same_stored hfits]
  · intro _
    exact Scalar.word_stored hfits

namespace AttrType

/-- What is kept of an attribute is written like the attribute. -/
theorem writeField_parallel {type : AttrType} {value : Option type.Value}
    (hfits : type.Fits value) (hsettled : settings.forceDefaults = true ∨ type.Settled value) :
    Parallel settings (Field.Alike settings) (type.writeField value)
      (type.writeField (type.kept settings.forceDefaults value)) := by
  cases type with
  | scalar type =>
      apply Parallel.pure
      simp only [kept, Option.getD_some]
      cases hkept : settings.forceDefaults || !type.same (value.getD type.zero) type.zero with
      | true =>
          apply Field.alike_scalar
          · rw [hkept]
            exact Scalar.keep_stored hkept (hsettled.imp_right fun hvalue => hvalue.scalar hfits)
          · intro _
            exact Scalar.word_stored hfits
      | false =>
          obtain ⟨hforce, -⟩ := Bool.or_eq_false_iff.mp hkept
          apply Field.alike_scalar
          · rw [hkept, hforce]
            simp [type.same_zero]
          · rw [hkept]
            exact fun hfalse => absurd hfalse Bool.false_ne_true
  | padMode => exact .pure (Field.alike_stored hfits)
  | indices =>
      have hwords : Parallel settings Eq (indices.writeField value)
          (indices.writeField (indices.kept settings.forceDefaults value)) :=
        words_parallel .uint32 hfits
      apply hwords.imp
      rintro field _ rfl
      exact .refl field

end AttrType

/-- The fields of a kept record are alike one by one. -/
theorem AttrRecord.writeFields_parallel {fields : List AttrField} {record : AttrRecord fields}
    (hfits : record.All AttrType.Fits)
    (hsettled : settings.forceDefaults = true ∨ record.All AttrType.Settled) :
    Parallel settings (List.Forall₂ (Field.Alike settings)) record.writeFields
      (record.map (AttrType.kept settings.forceDefaults)).writeFields := by
  induction record with
  | nil => exact .pure .nil
  | cons value rest ih =>
      apply (AttrType.writeField_parallel hfits.1 (hsettled.imp_right And.left)).bind
      intro field field' hfield
      apply (ih hfits.2 (hsettled.imp_right And.right)).bind
      intro others others' hothers
      exact .pure (.cons hfield hothers)

theorem Attrs.write_parallel {attrs : Attrs} (hfits : attrs.Fits)
    (hsettled : settings.forceDefaults = true ∨ attrs.record.All AttrType.Settled) :
    Parallel settings Eq attrs.write (attrs.kept settings.forceDefaults).write :=
  (AttrRecord.writeFields_parallel hfits hsettled).bind fun _ _ => table_parallel

theorem Operator.write_parallel {operator : Operator} (hfits : operator.Fits)
    (hsettled : settings.forceDefaults = true ∨
      ∀ attrs ∈ operator.attrs, attrs.record.All AttrType.Settled) :
    Parallel settings Eq operator.write (operator.kept settings.forceDefaults).write := by
  obtain ⟨htype, hattrs, hinputs⟩ := hfits
  have hkind : (operator.attrs.map (Attrs.kept settings.forceDefaults)).map Attrs.kind
      = operator.attrs.map Attrs.kind := by
    rw [Option.map_map]
    rfl
  apply (words_parallel .uint32 hinputs).bind
  rintro inputs _ rfl
  have hrecord (attrs : Attrs) (hmember : attrs ∈ operator.attrs) :
      Parallel settings Eq attrs.write (attrs.kept settings.forceDefaults).write :=
    attrs.write_parallel (hattrs attrs hmember) (hsettled.imp_right fun hall => hall attrs hmember)
  apply (Parallel.reference hrecord).bind
  rintro attrs _ rfl
  apply table_parallel
  simp only [Operator.kept, Operator.stored, hkind]
  exact .cons (Field.alike_stored htype)
    (.cons (.refl _) (.cons (.refl attrs) (.cons (.refl inputs) .nil)))

theorem Payload.write_parallel {payload : Payload} (hfits : payload.Fits) :
    Parallel settings Eq payload.write payload.stored.write := by
  obtain ⟨kind, data⟩ := payload
  cases kind with
  | floats =>
      apply (words_parallel .float32 fun _ _ _ _ => trivial).bind
      rintro data _ rfl
      exact .of_steady (table_steady [data])
  | ints =>
      apply (words_parallel .int32 (hfits rfl)).bind
      rintro data _ rfl
      exact .of_steady (table_steady [data])

theorem Constant.write_parallel {constant : Constant} (hfits : constant.Fits) :
    Parallel settings Eq constant.write constant.stored.write := by
  obtain ⟨hshape, hdata⟩ := hfits
  have hkind : (constant.data.map Payload.stored).map Payload.kind
      = constant.data.map Payload.kind := by
    rw [Option.map_map]
    rfl
  apply (words_parallel .uint32 hshape).bind
  rintro shape _ rfl
  have hpayload (payload : Payload) (hmember : payload ∈ constant.data) :
      Parallel settings Eq payload.write payload.stored.write :=
    payload.write_parallel (hdata payload hmember)
  apply (Parallel.reference hpayload).bind
  rintro data _ rfl
  simp only [Constant.stored, hkind]
  exact .of_steady (table_steady _)

theorem NodeData.write_parallel {data : NodeData} (hfits : data.Fits)
    (hsettled : settings.forceDefaults = true ∨ data.Settled) :
    Parallel settings Eq data.write (data.kept settings.forceDefaults).write := by
  cases data with
  | operator content => exact Operator.write_parallel hfits hsettled
  | constant content => exact Constant.write_parallel hfits
  | value => exact .of_steady steady_composes.valueNode

theorem Node.write_parallel {node : Node} (hfits : ∀ data ∈ node.data, data.Fits)
    (hsettled : settings.forceDefaults = true ∨ ∀ data ∈ node.data, data.Settled) :
    Parallel settings Eq node.write (node.kept settings.forceDefaults).write := by
  have hkind : (node.data.map (NodeData.kept settings.forceDefaults)).map NodeData.kind
      = node.data.map NodeData.kind := by
    rw [Option.map_map]
    congr
    funext data
    cases data <;> rfl
  apply Parallel.bind_steady
    (steady_composes.reference steady_composes.string (node.id.map Utf16.text))
  intro id
  have hchild (data : NodeData) (hdata : data ∈ node.data) :
      Parallel settings Eq data.write (data.kept settings.forceDefaults).write :=
    data.write_parallel (hfits data hdata) (hsettled.imp_right fun hall => hall data hdata)
  apply (Parallel.reference hchild).bind
  rintro data _ rfl
  simp only [Node.kept, hkind]
  exact .of_steady (table_steady _)

theorem Graph.write_parallel {graph : Graph}
    (hnodes : ∀ nodes ∈ graph.nodes, ∀ node ∈ nodes,
      Parallel settings Eq node.write (node.kept settings.forceDefaults).write) :
    Parallel settings Eq graph.write (graph.kept settings.forceDefaults).write := by
  have hlists (nodes : List Node) (hmember : nodes ∈ graph.nodes) :
      Parallel settings Eq (writeNodes nodes)
        (writeNodes (nodes.map (Node.kept settings.forceDefaults))) := by
    apply (Parallel.mapM (hnodes nodes hmember)).bind
    rintro offsets _ rfl
    exact .of_steady (steady_operates.offsets _)
  apply (Parallel.reference hlists).bind
  rintro nodes _ rfl
  exact .of_steady (table_steady [nodes])

/-- What a buffer keeps of a model is written like the model. -/
theorem Model.write_parallel {model : Model} (hfits : model.Fits)
    (hsettled : settings.forceDefaults = true ∨ model.Settled) :
    Parallel settings Eq model.write (model.kept settings.forceDefaults).write := by
  obtain ⟨hversion, hdata⟩ := hfits
  have hnode (node : Node) (hmember : node ∈ model.nodes) :
      Parallel settings Eq node.write (node.kept settings.forceDefaults).write :=
    node.write_parallel (hdata node hmember) (hsettled.imp_right fun hall => hall node hmember)
  have hgraph (graph : Graph) (hmember : graph ∈ model.graph) :
      Parallel settings Eq graph.write (graph.kept settings.forceDefaults).write :=
    graph.write_parallel (model.forall_nodes _ |>.mpr hnode graph hmember)
  apply (Parallel.reference hgraph).bind
  rintro graph _ rfl
  apply table_parallel
  exact .cons (Field.alike_stored hversion) (.cons (.refl graph) .nil)

/-! ## Encoding again -/

/-- What is kept of an attribute is a zero only if it is stored as one. -/
theorem AttrType.Fits.settled_kept {type : AttrType} {value : Option type.Value}
    (hfits : type.Fits value) (force : Bool) : type.Settled (type.kept force value) := by
  cases type with
  | scalar type =>
      have hsettled : type.Settled ((kept force (.scalar type) value).getD type.zero) := by
        simp only [kept, Option.getD_some]
        split
        · exact Scalar.settled_stored hfits
        · exact fun _ => type.same_zero
      cases type with
      | integer type => trivial
      | flag => exact hsettled
      | long signed => exact hsettled
      | float format => exact hsettled
  | padMode => trivial
  | indices => trivial

theorem AttrRecord.All.settled_kept {fields : List AttrField} {record : AttrRecord fields}
    (hfits : record.All AttrType.Fits) (force : Bool) :
    (record.map (AttrType.kept force)).All AttrType.Settled := by
  induction record with
  | nil => trivial
  | cons value rest ih => exact ⟨AttrType.Fits.settled_kept hfits.1 force, ih hfits.2⟩

/-- After one encoding nothing is left that is stored as a zero and is none. -/
theorem Model.Fits.settled_kept {model : Model} (hfits : model.Fits) (force : Bool) :
    (model.kept force).Settled := by
  intro node hnode data hdata
  rw [Model.nodes_kept] at hnode
  obtain ⟨original, horiginal, rfl⟩ := List.mem_map.mp hnode
  obtain ⟨content, hcontent, rfl⟩ := Option.map_eq_some_iff.mp hdata
  have hfit := hfits.2 original horiginal content hcontent
  cases content with
  | operator content =>
      intro attrs hattrs
      obtain ⟨record, hrecord, rfl⟩ := Option.map_eq_some_iff.mp hattrs
      exact AttrRecord.All.settled_kept (hfit.2.1 record hrecord) force
  | constant content => trivial
  | value => trivial

/-- What becomes of ids has nothing to do with attributes. -/
theorem Model.Settled.reread {model : Model} (hsettled : model.Settled) :
    model.reread.Settled := by
  intro node hnode data hdata
  rw [Model.nodes_reread] at hnode
  obtain ⟨original, horiginal, rfl⟩ := List.mem_map.mp hnode
  exact hsettled original horiginal data hdata

end GraphWire

import GraphWire.Proofs.Number.Basic
import GraphWire.Proofs.Reader.Coverage
import Mathlib.Data.List.Forall2
import Mathlib.Data.List.Infix
import Mathlib.Data.Option.Basic

/-!
# Reading from a longer window

When the bytes of one window are the first bytes of another, what can be read from the shorter one
is read alike from the longer one: every check that the shorter one passes is passed by the longer
one too, and no byte behind the shorter one is looked at.  When the two hold the same bytes the
errors are the same as well.  `Stays` says both of two results.
-/

namespace GraphWire

/-- Two results of one computation on different inputs.  A value in the first place stays, and if
the inputs are the same, so does an error. -/
def Stays {ε α β : Type} (same : Prop) (related : α → β → Prop) (short : Except ε α)
    (long : Except ε β) : Prop :=
  match short with
  | .ok value => ∃ value', long = .ok value' ∧ related value value'
  | .error error => same → long = .error error

namespace Stays

variable {same : Prop} {ε α β γ δ : Type} {related : α → β → Prop}

theorem ok {value : α} {value' : β} (hrelated : related value value') :
    Stays same related (.ok value : Except ε α) (.ok value') :=
  ⟨value', rfl, hrelated⟩

theorem error (error : ε) : Stays same related (.error error) (.error error) :=
  fun _ => rfl

theorem refl (result : Except ε α) : Stays same Eq result result := by
  cases result with
  | ok value => exact ok rfl
  | error cause => exact error cause

theorem mono {related' : α → β → Prop} {short : Except ε α} {long : Except ε β}
    (hstays : Stays same related short long)
    (himplies : ∀ value value', related value value' → related' value value') :
    Stays same related' short long := by
  cases short with
  | ok value =>
      obtain ⟨value', hlong, hrelated⟩ := hstays
      exact ⟨value', hlong, himplies value value' hrelated⟩
  | error cause => exact hstays

/-- What is known of the value on the shorter side is known where the value is used. -/
theorem ending {property : α → Prop} {refusal : ε → Prop} {short : Except ε α} {long : Except ε β}
    (hstays : Stays same related short long) (hends : Ends property refusal short) :
    Stays same (fun value value' => property value ∧ related value value') short long := by
  cases short with
  | ok value =>
      obtain ⟨value', hlong, hrelated⟩ := hstays
      exact ⟨value', hlong, hends, hrelated⟩
  | error cause => exact hstays

theorem bind {related' : γ → δ → Prop} {short : Except ε α} {long : Except ε β}
    {next : α → Except ε γ} {next' : β → Except ε δ} (hfirst : Stays same related short long)
    (hnext : ∀ value value', related value value' →
      Stays same related' (next value) (next' value')) :
    Stays same related' (short >>= next) (long >>= next') := by
  cases short with
  | ok value =>
      obtain ⟨value', rfl, hrelated⟩ := hfirst
      exact hnext value value' hrelated
  | error cause =>
      intro hsame
      rw [hfirst hsame]
      rfl

/-- The same choice on both sides. -/
theorem ite {condition : Prop} [Decidable condition] {first second : Except ε α}
    {first' second' : Except ε β} (hfirst : Stays same related first first')
    (hsecond : Stays same related second second') :
    Stays same related (if condition then first else second)
      (if condition then first' else second') := by
  split
  · exact hfirst
  · exact hsecond

/-- A check that passes on the longer side whenever it does on the shorter one. -/
theorem check {bad bad' : Prop} [Decidable bad] [Decidable bad'] {cause cause' : ε}
    {next : Except ε α} {next' : Except ε β} (hpasses : bad' → bad)
    (hfails : same → bad → bad' ∧ cause' = cause)
    (hnext : ¬bad → Stays same related next next') :
    Stays same related (if bad then .error cause else next)
      (if bad' then .error cause' else next') := by
  by_cases hbad : bad
  · rw [if_pos hbad]
    intro hsame
    obtain ⟨hbad', hcause⟩ := hfails hsame hbad
    rw [if_pos hbad', hcause]
  · rw [if_neg hbad, if_neg fun hbad' => hbad (hpasses hbad')]
    exact hnext hbad

theorem map {related' : γ → δ → Prop} {short : Except ε α} {long : Except ε β} {form : α → γ}
    {form' : β → δ} (hstays : Stays same related short long)
    (hform : ∀ value value', related value value' → related' (form value) (form' value')) :
    Stays same related' (form <$> short) (form' <$> long) := by
  cases short with
  | ok value =>
      obtain ⟨value', rfl, hrelated⟩ := hstays
      exact ok (hform value value' hrelated)
  | error cause =>
      intro hsame
      rw [hstays hsame]
      rfl

/-- Going on with a value that is present. -/
theorem some_bind {related' : γ → δ → Prop} {short long : Except ε α}
    {next : Option α → Except ε γ} {next' : Option α → Except ε δ}
    (hfirst : Stays same Eq short long)
    (hnext : ∀ value?, Stays same related' (next value?) (next' value?)) :
    Stays same related' (some <$> short >>= next) (some <$> long >>= next') := by
  have hsome : Stays same Eq (some <$> short) (some <$> long) :=
    hfirst.map fun _ _ hvalue => congrArg some hvalue
  apply hsome.bind
  rintro value? _ rfl
  exact hnext value?

theorem mapError {form : ε → δ} {short : Except ε α} {long : Except ε β}
    (hstays : Stays same related short long) :
    Stays same related (short.mapError form) (long.mapError form) := by
  cases short with
  | ok value =>
      obtain ⟨value', rfl, hrelated⟩ := hstays
      exact ok hrelated
  | error cause =>
      intro hsame
      rw [hstays hsame]
      rfl

theorem mapM {related' : γ → δ → Prop} {items : List α} {items' : List β} {read : α → Except ε γ}
    {read' : β → Except ε δ} (hitems : List.Forall₂ related items items')
    (hread : ∀ item item', related item item' → Stays same related' (read item) (read' item')) :
    Stays same (List.Forall₂ related') (items.mapM read) (items'.mapM read') := by
  induction hitems with
  | nil => exact ok .nil
  | cons hitem _ ih =>
      rw [List.mapM_cons, List.mapM_cons]
      apply (hread _ _ hitem).bind
      intro value value' hvalue
      apply ih.bind
      intro values values' hvalues
      exact ok (.cons hvalue hvalues)

/-- Results that stay are equal when the inputs are the same. -/
theorem eq {short long : Except ε α} (hstays : Stays True Eq short long) : long = short := by
  cases short with
  | ok value =>
      obtain ⟨value', rfl, rfl⟩ := hstays
      rfl
  | error cause => exact hstays trivial

end Stays

/-! ## Windows -/

/-- The bytes of one window are the first of another, or all of them. -/
structure Window.Leads (same : Prop) (short long : Window) : Prop where
  isPrefix : short.toList <+: long.toList
  bytes : same → long.toList = short.toList

namespace Window.Leads

variable {same : Prop} {short long : Window} (hleads : Window.Leads same short long)
include hleads

theorem length_le : short.length ≤ long.length := by
  have hlength := hleads.isPrefix.length_le
  simpa using hlength

theorem length_eq (hsame : same) : long.length = short.length := by
  have hlength := congrArg List.length (hleads.bytes hsame)
  simpa using hlength

theorem slice_eq {index size : ℕ} (hinside : index + size ≤ short.length) :
    long.slice index size = short.slice index size := by
  obtain ⟨rest, hrest⟩ := hleads.isPrefix
  have hlength := short.length_toList
  rw [Window.slice_eq, Window.slice_eq, ← hrest, List.drop_append_of_le_length (by omega),
    List.take_append_of_le_length (by rw [List.length_drop]; omega)]

theorem cover_stays (index size : ℕ) :
    Stays same (fun _ _ => index + size ≤ short.length) (short.cover index size)
      (long.cover index size) := by
  have hle := hleads.length_le
  unfold cover
  by_cases hinside : index + size ≤ short.length
  · rw [if_pos hinside, if_pos (by omega)]
    exact .ok hinside
  · rw [if_neg hinside]
    intro hsame
    rw [hleads.length_eq hsame, if_neg hinside]

theorem bytesAt_stays (index size : ℕ) :
    Stays same Eq (short.bytesAt index size) (long.bytesAt index size) := by
  apply (hleads.cover_stays index size).bind
  intro _ _ hinside
  exact .ok (hleads.slice_eq hinside).symm

theorem load_stays (index width : ℕ) :
    Stays same Eq (short.load index width) (long.load index width) := by
  apply (hleads.cover_stays index width).bind
  intro _ _ hinside
  exact .ok (congrArg LittleEndian.combine (hleads.slice_eq hinside).symm)

theorem claim_stays (position : Number) (size : ℕ) :
    Stays same Eq (short.claim position size) (long.claim position size) := by
  have hle := hleads.length_le
  unfold claim
  cases position.toNat? with
  | some index =>
      dsimp only
      by_cases hinside : index + size ≤ short.length
      · rw [if_pos hinside, if_pos (by omega)]
        exact .ok rfl
      · rw [if_neg hinside]
        intro hsame
        rw [hleads.length_eq hsame, if_neg hinside]
  | none =>
      intro hsame
      rw [hleads.length_eq hsame]

theorem readWord_stays (width : ℕ) (position : Number) :
    Stays same Eq (short.readWord width position) (long.readWord width position) := by
  apply (hleads.claim_stays position width).bind
  rintro index _ rfl
  exact hleads.load_stays index width

theorem read_stays (scalar : Scalar) (position : Number) :
    Stays same Eq (short.read scalar position) (long.read scalar position) := by
  apply (hleads.readWord_stays scalar.width position).bind
  rintro word _ rfl
  exact .ok rfl

theorem indirect_stays (position : Number) :
    Stays same Eq (short.indirect position) (long.indirect position) := by
  have hle := hleads.length_le
  apply (hleads.claim_stays position 4).bind
  rintro index _ rfl
  apply (hleads.load_stays index 4).bind
  rintro distance _ rfl
  apply Stays.check
  · omega
  · intro hsame hpast
    rw [hleads.length_eq hsame]
    exact ⟨hpast, rfl⟩
  · intro _
    exact .ok rfl

theorem vtable_stays (table : Number) :
    Stays same Eq (short.vtable table) (long.vtable table) := by
  apply (hleads.claim_stays table 4).bind
  rintro index _ rfl
  apply (hleads.load_stays index 4).bind
  rintro word _ rfl
  apply (hleads.claim_stays _ 4).bind
  rintro start _ rfl
  apply (hleads.load_stays start 2).bind
  rintro size _ rfl
  apply Stays.ite (.error _)
  apply (hleads.claim_stays _ size).bind
  rintro _ _ rfl
  exact .ok rfl

theorem entry_stays (vtable : Vtable) (slot : Number) :
    Stays same Eq (short.entry vtable slot) (long.entry vtable slot) := by
  unfold entry
  cases slot.toNat? with
  | some index => exact .ite (.ok rfl) (hleads.load_stays _ 2)
  | none => exact .ite (.ok rfl) (hleads.readWord_stays 2 _)

theorem fieldOffset_stays (table slot width : Number) :
    Stays same Eq (short.fieldOffset table slot width) (long.fieldOffset table slot width) := by
  apply (hleads.vtable_stays table).bind
  rintro vtable _ rfl
  apply (hleads.entry_stays vtable slot).bind
  rintro offset _ rfl
  apply Stays.ite (.ok rfl)
  apply (hleads.load_stays _ 2).bind
  rintro tableSize _ rfl
  exact .ite (.error _) (.ok rfl)

/-- What exceeds the room in the longer window exceeds that in the shorter one. -/
theorem exceeds_of_exceeds {count start : ℕ} {stride : Number}
    (hexceeds : exceeds count stride (long.length - start) = true) :
    exceeds count stride (short.length - start) = true := by
  have hle := hleads.length_le
  unfold exceeds at hexceeds ⊢
  cases hstride : stride.toNat? with
  | some stride =>
      simp only [hstride, decide_eq_true_eq] at hexceeds ⊢
      omega
  | none =>
      simp only [hstride] at hexceeds ⊢
      exact Number.below_of_le (by omega) hexceeds

theorem vectorLength_stays (position stride : Number) :
    Stays same Eq (short.vectorLength position stride) (long.vectorLength position stride) := by
  apply (hleads.indirect_stays position).bind
  rintro start _ rfl
  apply (hleads.claim_stays _ 4).bind
  rintro index _ rfl
  apply (hleads.load_stays index 4).bind
  rintro count _ rfl
  apply Stays.check
  · exact hleads.exceeds_of_exceeds
  · intro hsame hexceeds
    rw [hleads.length_eq hsame]
    exact ⟨hexceeds, rfl⟩
  · intro _
    exact .ok rfl

theorem vector_stays (position : Number) :
    Stays same Eq (short.vector position) (long.vector position) := by
  apply (hleads.indirect_stays position).bind
  rintro start _ rfl
  exact .ok rfl

theorem stringBytes_stays (position : Number) :
    Stays same Eq (short.stringBytes position) (long.stringBytes position) := by
  apply (hleads.vectorLength_stays position 1).bind
  rintro count _ rfl
  apply (hleads.vector_stays position).bind
  rintro start _ rfl
  exact hleads.bytesAt_stays start count

theorem string_stays (position : Number) :
    Stays same Eq (short.string position) (long.string position) := by
  apply (hleads.stringBytes_stays position).bind
  rintro bytes _ rfl
  apply (hleads.vector_stays position).bind
  rintro start _ rfl
  exact .refl _

theorem rootTable_stays (sizePrefixed : Bool) :
    Stays same Eq (short.rootTable sizePrefixed) (long.rootTable sizePrefixed) :=
  hleads.indirect_stays _

/-- An identifier that the shorter window holds is that of the longer one. -/
theorem identifier?_eq {sizePrefixed : Bool} {identifier : String}
    (hidentifier : short.identifier? sizePrefixed = some identifier) :
    long.identifier? sizePrefixed = some identifier := by
  have hle := hleads.length_le
  dsimp only [identifier?] at hidentifier ⊢
  split at hidentifier
  · next hinside =>
      rw [if_pos (by omega), hleads.slice_eq hinside]
      exact hidentifier
  · cases hidentifier

theorem identifier?_eq_of_same (hsame : same) (sizePrefixed : Bool) :
    long.identifier? sizePrefixed = short.identifier? sizePrefixed := by
  dsimp only [identifier?]
  rw [Window.slice_eq, Window.slice_eq, hleads.bytes hsame, hleads.length_eq hsame]

/-- The first bytes of the windows. -/
theorem take (length : ℕ) : Window.Leads same (short.take length) (long.take length) := by
  refine ⟨?_, fun hsame => ?_⟩
  · rw [Window.toList_take, Window.toList_take]
    exact hleads.isPrefix.take length
  · rw [Window.toList_take, Window.toList_take, hleads.bytes hsame]

/-- A size prefix that is found declares the same number of bytes in both windows, and where the
shorter one has them all the two frames are the same bytes. -/
theorem frame_stays : Stays same (Window.Leads True) short.frame long.frame := by
  have hle := hleads.length_le
  apply ((hleads.claim_stays 0 Layout.sizePrefixWidth).ending (short.claim_yields 0 _)).bind
  rintro index _ ⟨⟨-, hhead⟩, rfl⟩
  apply (hleads.load_stays index Layout.sizePrefixWidth).bind
  rintro declared _ rfl
  apply Stays.check
  · omega
  · intro hsame hmissing
    rw [hleads.length_eq hsame]
    exact ⟨hmissing, rfl⟩
  · intro hpresent
    have htake := hleads.take (Layout.sizePrefixWidth + declared)
    have hwhole : (long.take (Layout.sizePrefixWidth + declared)).toList
        = (short.take (Layout.sizePrefixWidth + declared)).toList := by
      symm
      apply htake.isPrefix.eq_of_length
      simp only [Window.length_toList, Window.take]
      omega
    exact .ok ⟨htake.isPrefix, fun _ => hwhole⟩

end Window.Leads

/-! ## Tables -/

/-- Two tables at one position, in windows of which one leads the other. -/
structure Table.Leads (same : Prop) (short long : Table) : Prop where
  window : Window.Leads same short.window long.window
  position : long.position = short.position

namespace Table.Leads

variable {same : Prop} {short long : Table} (hleads : Table.Leads same short long)
include hleads

/-- Tables elsewhere in the same windows. -/
theorem elsewhere (position : Number) :
    Table.Leads same ⟨short.window, position⟩ ⟨long.window, position⟩ :=
  ⟨hleads.window, rfl⟩

theorem fieldOffset_stays (slot width : Number) :
    Stays same Eq (short.window.fieldOffset short.position slot width)
      (long.window.fieldOffset long.position slot width) := by
  rw [hleads.position]
  exact hleads.window.fieldOffset_stays short.position slot width

theorem hasField_stays (slot : Number) :
    Stays same Eq (short.hasField slot) (long.hasField slot) := by
  apply (hleads.fieldOffset_stays slot 1).bind
  rintro offset _ rfl
  exact .ok rfl

theorem fieldPosition?_stays (slot width : Number) :
    Stays same Eq (short.fieldPosition? slot width) (long.fieldPosition? slot width) := by
  apply (hleads.fieldOffset_stays slot width).bind
  rintro offset _ rfl
  apply Stays.ite (.ok rfl)
  rw [hleads.position]
  exact .ok rfl

theorem scalar_stays (type : Scalar) (slot : Number) (default : type.Value) :
    Stays same Eq (short.scalar type slot default) (long.scalar type slot default) := by
  apply (hleads.fieldPosition?_stays slot type.width).bind
  rintro position? _ rfl
  cases position? with
  | none => exact .ok rfl
  | some position => exact hleads.window.read_stays type position

theorem string?_stays (slot : Number) :
    Stays same Eq (short.string? slot) (long.string? slot) := by
  apply (hleads.fieldPosition?_stays slot 4).bind
  rintro position? _ rfl
  cases position? with
  | none => exact .ok rfl
  | some position =>
      exact (hleads.window.string_stays position).map fun _ _ htext => congrArg some htext

theorem table?_stays (slot : Number) :
    Stays same (Option.Rel (Table.Leads same)) (short.table? slot) (long.table? slot) := by
  apply (hleads.fieldPosition?_stays slot 4).bind
  rintro position? _ rfl
  cases position? with
  | none => exact .ok .none
  | some position =>
      apply (hleads.window.indirect_stays position).bind
      rintro target _ rfl
      exact .ok (.some (hleads.elsewhere target))

/-! ### Vectors -/

theorem vectorLength_stays (slot stride : Number) :
    Stays same Eq (short.vectorLength slot stride) (long.vectorLength slot stride) := by
  apply (hleads.fieldPosition?_stays slot 4).bind
  rintro position? _ rfl
  cases position? with
  | none => exact .ok rfl
  | some position => exact hleads.window.vectorLength_stays position stride

theorem elementPosition_stays (slot index stride : Number) :
    Stays same Eq (short.elementPosition slot index stride)
      (long.elementPosition slot index stride) := by
  apply (hleads.fieldPosition?_stays slot 4).mapError.bind
  rintro position? _ rfl
  cases position? with
  | none => exact .error _
  | some position =>
      apply (hleads.window.vectorLength_stays position stride).mapError.bind
      rintro length _ rfl
      cases elementIndex? index length with
      | none => exact .error _
      | some element =>
          apply (hleads.window.vector_stays position).mapError.bind
          rintro start _ rfl
          exact .refl _

theorem element_stays (type : Scalar) (slot index : Number) :
    Stays same Eq (short.element type slot index) (long.element type slot index) := by
  apply (hleads.elementPosition_stays slot index type.width).bind
  rintro position _ rfl
  exact (hleads.window.read_stays type position).mapError

theorem tableElement_stays (slot index : Number) :
    Stays same (Table.Leads same) (short.tableElement slot index)
      (long.tableElement slot index) := by
  apply (hleads.elementPosition_stays slot index 4).bind
  rintro position _ rfl
  apply (hleads.window.indirect_stays position).mapError.bind
  rintro target _ rfl
  exact .ok (hleads.elsewhere target)

theorem elements_stays {α β : Type} {related : α → β → Prop} {read : ℕ → Except Malformed α}
    {read' : ℕ → Except Malformed β} (slot : Number)
    (hread : ∀ position, Stays same related (read position) (read' position)) :
    Stays same (Option.Rel (List.Forall₂ related)) (short.elements slot read)
      (long.elements slot read') := by
  apply (hleads.fieldPosition?_stays slot 4).bind
  rintro position? _ rfl
  cases position? with
  | none => exact .ok .none
  | some position =>
      apply (hleads.window.vectorLength_stays position 4).bind
      rintro length _ rfl
      apply (hleads.window.vector_stays position).bind
      rintro start _ rfl
      apply (hleads.window.cover_stays _ _).bind
      intro _ _ _
      have hindices : List.Forall₂ Eq (List.range length) (List.range length) :=
        List.forall₂_eq_eq_eq.symm ▸ rfl
      refine Stays.map (Stays.mapM hindices ?_) fun _ _ hvalues => .some hvalues
      rintro index _ rfl
      exact hread _

theorem scalars_stays (type : Scalar) (slot : Number) :
    Stays same Eq (short.scalars type slot) (long.scalars type slot) := by
  apply (hleads.elements_stays slot fun position => hleads.window.read_stays type position).mono
  rintro _ _ (hvalues | _)
  · rw [List.forall₂_eq_eq_eq] at hvalues
    rw [hvalues]
  · rfl

theorem scalarView_stays {type : Scalar} (hwidth : type.width = 4) (slot : Number) :
    Stays same Eq (short.scalarView type slot) (long.scalarView type slot) := by
  rw [short.scalarView_eq_scalars hwidth, long.scalarView_eq_scalars hwidth]
  exact hleads.scalars_stays type slot

theorem tables_stays (slot : Number) :
    Stays same (Option.Rel (List.Forall₂ (Table.Leads same))) (short.tables slot)
      (long.tables slot) := by
  apply hleads.elements_stays slot
  intro position
  apply (hleads.window.indirect_stays position).bind
  rintro target _ rfl
  exact .ok (hleads.elsewhere target)

/-! ### Unions -/

theorem unionTag_stays (slot : Number) :
    Stays same Eq (short.unionTag slot) (long.unionTag slot) := by
  apply (hleads.fieldPosition?_stays slot 1).bind
  rintro position? _ rfl
  cases position? with
  | none => exact .ok rfl
  | some position => exact hleads.window.readWord_stays 1 position

theorem unionPayload_stays (slot : Number) (tag : ℕ) :
    Stays same Eq (short.unionPayload slot tag) (long.unionPayload slot tag) := by
  apply (hleads.fieldPosition?_stays _ 4).bind
  rintro position? _ rfl
  cases position? with
  | none =>
      apply Stays.ite (.ok rfl)
      rw [hleads.position]
      exact .error _
  | some position =>
      rw [hleads.position]
      apply Stays.ite (.error _)
      apply (hleads.window.indirect_stays position).bind
      rintro target _ rfl
      exact .ok rfl

theorem union?_stays (slot : Number) : Stays same Eq (short.union? slot) (long.union? slot) := by
  apply (hleads.unionTag_stays slot).bind
  rintro tag _ rfl
  exact hleads.unionPayload_stays slot tag

end Table.Leads

end GraphWire

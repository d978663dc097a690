import GraphWire.Proofs.Builder.Progress

/-!
# What a builder refuses

A finished buffer takes nothing more: every operation that could write is refused before it changes
anything (`Build.Sealed`), and what has nothing to write changes nothing either (`Build.Inert`).  An
argument that can never be meant is refused by those operations alone that look at it before they
begin, so the builder is as it was (`Build.Restores`).  Whatever else is refused while a table is
open, the table stays open with the values that it has (`Builder.HoldsOpen`).
-/

namespace GraphWire

namespace Build

variable {α β : Type}

theorem of_bind_error {first : Build α} {next : α → Build β} {error : BuildError}
    {before after : Builder} (hresult : (first >>= next) before = .error error after) :
    first before = .error error after ∨
      ∃ value middle, first before = .ok value middle ∧ next value middle = .error error after := by
  cases hfirst : first before with
  | ok value middle =>
      rw [bind_of_ok hfirst] at hresult
      exact .inr ⟨value, middle, rfl, hresult⟩
  | error error' middle =>
      rw [bind_of_error hfirst] at hresult
      cases hresult
      exact .inl rfl

/-! ## Finished buffers -/

/-- An operation that a finished buffer refuses, and that leaves it as it is. -/
def Sealed (computation : Build α) : Prop :=
  ∀ ⦃builder : Builder⦄, builder.phase = .finished →
    ∃ error, computation builder = .error error builder ∧ error.IsMisuse

/-- An operation that leaves a finished buffer as it is, refused or not. -/
def Inert (computation : Build α) : Prop :=
  ∀ ⦃builder : Builder⦄, builder.phase = .finished →
    (∃ value, computation builder = .ok value builder) ∨
      ∃ error, computation builder = .error error builder ∧ error.IsMisuse

namespace Sealed

theorem inert {computation : Build α} (hsealed : Sealed computation) : Inert computation :=
  fun _ hfinished => .inr (hsealed hfinished)

theorem throw {error : BuildError} (herror : error.IsMisuse) :
    Sealed (MonadExcept.throw error : Build α) :=
  fun _ _ => ⟨error, rfl, herror⟩

/-- Nothing comes after a refusal. -/
theorem bind {first : Build α} (hfirst : Sealed first) (next : α → Build β) :
    Sealed (first >>= next) := by
  intro builder hfinished
  obtain ⟨error, herror, hmisuse⟩ := hfirst hfinished
  exact ⟨error, bind_of_error herror, hmisuse⟩

/-- Looking at the builder. -/
theorem look {next : Builder → Build α}
    (hnext : ∀ builder : Builder, builder.phase = .finished → Sealed (next builder)) :
    Sealed (MonadState.get >>= next) :=
  fun builder hfinished => hnext builder hfinished hfinished

end Sealed

theorem requireWritable_sealed : Sealed requireWritable := by
  apply Sealed.look
  intro builder hfinished
  rw [if_pos hfinished]
  exact .throw trivial

theorem prepare_sealed (alignment additional : Number) : Sealed (prepare alignment additional) := by
  have hwords : Sealed (reserveWords alignment additional) := requireWritable_sealed.bind _
  unfold prepare
  split
  · split
    · exact requireWritable_sealed.bind _
    · exact hwords
  · exact hwords

theorem write_sealed (type : Scalar) (value : type.Value) : Sealed (write type value) := by
  unfold write
  cases type.word value with
  | ok word =>
      have hreserve : Sealed (reserve type.width 0) := requireWritable_sealed.bind _
      exact hreserve.bind _
  | error refused => exact .throw trivial

theorem writeOffset_sealed (target : Number) : Sealed (writeOffset target) := by
  have hreserve : Sealed (reserve Layout.offsetWidth 0) := requireWritable_sealed.bind _
  exact hreserve.bind _

theorem addField_sealed (slot : Number) (field : Field) : Sealed (addField slot field) := by
  have htake : Sealed (takeSlot slot) := by
    apply Sealed.look
    intro builder hfinished
    rw [hfinished]
    exact .throw trivial
  exact htake.bind _

theorem startTable_sealed (fieldCount : Number) : Sealed (startTable fieldCount) :=
  requireWritable_sealed.bind _

theorem endTable_sealed : Sealed endTable := by
  apply Sealed.look
  intro builder hfinished
  rw [hfinished]
  exact .throw trivial

theorem startVector_sealed (elementSize count alignment : Number) :
    Sealed (startVector elementSize count alignment) :=
  requireWritable_sealed.bind _

theorem endVector_sealed : Sealed endVector := by
  apply Sealed.look
  intro builder hfinished
  rw [hfinished]
  exact .throw trivial

theorem vectorOf_sealed (width count : ℕ) (elements : Build Unit) :
    Sealed (vectorOf width count elements) :=
  requireWritable_sealed.bind _

theorem stringBytes_sealed (bytes : List UInt8) : Sealed (stringBytes bytes) :=
  requireWritable_sealed.bind _

theorem finish_sealed (root : Number) (options : FinishOptions) : Sealed (finish root options) :=
  requireWritable_sealed.bind _

theorem table_sealed (fields : List Field) : Sealed (table fields) :=
  (startTable_sealed _).bind _

theorem Inert.step {first : Build α} {next : α → Build β} (hfirst : Inert first)
    (hnext : ∀ ⦃before value after⦄, first before = .ok value after → Inert (next value)) :
    Inert (first >>= next) := by
  intro builder hfinished
  rcases hfirst hfinished with ⟨value, hvalue⟩ | ⟨error, herror, hmisuse⟩
  · rw [bind_of_ok hvalue]
    exact hnext hvalue hfinished
  · exact .inr ⟨error, bind_of_error herror, hmisuse⟩

/-- What leaves a finished buffer as it is at each step does so altogether. -/
theorem inert_sequences : Sequences @Inert where
  pure := fun value _ _ => .inl ⟨value, rfl⟩
  throw := fun herror => (Sealed.throw herror).inert
  step := Inert.step
  look := fun _ hnext builder hfinished => hnext builder hfinished

/-- Every writer of a part of a model leaves a finished buffer as it is. -/
theorem inert_composes : Composes @Inert :=
  inert_sequences.composes (fun fields _ => (table_sealed fields).inert)
    (fun _ _ => (vectorOf_sealed _ _ _).inert) (fun _ => (vectorOf_sealed _ _ _).inert)
    fun bytes => (stringBytes_sealed bytes).inert

/-! ## Arguments that are never meant -/

/-- An operation that has no argument to refuse. -/
def Meant (computation : Build α) : Prop :=
  ∀ ⦃before cause after⦄, computation before ≠ .error (.argument cause) after

/-- An operation that leaves the builder as it was when it refuses an argument. -/
def Restores (computation : Build α) : Prop :=
  ∀ ⦃before cause after⦄, computation before = .error (.argument cause) after → after = before

theorem Meant.restores {computation : Build α} (hmeant : Meant computation) :
    Restores computation :=
  fun _ _ _ hresult => (hmeant hresult).elim

theorem Meant.change (change : Builder → Builder) : Meant (modify change) :=
  fun _ _ _ => nofun

namespace Restores

/-- Nothing that comes later refuses an argument. -/
theorem bind {first : Build α} {next : α → Build β} (hfirst : Restores first)
    (hnext : ∀ value, Meant (next value)) : Restores (first >>= next) := by
  intro before cause after hresult
  rcases of_bind_error hresult with herror | ⟨value, middle, -, herror⟩
  · exact hfirst herror
  · exact (hnext value herror).elim

/-- Nothing that came earlier has changed the builder. -/
theorem after {first : Build α} {next : α → Build β} (hfirst : Meant first)
    (hsame : ∀ ⦃before value after⦄, first before = .ok value after → after = before)
    (hnext : ∀ value, Restores (next value)) : Restores (first >>= next) := by
  intro before cause after hresult
  rcases of_bind_error hresult with herror | ⟨value, middle, hmiddle, herror⟩
  · exact (hfirst herror).elim
  · obtain rfl := hsame hmiddle
    exact hnext value herror

theorem throw (error : BuildError) : Restores (MonadExcept.throw error : Build α) := by
  rintro before cause _ ⟨⟩
  rfl

theorem ite {condition : Prop} [Decidable condition] {first second : Build α}
    (hfirst : Restores first) (hsecond : Restores second) :
    Restores (if condition then first else second) := by
  split
  · exact hfirst
  · exact hsecond

theorem look {next : Builder → Build α} (hnext : ∀ builder, Restores (next builder)) :
    Restores (MonadState.get >>= next) :=
  fun before _ _ hresult => hnext before hresult

end Restores

/-! ### Operations that have nothing to refuse -/

theorem Meant.throw {error : BuildError} (herror : error.IsMisuse) :
    Meant (MonadExcept.throw error : Build α) := by
  rintro before cause _ ⟨⟩
  exact herror

theorem Meant.step {first : Build α} {next : α → Build β} (hfirst : Meant first)
    (hnext : ∀ ⦃before value after⦄, first before = .ok value after → Meant (next value)) :
    Meant (first >>= next) := by
  intro before cause after hresult
  rcases of_bind_error hresult with herror | ⟨value, middle, hmiddle, herror⟩
  · exact hfirst herror
  · exact hnext hmiddle herror

theorem ensureCapacity_meant (required : ℕ) : Meant (ensureCapacity required) := by
  intro before cause after hresult
  rw [ensureCapacity_eq] at hresult
  split at hresult
  · cases hresult
  · cases hresult

/-- Whatever is made of the steps of a builder has no argument to refuse, unless it looks at its
arguments first. -/
theorem meant_operates : Operates @Meant where
  pure := fun _ _ _ _ => nofun
  throw := Meant.throw
  step := Meant.step
  look := fun _ hnext before _ _ hresult => hnext before hresult
  ensureCapacity := ensureCapacity_meant
  push := fun _ => .change _
  noteAlignment := fun _ => .change _
  close := .change _
  enclose := fun _ _ => .change _
  tabulates := fun _ _ => .change _

theorem endTable_meant : Meant endTable := by
  apply meant_operates.endTable
  intro body table vtableSize before cause after hresult
  obtain ⟨linked, hlinked, -⟩ := linkBody_relinks body table vtableSize before
  rw [hlinked] at hresult
  cases hresult

/-- A whole table has as many slots as it has fields. -/
theorem table_meant {fields : List Field} (hfew : fields.length < slotLimit) :
    Meant (table fields) := by
  have hstart : Meant (startTable (fields.length : Number)) := by
    apply meant_operates.begins
    rw [Number.toNat?_natCast]
    dsimp only
    rw [if_neg (Nat.not_le.mpr hfew)]
    exact .change _
  exact meant_operates.table hstart meant_operates.addField endTable_meant

/-- No writer of a part of a model has an argument to refuse. -/
theorem meant_composes : Composes @Meant :=
  meant_operates.composes fun _ => table_meant

/-! ### Operations that look at their arguments first -/

/-- Putting a result into another form refuses nothing. -/
theorem Restores.map {computation : Build α} (hcomputation : Restores computation) (form : α → β) :
    Restores (computation >>= fun value => Pure.pure (form value)) :=
  hcomputation.bind fun value => meant_operates.pure (form value)

theorem eq_of_requireIdle {what : Opening} {before after : Builder} {value : Unit}
    (hresult : requireIdle what before = .ok value after) : after = before := by
  unfold requireIdle at hresult
  rw [get_bind_apply] at hresult
  cases hphase : before.phase with
  | table opened => simp only [hphase] at hresult; cases hresult
  | vector opened => simp only [hphase] at hresult; cases hresult
  | idle => simp only [hphase] at hresult; cases hresult; rfl
  | finished => simp only [hphase] at hresult; cases hresult; rfl

/-- What begins an object refuses an argument before anything else. -/
theorem begin_restores {what : Opening} {next : Build α} (hnext : Restores next) :
    Restores (do requireWritable; requireIdle what; next) :=
  .after meant_operates.requireWritable (fun _ _ _ hresult => (of_requireWritable hresult).2) fun _ =>
    .after (meant_operates.requireIdle what) (fun _ _ _ => eq_of_requireIdle) fun _ => hnext

theorem startTable_restores (fieldCount : Number) : Restores (startTable fieldCount) := by
  apply begin_restores
  cases fieldCount.toNat? with
  | none => exact .throw _
  | some count =>
      exact .ite ((Restores.throw _).bind fun _ => .change _) (Meant.change _).restores

theorem startVector_restores (elementSize count alignment : Number) :
    Restores (startVector elementSize count alignment) := by
  apply begin_restores
  have hopen := meant_operates.openVector count (elementSize * count) alignment
  exact .ite ((Restores.throw _).bind fun _ => hopen) hopen.restores

theorem finish_restores (root : Number) (options : FinishOptions) :
    Restores (finish root options) := by
  have hbegin : Restores (beginHead options) := by
    apply Restores.look
    intro builder
    cases options.identifier with
    | none => exact (meant_operates.prepare _ _).restores
    | some identifier =>
        dsimp only
        split
        · exact .throw _
        · apply Meant.restores
          apply meant_operates.bind (meant_operates.prepare _ _)
          exact fun _ => meant_operates.push _
  have hmark : Meant (markFinished options.identifier) := .change _
  have hsize : Meant writeSize :=
    meant_operates.look (fun _ _ _ => rfl) fun _ => meant_operates.write _ _
  apply begin_restores
  apply hbegin.bind
  intro _
  apply meant_operates.bind (meant_operates.writeOffset root)
  intro _
  exact meant_operates.optional hsize hmark

end Build

/-! ## Errors while a table is open -/

/-- A builder whose open table, if there was one, is still open, with the same values: slots of it
may have been passed over. -/
def Builder.HoldsOpen (before after : Builder) : Prop :=
  ∀ opened, before.phase = .table opened →
    ∃ limit ≤ opened.limit, after.phase = .table { opened with limit }

instance : IsPreorder Builder Builder.HoldsOpen where
  refl _ opened hopened := ⟨opened.limit, le_refl _, hopened⟩
  trans := by
    intro _ _ _ hfirst hsecond opened hopened
    obtain ⟨limit, hlimit, hmiddle⟩ := hfirst opened hopened
    obtain ⟨limit', hlimit', hlast⟩ := hsecond _ hmiddle
    exact ⟨limit', hlimit'.trans hlimit, hlast⟩

theorem Builder.Continues.holdsOpen {before after : Builder} (hcontinues : before.Continues after) :
    before.HoldsOpen after :=
  fun opened hopened => ⟨opened.limit, le_refl _, hcontinues.phase.trans hopened⟩

namespace Build

variable {α β : Type} {related : Builder → Builder → Prop}

/-- A computation that leaves every builder in some relation to what it was when it fails. -/
def Fails (related : Builder → Builder → Prop) (computation : Build α) : Prop :=
  ∀ ⦃before error after⦄, computation before = .error error after → related before after

theorem Leads.fails {computation : Build α} (hleads : Leads related computation) :
    Fails related computation :=
  fun _ _ _ => hleads.error

theorem Leads.holdsOpen {computation : Build α} (hleads : Leads Builder.Continues computation) :
    Leads Builder.HoldsOpen computation :=
  hleads.imp fun _ _ => Builder.Continues.holdsOpen

namespace Fails

theorem pure (value : α) : Fails related (Pure.pure value : Build α) :=
  fun _ _ _ => nofun

theorem put (builder : Builder) : Fails related (MonadStateOf.set builder : Build PUnit) :=
  fun _ _ _ => nofun

theorem change (change : Builder → Builder) : Fails related (modify change : Build PUnit) :=
  fun _ _ _ => nofun

theorem look {next : Builder → Build α} (hnext : ∀ builder, Fails related (next builder)) :
    Fails related (MonadState.get >>= next) :=
  fun before _ _ hresult => hnext before hresult

theorem ite {condition : Prop} [Decidable condition] {first second : Build α}
    (hfirst : Fails related first) (hsecond : Fails related second) :
    Fails related (if condition then first else second) := by
  split
  · exact hfirst
  · exact hsecond

theorem imp {related' : Builder → Builder → Prop} {computation : Build α}
    (hfails : Fails related computation)
    (himp : ∀ before after, related before after → related' before after) :
    Fails related' computation :=
  fun _ _ _ hresult => himp _ _ (hfails hresult)

/-- Nothing fails after a computation whose result is only put into another form. -/
theorem map {computation : Build α} (hcomputation : Fails related computation) (form : α → β) :
    Fails related (computation >>= fun value => Pure.pure (form value)) := by
  intro before error after hresult
  rcases of_bind_error hresult with herror | ⟨value, middle, -, herror⟩
  · exact hcomputation herror
  · cases herror

variable [IsPreorder Builder related]

theorem throw (error : BuildError) : Fails related (MonadExcept.throw error : Build α) :=
  (Leads.throw error).fails

theorem bind {first : Build α} {next : α → Build β} (hfirst : Leads related first)
    (hnext : ∀ value, Fails related (next value)) : Fails related (first >>= next) := by
  intro before error after hresult
  rcases of_bind_error hresult with herror | ⟨value, middle, hmiddle, herror⟩
  · exact hfirst.error herror
  · exact trans_of related (hfirst.ok hmiddle) (hnext value herror)

end Fails

/-- What begins an object is refused while a table is open. -/
theorem begin_refused {what : Opening} (next : Build α) {builder : Builder} {opened : OpenTable}
    (hopened : builder.phase = .table opened) :
    (do requireWritable; requireIdle what; next) builder
      = .error (.insideTable what) builder := by
  have hwritable : requireWritable builder = .ok () builder := by
    simp only [requireWritable, get_bind_apply, hopened, reduceCtorEq, if_false]
    rfl
  have hidle : requireIdle what builder = .error (.insideTable what) builder := by
    simp only [requireIdle, get_bind_apply, hopened]
    rfl
  rw [bind_of_ok hwritable, bind_of_error hidle]

theorem begin_holdsOpen {what : Opening} (next : Build α) :
    Leads Builder.HoldsOpen (do requireWritable; requireIdle what; next) := by
  intro before opened hopened
  rw [leaves_of_error (begin_refused next hopened)]
  exact ⟨opened.limit, le_refl _, hopened⟩

theorem table_holdsOpen (fields : List Field) : Leads Builder.HoldsOpen (table fields) := by
  intro before opened hopened
  have hstart : startTable fields.length before = .error (.insideTable .table) before :=
    begin_refused _ hopened
  have htable : table fields before = .error (.insideTable .table) before := bind_of_error hstart
  rw [leaves_of_error htable]
  exact ⟨opened.limit, le_refl _, hopened⟩

/-- Every writer of a part of a model is refused while a table is open. -/
theorem holdsOpen_composes : Composes (Leads Builder.HoldsOpen) :=
  Leads.sequences.composes (fun fields _ => table_holdsOpen fields) (fun _ _ => begin_holdsOpen _)
    (fun _ => begin_holdsOpen _) (fun _ => begin_holdsOpen _)

theorem takeSlot_holdsOpen (slot : Number) : Leads Builder.HoldsOpen (takeSlot slot) := by
  intro before
  rcases takeSlot_cases slot before with
    ⟨error, herror, -⟩ | ⟨opened, index, hphase, -, hindex, htaken⟩
  · rw [leaves_of_error herror]
    exact refl_of Builder.HoldsOpen before
  · rw [leaves_of_ok htaken]
    intro other hother
    cases hphase.symm.trans hother
    exact ⟨index, Nat.le_of_lt hindex, rfl⟩

/-- A field that is refused has no value noted, though its slot may be taken. -/
theorem addField_fails (slot : Number) (field : Field) :
    Fails Builder.HoldsOpen (addField slot field) := by
  have hnote (index : ℕ) : Fails Builder.HoldsOpen (noteEntry index) := by
    apply Fails.look
    intro builder
    cases builder.phase with
    | table opened => exact .put _
    | idle | vector _ | finished => exact .pure _
  rw [addField_eq]
  apply Fails.bind (takeSlot_holdsOpen slot)
  intro index
  apply Fails.look
  intro builder
  have hwrite := (continues_prepends.field field).holdsOpen
  exact .ite (.bind hwrite fun _ => hnote index) (.pure ())

/-- Closing a table fails while it makes room or writes, never once it links the table. -/
theorem endTable_fails [IsPreorder Builder related] (hlaw : Prepends (Leads related)) :
    Fails related endTable := by
  have hlink (body : Region) (table vtableSize : ℕ) (entries : List ℕ) :
      Fails related (do
        writeAll (fun entry : ℕ => write .uint16 (entry : Number)) entries
        linkBody body table vtableSize
        return table) := by
    apply Fails.bind (hlaw.writeAll (fun entry : ℕ => hlaw.write .uint16 (entry : Number)) entries)
    intro _
    apply Fails.map
    apply Fails.look
    intro builder
    dsimp only
    split
    · exact .put _
    · exact .put _
  rw [endTable_eq]
  apply Fails.look
  intro builder
  cases builder.phase with
  | idle | vector _ | finished => exact .throw _
  | table opened =>
      apply Fails.bind (hlaw.reserve _ _)
      intro _
      apply Fails.look
      intro padded
      apply Fails.bind (hlaw.push _)
      intro _
      exact .ite (.bind (.throw _) fun _ => hlink _ _ _ _) (hlink _ _ _ _)

/-- A table that is too large is not closed. -/
theorem endTable_holdsOpen : Fails Builder.HoldsOpen endTable :=
  (endTable_fails continues_prepends).imp fun _ _ => Builder.Continues.holdsOpen

theorem endVector_fails : Fails Builder.HoldsOpen endVector := by
  intro before error after hresult opened hopened
  simp only [endVector, get_bind_apply, hopened] at hresult
  cases hresult
  exact ⟨opened.limit, le_refl _, hopened⟩

end Build

end GraphWire

import GraphWire.Proofs.Builder.Finish
import GraphWire.Proofs.Builder.Frame
import GraphWire.Proofs.Builder.OpenTable
import GraphWire.Proofs.Builder.OpenVector

/-!
# The alignments of a buffer

A builder remembers the largest alignment that it was asked for.  Of powers of two each divides the
largest, so a buffer whose size is a multiple of that is aligned for everything in it.  This file
says of every operation which alignments it asks for.
-/

namespace GraphWire

/-! ## Alignments and the largest of them -/

/-- A power of two that may be an alignment. -/
def IsAlignment (width : ℕ) : Prop :=
  ∃ exponent ≤ 31, width = 2 ^ exponent

/-- The largest of some alignments, which is one if there are none. -/
def largestAlignment (widths : List ℕ) : ℕ :=
  widths.foldr max 1

theorem IsWidth.isAlignment {width : ℕ} (hwidth : IsWidth width) : IsAlignment width := by
  obtain ⟨exponent, hexponent, hpower⟩ := hwidth
  exact ⟨exponent, hexponent.trans (by decide), hpower⟩

theorem IsAlignment.dvd_of_le {width width' : ℕ} (hwidth : IsAlignment width)
    (hwidth' : IsAlignment width') (hle : width ≤ width') : width ∣ width' := by
  obtain ⟨exponent, -, rfl⟩ := hwidth
  obtain ⟨exponent', -, rfl⟩ := hwidth'
  exact Nat.pow_dvd_pow 2 ((Nat.pow_le_pow_iff_right (by decide)).mp hle)

@[simp]
theorem largestAlignment_cons (width : ℕ) (widths : List ℕ) :
    largestAlignment (width :: widths) = max width (largestAlignment widths) :=
  rfl

theorem largestAlignment_le_iff {widths : List ℕ} {bound : ℕ} :
    largestAlignment widths ≤ bound ↔ 1 ≤ bound ∧ ∀ width ∈ widths, width ≤ bound := by
  induction widths with
  | nil => simp [largestAlignment]
  | cons width widths ih =>
      rw [largestAlignment_cons, Nat.max_le, ih, List.forall_mem_cons]
      tauto

/-- Neither the order of the alignments matters nor how often each was asked for. -/
theorem largestAlignment_congr {widths widths' : List ℕ}
    (hsame : ∀ width, width ∈ widths ↔ width ∈ widths') :
    largestAlignment widths = largestAlignment widths' := by
  apply eq_of_forall_ge_iff
  intro bound
  simp only [largestAlignment_le_iff, hsame]

theorem isAlignment_largest {widths : List ℕ} (hwidths : ∀ width ∈ widths, IsAlignment width) :
    IsAlignment (largestAlignment widths) := by
  induction widths with
  | nil => exact ⟨0, Nat.zero_le _, rfl⟩
  | cons width widths ih =>
      rw [List.forall_mem_cons] at hwidths
      rw [largestAlignment_cons]
      rcases Nat.le_total width (largestAlignment widths) with hle | hle
      · rw [Nat.max_eq_right hle]
        exact ih hwidths.2
      · rw [Nat.max_eq_left hle]
        exact hwidths.1

theorem dvd_largestAlignment {widths : List ℕ} (hwidths : ∀ width ∈ widths, IsAlignment width)
    {width : ℕ} (hwidth : width ∈ widths) : width ∣ largestAlignment widths :=
  (hwidths width hwidth).dvd_of_le (isAlignment_largest hwidths)
    ((largestAlignment_le_iff.mp (le_refl _)).2 width hwidth)

/-- A builder that was asked for some alignments and remembers the largest of them. -/
structure Builder.Notes (builder : Builder) (widths : List ℕ) : Prop where
  alignment : builder.alignment = (largestAlignment widths : ℕ)
  powers : ∀ width ∈ widths, IsAlignment width

namespace Builder.Notes

variable {before after : Builder} {widths : List ℕ}

theorem new (settings : BuilderSettings) : (Builder.new settings).Notes [] :=
  ⟨rfl, nofun⟩

theorem same (hnotes : before.Notes widths) {widths' : List ℕ}
    (hsame : ∀ width, width ∈ widths' ↔ width ∈ widths) : before.Notes widths' where
  alignment := by rw [hnotes.alignment, largestAlignment_congr hsame]
  powers := fun width hwidth => hnotes.powers width ((hsame width).mp hwidth)

/-- Nothing but the remembered alignment matters. -/
theorem congr (hnotes : before.Notes widths) (hsame : after.alignment = before.alignment) :
    after.Notes widths :=
  ⟨hsame.trans hnotes.alignment, hnotes.powers⟩

theorem note (hnotes : before.Notes widths) {width : ℕ} (hwidth : IsAlignment width)
    (halignment : after.alignment = max before.alignment (width : Number)) :
    after.Notes (width :: widths) where
  alignment := by
    rw [halignment, hnotes.alignment, Number.max_natCast, largestAlignment_cons, Nat.max_comm]
  powers := List.forall_mem_cons.mpr ⟨hwidth, hnotes.powers⟩

theorem modest (hnotes : before.Notes widths) {least : ℕ} (hleast : 2 ^ least ∈ widths) :
    before.Modest least 31 := by
  obtain ⟨exponent, hexponent, hlargest⟩ := isAlignment_largest hnotes.powers
  have hdivides := dvd_largestAlignment hnotes.powers hleast
  rw [hlargest] at hdivides
  refine ⟨exponent, (Nat.pow_dvd_pow_iff_le_right (by decide)).mp hdivides, hexponent, ?_⟩
  rw [hnotes.alignment, hlargest]

/-- A finished buffer is a multiple of the largest alignment. -/
theorem dvd_finishedSize (hnotes : before.Notes widths) (options : FinishOptions) :
    largestAlignment widths ∣ before.finishedSize options := by
  obtain ⟨exponent, hexponent, hlargest⟩ := isAlignment_largest hnotes.powers
  have halignment := hnotes.alignment
  rw [hlargest] at halignment ⊢
  exact Build.dvd_finishedSize ⟨exponent, le_refl _, hexponent, halignment⟩ options

end Builder.Notes

/-! ## Operations -/

namespace Build

/-- An operation that asks for some alignments whenever it succeeds. -/
def Asks {α : Type} (widths : List ℕ) (computation : Build α) : Prop :=
  ∀ ⦃before value after noted⦄, computation before = .ok value after → before.Notes noted →
    after.Notes (widths ++ noted)

variable {α β : Type} {widths earlier later : List ℕ}

namespace Asks

theorem pure (value : α) : Asks [] (Pure.pure value) := by
  rintro before _ _ noted ⟨⟩ hnotes
  exact hnotes

theorem throw (error : BuildError) : Asks widths (MonadExcept.throw error : Build α) := by
  rintro before _ _ noted ⟨⟩

/-- Nothing comes after an error. -/
theorem throw_bind (error : BuildError) (next : α → Build β) :
    Asks widths ((MonadExcept.throw error : Build α) >>= next) := by
  rintro before _ _ noted ⟨⟩

theorem bind {first : Build α} {next : α → Build β} (hfirst : Asks earlier first)
    (hnext : ∀ value, Asks later (next value)) : Asks (earlier ++ later) (first >>= next) := by
  intro before value after noted hresult hnotes
  obtain ⟨between, middle, hmiddle, hlast⟩ := of_bind_ok hresult
  apply (hnext between hlast (hfirst hmiddle hnotes)).same
  intro width
  simp only [List.mem_append]
  tauto

theorem same {computation : Build α} (hasks : Asks widths computation) {widths' : List ℕ}
    (hsame : ∀ width, width ∈ widths' ↔ width ∈ widths) : Asks widths' computation := by
  intro before value after noted hresult hnotes
  apply (hasks hresult hnotes).same
  intro width
  simp only [List.mem_append, hsame]

theorem ite {condition : Prop} [Decidable condition] {first second : Build α}
    (hfirst : Asks widths first) (hsecond : Asks widths second) :
    Asks widths (if condition then first else second) := by
  split
  · exact hfirst
  · exact hsecond

/-- Looking at the builder. -/
theorem look {next : Builder → Build α} (hnext : ∀ builder, Asks widths (next builder)) :
    Asks widths (MonadState.get >>= next) :=
  fun before _ _ _ hresult hnotes => hnext before hresult hnotes

/-- Changing anything but the remembered alignment. -/
theorem change {change : Builder → Builder}
    (hchange : ∀ builder : Builder, (change builder).alignment = builder.alignment) :
    Asks [] (modify change) := by
  rintro before _ _ noted ⟨⟩ hnotes
  exact hnotes.congr (hchange before)

end Asks

/-! ## Space -/

/-- What asks for nothing does so step by step. -/
theorem asks_sequences : Sequences (Asks []) where
  pure := Asks.pure
  throw := fun _ => .throw _
  step := by
    intro _ _ first next hfirst hnext before value after noted hresult hnotes
    obtain ⟨between, middle, hmiddle, hlast⟩ := of_bind_ok hresult
    exact hnext hmiddle hlast (hfirst hmiddle hnotes)
  look := fun _ => .look

/-- What begins an object asks for what comes then. -/
theorem begin_asks {what : Opening} {next : Build α} (hnext : Asks widths next) :
    Asks widths (do requireWritable; requireIdle what; next) :=
  asks_sequences.requireWritable.bind fun _ =>
    (asks_sequences.requireIdle what).bind fun _ => hnext

theorem push_asks (bytes : List UInt8) : Asks [] (push bytes) :=
  .change fun _ => rfl

theorem pad_asks (zeros required : ℕ) : Asks [] (pad zeros required) := by
  have hgrow : Asks [] (ensureCapacity required) := by
    apply (Asks.change _).bind fun _ => .look fun _ => .ite (.throw _) (.pure ())
    exact fun _ => rfl
  exact hgrow.bind fun _ => push_asks _

theorem noteAlignment_asks {width : ℕ} (hwidth : IsAlignment width) :
    Asks [width] (noteAlignment width) := by
  rintro before _ _ noted ⟨⟩ hnotes
  exact hnotes.note hwidth rfl

theorem reserve_asks {width : ℕ} (hwidth : IsAlignment width) (additional : ℕ) :
    Asks [width] (reserve width additional) :=
  asks_sequences.requireWritable.bind fun _ => (noteAlignment_asks hwidth).bind fun _ =>
    .look fun _ => pad_asks _ _

theorem prepare_asks {width : ℕ} (hwidth : IsAlignment width) (additional : Number) :
    Asks [width] (prepare width additional) := by
  have hwords : Asks [width] (reserveWords width additional) :=
    asks_sequences.requireWritable.bind fun _ => (noteAlignment_asks hwidth).bind fun _ =>
      .look fun _ => pad_asks _ _
  unfold prepare
  split
  · next hnumber _ =>
      rw [Number.toNat?_natCast, Option.some.injEq] at hnumber
      subst hnumber
      exact .ite (reserve_asks hwidth _) hwords
  · exact hwords

theorem write_asks (type : Scalar) (value : type.Value) : Asks [type.width] (write type value) := by
  unfold write
  cases type.word value with
  | ok word => exact (reserve_asks type.isWidth.isAlignment _).bind fun _ => push_asks _
  | error refused => exact .throw _

theorem writeOffset_asks (target : Number) : Asks [4] (writeOffset target) := by
  have hsame : ∀ width, width ∈ [4] ↔ width ∈ [4] ++ [4] := by simp
  refine Asks.same ?_ hsame
  apply (reserve_asks isWidth_four.isAlignment 0).bind
  intro _
  apply Asks.look
  intro builder
  dsimp only
  split
  · exact write_asks _ _
  · exact .throw _

theorem writeAll_asks {width : ℕ} {writeOne : α → Build Unit}
    (hwrite : ∀ item, Asks [width] (writeOne item)) (items : List α) :
    Asks (List.replicate items.length width) (writeAll writeOne items) := by
  induction items with
  | nil => exact .pure ()
  | cons item items ih =>
      apply (ih.bind fun _ => hwrite item).same
      simp [List.replicate_succ, or_comm]

/-! ## Tables -/

theorem startTable_asks (fieldCount : Number) : Asks [] (startTable fieldCount) := by
  apply begin_asks
  cases fieldCount.toNat? with
  | none => exact .throw _
  | some count => exact .ite (.throw_bind _ _) (.change fun _ => rfl)

theorem noteEntry_asks : ∀ slot, Asks [] (noteEntry slot) :=
  asks_sequences.noteEntry fun _ _ => .change fun _ => rfl

theorem field_asks (field : Field) : Asks [field.content.width] field.write := by
  cases field with
  | scalar type value default => exact write_asks type value
  | reference target => exact writeOffset_asks target

/-- A field asks for the alignment of what is kept of it. -/
theorem addField_notes {before after : Builder} {slot : Number} {field : Field} {noted : List ℕ}
    (hresult : addField slot field before = .ok () after) (hnotes : before.Notes noted) :
    after.Notes (((field.kept before.forceDefaults).map Content.width).toList ++ noted) := by
  obtain ⟨opened, index, taken, -, -, -, rfl, ⟨hkeeps, rfl⟩ | ⟨hkeeps, written, hwritten, hnoted⟩⟩ :=
    of_addField hresult
  · rw [Field.kept_of_not_keeps hkeeps]
    exact hnotes.congr rfl
  · rw [Field.kept_of_keeps hkeeps]
    exact noteEntry_asks index hnoted (field_asks field hwritten (hnotes.congr rfl))

theorem linkBody_asks (body : Region) (table vtableSize : ℕ) :
    Asks [] (linkBody body table vtableSize) :=
  fun _ _ _ _ hresult hnotes => hnotes.congr (relinks_of_linkBody hresult).alignment

/-- A table is aligned as its distance to the vtable is, and the vtable as its entries are. -/
theorem endTable_asks : Asks [4, 2] endTable := by
  have hwords (body : Region) (table tableSize vtableSize : ℕ) (entries : List ℕ) : Asks [2] (do
      writeAll (fun entry : ℕ => write .uint16 (entry : Number))
        (vtableSize :: tableSize :: entries)
      linkBody body table vtableSize
      return table) := by
    have hentry (entry : ℕ) : Asks [2] (write .uint16 (entry : Number)) := write_asks _ _
    have hentries := writeAll_asks hentry (vtableSize :: tableSize :: entries)
    apply (hentries.bind fun _ => (linkBody_asks body table vtableSize).bind fun _ =>
      .pure table).same
    simp
  rw [endTable_eq]
  apply Asks.look
  intro builder
  cases builder.phase with
  | idle | vector _ | finished => exact .throw _
  | table opened =>
      apply (reserve_asks isWidth_four.isAlignment 0).bind
      intro _
      apply Asks.look
      intro reserved
      apply (push_asks _).bind
      intro _
      exact .ite (.throw_bind _ _) (hwords _ _ _ _ _)

/-! ## Vectors and strings -/

theorem openVector_asks (count byteLength : Number) {alignment : ℕ}
    (halignment : IsAlignment alignment) :
    Asks [4, alignment] (openVector count byteLength alignment) := by
  apply (prepare_asks isWidth_four.isAlignment _).bind
  intro _
  apply (prepare_asks halignment _).bind
  intro _
  exact .change fun _ => rfl

theorem startVector_asks (elementSize count : Number) {alignment : ℕ}
    (halignment : IsAlignment alignment) :
    Asks [4, alignment] (startVector elementSize count alignment) :=
  begin_asks (.ite (.throw_bind _ _) (openVector_asks count (elementSize * count) halignment))

theorem endVector_asks : Asks [4] endVector := by
  intro before offset after noted hresult hnotes
  obtain ⟨opened, -, -, hcounted, -⟩ := of_endVector hresult
  exact write_asks .uint32 opened.count hcounted (hnotes.congr rfl)

/-- The elements ask for nothing that the vector does not ask for. -/
theorem vectorOf_asks {width : ℕ} (hwidth : IsWidth width) (count number : ℕ)
    {elements : Build Unit} (helements : Asks (List.replicate number width) elements) :
    Asks [4, width] (vectorOf width count elements) := by
  have hopen := openVector_asks count (width * count : ℕ) hwidth.isAlignment
  apply begin_asks
  apply (hopen.bind fun _ => helements.bind fun _ => endVector_asks).same
  intro alignment
  simp only [List.mem_append, List.mem_cons, List.mem_replicate, List.not_mem_nil]
  tauto

theorem scalars_asks (type : Scalar) (values : List type.Value) :
    Asks [4, type.width] (scalars type values) :=
  vectorOf_asks type.isWidth _ _ (writeAll_asks (write_asks type) values)

theorem offsets_asks (targets : List Number) : Asks [4] (offsets targets) :=
  (vectorOf_asks isWidth_four _ _ (writeAll_asks writeOffset_asks targets)).same (by simp)

theorem stringBytes_asks (bytes : List UInt8) : Asks [4, 1] (stringBytes bytes) := by
  have hbytes := vectorOf_asks ⟨0, by decide, rfl⟩ bytes.length 0 (push_asks bytes)
  apply begin_asks
  apply ((write_asks .int8 (0 : Number)).bind fun _ => hbytes).same
  simp [Scalar.width, IntegerType.width, or_comm]

end Build

end GraphWire

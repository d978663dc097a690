import GraphWire.Proofs.Builder.OpenTable
import GraphWire.Proofs.Builder.OpenVector
import GraphWire.Proofs.Model.Composition
import Mathlib.Order.Defs.Unbundled

/-!
# Order in open tables

The fields of an open table are behind each other in the order of their slots, whatever calls have
been made and whether or not they succeeded (`Builder.Orderly`).  Every operation, also one that
fails halfway, leaves a builder that is in order when the builder before was; all but those that
open and close something leave what is open alone (`Builder.Continues`).
-/

namespace GraphWire

/-! ## What computations leave -/

namespace Build

variable {α β : Type} {before : Builder}

/-- The builder that a computation leaves, whether or not it succeeds. -/
def leaves (computation : Build α) (before : Builder) : Builder :=
  match computation before with
  | .ok _ after => after
  | .error _ after => after

theorem leaves_congr {computation other : Build α} {middle : Builder}
    (hsame : computation before = other middle) :
    computation.leaves before = other.leaves middle := by
  rw [leaves, hsame, leaves]

theorem leaves_of_ok {computation : Build α} {value : α} {after : Builder}
    (hresult : computation before = .ok value after) : computation.leaves before = after := by
  simp only [leaves, hresult]

theorem leaves_of_error {computation : Build α} {error : BuildError} {after : Builder}
    (hresult : computation before = .error error after) : computation.leaves before = after := by
  simp only [leaves, hresult]

theorem leaves_bind_of_ok {first : Build α} {next : α → Build β} {value : α} {middle : Builder}
    (hfirst : first before = .ok value middle) :
    (first >>= next).leaves before = (next value).leaves middle := by
  simp only [leaves, bind_of_ok hfirst]

theorem leaves_bind_of_error {first : Build α} {next : α → Build β} {error : BuildError}
    {after : Builder} (hfirst : first before = .error error after) :
    (first >>= next).leaves before = after :=
  leaves_of_error (bind_of_error hfirst)

/-- A computation that looks at the builder leaves what it then goes on to. -/
theorem leaves_get_bind (next : Builder → Build α) (before : Builder) :
    (MonadState.get >>= next).leaves before = (next before).leaves before :=
  rfl

/-- Putting a result into another form leaves what was there before. -/
theorem leaves_bind_pure (computation : Build α) (form : α → β) (before : Builder) :
    (computation >>= fun value => Pure.pure (form value)).leaves before
      = computation.leaves before := by
  cases hresult : computation before with
  | ok value after =>
      rw [leaves_bind_of_ok hresult, leaves_of_ok hresult]
      rfl
  | error error after => rw [leaves_bind_of_error hresult, leaves_of_error hresult]

/-- A computation that leaves every builder in some relation to what it was. -/
def Leads (related : Builder → Builder → Prop) (computation : Build α) : Prop :=
  ∀ before, related before (computation.leaves before)

namespace Leads

variable {related : Builder → Builder → Prop}

theorem ok {computation : Build α} (hleads : Leads related computation) {value : α}
    {after : Builder} (hresult : computation before = .ok value after) : related before after := by
  have hleft := hleads before
  rwa [leaves_of_ok hresult] at hleft

theorem error {computation : Build α} (hleads : Leads related computation) {error : BuildError}
    {after : Builder} (hresult : computation before = .error error after) :
    related before after := by
  have hleft := hleads before
  rwa [leaves_of_error hresult] at hleft

theorem imp {related' : Builder → Builder → Prop} {computation : Build α}
    (hleads : Leads related computation)
    (himp : ∀ before after, related before after → related' before after) :
    Leads related' computation :=
  fun before => himp _ _ (hleads before)

theorem ite {condition : Prop} [Decidable condition] {first second : Build α}
    (hfirst : Leads related first) (hsecond : Leads related second) :
    Leads related (if condition then first else second) := by
  split
  · exact hfirst
  · exact hsecond

/-- Looking at the builder. -/
theorem look {next : Builder → Build α} (hnext : ∀ builder, Leads related (next builder)) :
    Leads related (MonadState.get >>= next) :=
  fun before => hnext before before

/-- Changing the builder. -/
theorem change {change : Builder → Builder}
    (hchange : ∀ builder, related builder (change builder)) : Leads related (modify change) :=
  hchange

variable [IsPreorder Builder related]

theorem pure (value : α) : Leads related (Pure.pure value) :=
  fun before => refl_of related before

theorem throw (error : BuildError) : Leads related (MonadExcept.throw error : Build α) :=
  fun before => refl_of related before

/-- A second step is only ever taken with what the first one gives. -/
theorem step {first : Build α} {next : α → Build β} (hfirst : Leads related first)
    (hnext : ∀ ⦃before value middle⦄, first before = .ok value middle →
      related middle ((next value).leaves middle)) : Leads related (first >>= next) := by
  intro before
  have hmiddle := hfirst before
  cases hresult : first before with
  | ok value middle =>
      rw [leaves_bind_of_ok hresult]
      rw [leaves_of_ok hresult] at hmiddle
      exact trans_of related hmiddle (hnext hresult)
  | error error after =>
      rw [leaves_bind_of_error hresult]
      rwa [leaves_of_error hresult] at hmiddle

theorem bind {first : Build α} {next : α → Build β} (hfirst : Leads related first)
    (hnext : ∀ value, Leads related (next value)) : Leads related (first >>= next) :=
  hfirst.step fun _ value middle _ => hnext value middle

theorem sequences : Sequences (Leads related) where
  pure := Leads.pure
  throw := fun _ => .throw _
  step := fun hfirst hnext => hfirst.step fun _ _ middle hresult => hnext hresult middle
  look := fun _ => .look

/-- Making room leads to whatever growing leads to. -/
theorem ensureCapacity
    (hgrow : ∀ (builder : Builder) (required : ℕ), related builder (builder.growTo required))
    (required : ℕ) : Leads related (ensureCapacity required) :=
  Leads.bind (.change fun builder => hgrow builder required) fun _ =>
    .look fun _ => .ite (.throw _) (.pure ())

end Leads

end Build

/-! ## Builders that go on -/

/-- A builder in the same phase as before, with no byte less. -/
structure Builder.Continues (before after : Builder) : Prop where
  phase : after.phase = before.phase
  size_le : before.written.size ≤ after.written.size

instance : IsPreorder Builder Builder.Continues where
  refl _ := ⟨rfl, le_refl _⟩
  trans _ _ _ hfirst hsecond :=
    ⟨hsecond.phase.trans hfirst.phase, hfirst.size_le.trans hsecond.size_le⟩

namespace Build

variable {α : Type} {before after : Builder}

theorem continues_prepends : Prepends (Leads Builder.Continues) where
  toSequences := Leads.sequences
  ensureCapacity := .ensureCapacity fun _ _ => ⟨rfl, le_refl _⟩
  push := fun _ => .change fun _ => ⟨rfl, Nat.le_add_left _ _⟩
  noteAlignment := fun _ => .change fun _ => ⟨rfl, le_refl _⟩

/-- A reference takes four bytes. -/
theorem size_le_of_writeOffset {target : Number} {result : Unit}
    (hresult : writeOffset target before = .ok result after) :
    before.written.size + 4 ≤ after.written.size := by
  obtain ⟨_, padded, hpadded, hresult⟩ := of_bind_ok hresult
  have hpadding := ((continues_prepends.reserve _ _).ok hpadded).size_le
  rw [get_bind_apply, Builder.offset_eq] at hresult
  cases hfound : target.toNat?.filter fun target => 0 < target ∧ target ≤ padded.written.size with
  | some offset =>
      rw [hfound] at hresult
      exact (Nat.add_le_add_right hpadding 4).trans (size_le_of_write hresult)
  | none =>
      rw [hfound] at hresult
      cases hresult

/-- A field takes the width of its content. -/
theorem size_le_of_field {field : Field} {result : Unit}
    (hresult : field.write before = .ok result after) :
    before.written.size + field.content.width ≤ after.written.size := by
  cases field with
  | scalar type value default => exact size_le_of_write hresult
  | reference target => exact size_le_of_writeOffset hresult

end Build

/-! ## Tables in order -/

/-- An open table whose slots were taken from the last one down, with each value in front of those
of the slots above it. -/
structure OpenTable.Ordered (opened : OpenTable) (size : ℕ) : Prop where
  limit_le : opened.limit ≤ opened.fieldCount
  start_le : opened.start ≤ size
  slots : ∀ entry ∈ opened.entries, opened.limit ≤ entry.1 ∧ entry.1 < opened.fieldCount
  offsets : ∀ entry ∈ opened.entries, opened.start < entry.2 ∧ entry.2 ≤ size
  descending : opened.entries.Pairwise fun lower higher =>
    lower.1 < higher.1 ∧ higher.2 < lower.2

namespace OpenTable.Ordered

variable {opened : OpenTable} {size size' : ℕ}

theorem new (count size : ℕ) : OpenTable.Ordered ⟨count, size, count, []⟩ size :=
  ⟨le_refl _, le_refl _, nofun, nofun, .nil⟩

theorem mono (hordered : opened.Ordered size) (hsize : size ≤ size') : opened.Ordered size' where
  limit_le := hordered.limit_le
  start_le := hordered.start_le.trans hsize
  slots := hordered.slots
  offsets := fun entry hentry =>
    ⟨(hordered.offsets entry hentry).1, (hordered.offsets entry hentry).2.trans hsize⟩
  descending := hordered.descending

/-- A slot below the others is taken. -/
theorem take (hordered : opened.Ordered size) {index : ℕ} (hindex : index < opened.limit) :
    OpenTable.Ordered { opened with limit := index } size where
  limit_le := (Nat.le_of_lt hindex).trans hordered.limit_le
  start_le := hordered.start_le
  slots := fun entry hentry =>
    ⟨(Nat.le_of_lt hindex).trans (hordered.slots entry hentry).1, (hordered.slots entry hentry).2⟩
  offsets := hordered.offsets
  descending := hordered.descending

/-- A slot below the others is taken, and its value is in front of theirs. -/
theorem fill (hordered : opened.Ordered size) {index : ℕ} (hindex : index < opened.limit)
    (hsize : size < size') :
    OpenTable.Ordered { opened with limit := index, entries := (index, size') :: opened.entries }
      size' := by
  have hlater := (hordered.take hindex).mono (Nat.le_of_lt hsize)
  have hlimit := hordered.limit_le
  have hstart := hordered.start_le
  refine ⟨hlater.limit_le, hlater.start_le, ?_, ?_, ?_⟩
  · rintro entry (_ | ⟨_, hentry⟩)
    · exact ⟨le_refl _, hindex.trans_le hlimit⟩
    · exact hlater.slots entry hentry
  · rintro entry (_ | ⟨_, hentry⟩)
    · exact ⟨hstart.trans_lt hsize, le_refl _⟩
    · exact hlater.offsets entry hentry
  · refine .cons ?_ hordered.descending
    intro entry hentry
    exact ⟨hindex.trans_le (hordered.slots entry hentry).1,
      (hordered.offsets entry hentry).2.trans_lt hsize⟩

end OpenTable.Ordered

/-- A builder whose open table, if there is one, is in order. -/
def Builder.Orderly (builder : Builder) : Prop :=
  ∀ opened, builder.phase = .table opened → opened.Ordered builder.written.size

/-- A builder that is in order if it was so before. -/
def Builder.Onward (before after : Builder) : Prop :=
  before.Orderly → after.Orderly

instance : IsPreorder Builder Builder.Onward where
  refl _ := id
  trans _ _ _ hfirst hsecond := hsecond ∘ hfirst

namespace Builder

variable {before after : Builder}

theorem Continues.onward (hcontinues : before.Continues after) : before.Onward after :=
  fun horderly opened hopened =>
    (horderly opened (hcontinues.phase ▸ hopened)).mono hcontinues.size_le

theorem orderly_of_phase (hphase : ∀ opened, before.phase ≠ .table opened) : before.Orderly :=
  fun opened hopened => absurd hopened (hphase opened)

end Builder

namespace Build

variable {α : Type} {before after : Builder}

theorem Leads.onward {computation : Build α} (hleads : Leads Builder.Continues computation) :
    Leads Builder.Onward computation :=
  hleads.imp fun _ _ => Builder.Continues.onward

/-! ### Fields -/

/-- A value that has been written for the slot taken last. -/
theorem fill_onward (field : Field) {opened : OpenTable} {index : ℕ}
    (hindex : index < opened.limit) (hordered : opened.Ordered before.written.size) :
    ((do field.write; noteEntry index : Build Unit).leaves
      { before with phase := .table { opened with limit := index } }).Orderly := by
  let taken : Builder := { before with phase := .table { opened with limit := index } }
  have htaken : taken.Orderly := by
    rintro other ⟨⟩
    exact hordered.take hindex
  have hwritten := continues_prepends.field field taken
  change ((do field.write; noteEntry index : Build Unit).leaves taken).Orderly
  cases hresult : field.write taken with
  | error error after =>
      rw [leaves_bind_of_error hresult]
      rw [leaves_of_error hresult] at hwritten
      exact hwritten.onward htaken
  | ok value after =>
      rw [leaves_bind_of_ok hresult]
      rw [leaves_of_ok hresult] at hwritten
      have hphase : after.phase = .table { opened with limit := index } := hwritten.phase
      have hsize : taken.written.size < after.written.size :=
        (Nat.lt_add_of_pos_right field.content.isWidth.pos).trans_le (size_le_of_field hresult)
      simp only [leaves, noteEntry, get_bind_apply, hphase]
      rintro other ⟨⟩
      exact hordered.fill hindex hsize

theorem addField_onward (slot : Number) (field : Field) :
    Leads Builder.Onward (addField slot field) := by
  intro before horderly
  rcases addField_cases slot field before with
    ⟨error, herror⟩ | ⟨opened, index, hphase, -, hindex, hadd⟩
  · rw [leaves_of_error herror]
    exact horderly
  · have hordered := horderly opened hphase
    rw [leaves_congr hadd]
    split
    · exact fill_onward field hindex hordered
    · rintro other ⟨⟩
      exact hordered.take hindex

/-! ### Objects -/

/-- Whatever opens and closes no table keeps a builder in order. -/
theorem onward_encloses : Encloses (Leads Builder.Onward) where
  toSequences := Leads.sequences
  ensureCapacity := fun required => (continues_prepends.ensureCapacity required).onward
  push := fun bytes => (continues_prepends.push bytes).onward
  noteAlignment := fun alignment => (continues_prepends.noteAlignment alignment).onward
  close := .change fun _ _ => Builder.orderly_of_phase nofun
  enclose := fun _ _ => .change fun _ _ => Builder.orderly_of_phase nofun

theorem startTable_onward (fieldCount : Number) : Leads Builder.Onward (startTable fieldCount) := by
  have hopen (count : ℕ) : Leads Builder.Onward (modify fun builder : Builder =>
      { builder with phase := .table ⟨count, builder.written.size, count, []⟩ }) := by
    apply Leads.change
    rintro before - opened ⟨⟩
    exact .new count before.written.size
  apply onward_encloses.begins
  cases fieldCount.toNat? with
  | none => exact .throw _
  | some count => exact .ite (.bind (.throw _) fun _ => hopen count) (hopen count)

theorem endTable_onward : Leads Builder.Onward endTable := by
  apply onward_encloses.endTable
  intro body table vtableSize before _
  obtain ⟨linked, hlinked, hrelinks⟩ := linkBody_relinks body table vtableSize before
  rw [leaves_of_ok hlinked]
  exact Builder.orderly_of_phase fun opened => by simp [hrelinks.phase]

theorem markFinished_onward (identifier : Option String) :
    Leads Builder.Onward (markFinished identifier) :=
  .change fun _ _ => Builder.orderly_of_phase nofun

theorem clear_onward : Leads Builder.Onward clear :=
  .change fun _ _ => Builder.orderly_of_phase nofun

end Build

end GraphWire

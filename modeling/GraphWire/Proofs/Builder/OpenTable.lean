import GraphWire.Proofs.Builder.Inversion
import GraphWire.Proofs.Builder.TableLayout
import GraphWire.Proofs.Builder.Vector

/-!
# Tables that are open

While a table is open, each of its entries is the offset of the content that its slot holds
(`OpenTable.Fills`).  Adding a field keeps this, and so does every other write.
-/

namespace GraphWire

/-- An open table whose entries are where its slots have their contents. -/
structure OpenTable.Fills (opened : OpenTable) (builder : Builder) (filled : List FilledSlot) :
    Prop where
  entries : opened.entries = filled.map FilledSlot.entry
  ascending : Ascending opened.limit opened.entries
  limit_le : opened.limit ≤ opened.fieldCount
  start_le : opened.start ≤ builder.written.size
  below : ∀ value ∈ filled, value.slot < opened.fieldCount
  values : ∀ value ∈ filled, opened.start + value.content.width ≤ value.offset ∧
    value.offset ≤ builder.written.size ∧ value.content.PlacedAt builder.written.bytes value.offset

theorem Ascending.mono {α : Type} {first first' : ℕ} {entries : List (ℕ × α)}
    (hascending : Ascending first entries) (hfirst : first' ≤ first) :
    Ascending first' entries := by
  cases entries with
  | nil => trivial
  | cons entry rest => exact ⟨hfirst.trans hascending.1, hascending.2⟩

namespace OpenTable.Fills

variable {opened : OpenTable} {before after : Builder} {filled : List FilledSlot}

theorem mono (hfills : opened.Fills before filled)
    (hsuffix : before.written.bytes <:+ after.written.bytes) : opened.Fills after filled := by
  have hsize := hsuffix.length_le
  rw [← Region.size_eq, ← Region.size_eq] at hsize
  refine ⟨hfills.entries, hfills.ascending, hfills.limit_le, hfills.start_le.trans hsize,
    hfills.below, ?_⟩
  intro value hvalue
  obtain ⟨hstart, hwithin, hplaced⟩ := hfills.values value hvalue
  exact ⟨hstart, hwithin.trans hsize, hplaced.mono hsuffix⟩

theorem inPhase (hfills : opened.Fills before filled) (phase : Phase) :
    opened.Fills { before with phase } filled :=
  ⟨hfills.entries, hfills.ascending, hfills.limit_le, hfills.start_le, hfills.below, hfills.values⟩

/-- A slot that is passed over leaves the contents of the others. -/
theorem pass (hfills : opened.Fills before filled) {index : ℕ} (hindex : index < opened.limit) :
    OpenTable.Fills { opened with limit := index } before filled where
  entries := hfills.entries
  ascending := hfills.ascending.mono (Nat.le_of_lt hindex)
  limit_le := (Nat.le_of_lt hindex).trans hfills.limit_le
  start_le := hfills.start_le
  below := hfills.below
  values := hfills.values

/-- A slot below the others takes the content that has just been written. -/
theorem take (hfills : opened.Fills before filled) {index : ℕ} (hindex : index < opened.limit)
    {content : Content} (hcontent : before.PutsContent content after) (phase : Phase) :
    OpenTable.Fills
      { opened with limit := index, entries := (index, after.written.size) :: opened.entries }
      { after with phase } (⟨index, after.written.size, content⟩ :: filled) := by
  obtain ⟨front, hputs⟩ := hcontent.puts
  have hlater := hfills.mono hputs.suffix
  have hsize := hcontent.size
  have hstart := hfills.start_le
  have hlimit := hfills.limit_le
  refine ⟨?_, ⟨le_refl _, hfills.ascending.mono hindex⟩, by simp only; omega, hlater.start_le,
    ?_, ?_⟩
  · simp only [hfills.entries, List.map_cons, FilledSlot.entry]
  · intro value hvalue
    rcases List.mem_cons.mp hvalue with rfl | hrest
    · simp only
      omega
    · exact hfills.below value hrest
  · intro value hvalue
    rcases List.mem_cons.mp hvalue with rfl | hrest
    · simp only
      exact ⟨by omega, le_refl _, hcontent.placed⟩
    · exact hlater.values value hrest

end OpenTable.Fills

/-! ## Fields -/

namespace Field

/-- What a field puts into its slot, if it is not left out. -/
def kept (force : Bool) : Field → Option Content
  | .scalar type value default =>
      if force || !type.same value default then some (.scalar type value) else none
  | .reference target =>
      if !target.equals 0 then some (.reference (target.toNat?.getD 0)) else none

/-- What a field writes. -/
def content : Field → Content
  | .scalar type value _ => .scalar type value
  | .reference target => .reference (target.toNat?.getD 0)

theorem kept_eq (field : Field) (force : Bool) :
    field.kept force = if field.keeps force then some field.content else none := by
  cases field <;> rfl

theorem kept_of_keeps {field : Field} {force : Bool} (hkeeps : field.keeps force = true) :
    field.kept force = some field.content := by
  rw [kept_eq, if_pos hkeeps]

theorem kept_of_not_keeps {field : Field} {force : Bool} (hkeeps : field.keeps force = false) :
    field.kept force = none := by
  rw [kept_eq, hkeeps, if_neg Bool.false_ne_true]

/-- Whether the wire can hold what is kept of a field. -/
def Fits (force : Bool) : Field → Prop
  | .scalar type value default =>
      (force || !type.same value default) = true → type.Fits value
  | .reference _ => True

/-- Whether a field only refers to what is in a buffer of some size. -/
def Ready (size : ℕ) : Field → Prop
  | .scalar .. => True
  | .reference target => target.equals 0 = false → Build.Reaches size target

end Field

namespace Build

variable {before : Builder} {opened : OpenTable} {filled : List FilledSlot} {legal : Prop}

theorem takeSlot_writes (hphase : before.phase = .table opened)
    (hlimit : opened.limit ≤ opened.fieldCount) (slot : Number) :
    Writes (takeSlot slot) before (∃ index, slot.toNat? = some index ∧ index < opened.limit) True
      before.written.size
      fun index after => slot.toNat? = some index ∧ index < opened.limit ∧
        after = { before with phase := .table { opened with limit := index } } := by
  unfold takeSlot
  apply Writes.get_bind
  rw [hphase]
  dsimp only
  cases hfound : slot.toNat?.filter (· < opened.fieldCount) with
  | none =>
      apply Writes.throw
      rintro ⟨index, hindex, hbelow⟩
      rw [hindex, Option.filter_some] at hfound
      simp at hfound
      omega
  | some index =>
      obtain ⟨hindex, -⟩ := Option.filter_eq_some_iff.mp hfound
      by_cases hpassed : opened.limit ≤ index
      · dsimp only
        rw [if_pos hpassed]
        apply Writes.throw
        rintro ⟨other, hother, hbelow⟩
        obtain rfl : index = other := by simpa [hindex] using hother
        omega
      · dsimp only
        rw [if_neg hpassed]
        apply Writes.modify_bind
        exact Writes.pure ⟨hindex, by omega, rfl⟩ fun _ => le_refl _

/-- A content that is written for a slot is noted at its offset. -/
theorem noteEntry_writes {write : Build Unit} {content : Content} {legal fits : Prop} {bound : ℕ}
    (hphase : before.phase = .table opened)
    (hwrite : Writes write before legal fits bound fun _ after => before.PutsContent content after)
    (index : ℕ) :
    Writes (do write; noteEntry index) before legal fits bound
      fun _ after => ∃ written : Builder, before.PutsContent content written ∧
        after = { written with
          phase := .table
            { opened with entries := (index, written.written.size) :: opened.entries } } := by
  apply (hwrite.bind (le_refl _) _).of_fits (Iff.of_eq (and_true fits))
  intro _ written hcontent hbound
  obtain ⟨front, hputs⟩ := hcontent.puts
  unfold noteEntry
  apply Writes.get_bind
  rw [hputs.phase, hphase]
  exact Writes.change ⟨written, hcontent, rfl⟩ hbound

/-- A slot that is passed over leaves the builder and the contents as they are. -/
theorem passSlot_writes (hfills : opened.Fills before filled) {index : ℕ}
    (hbelow : index < opened.limit) :
    Writes (pure ()) { before with phase := .table { opened with limit := index } } legal True
      before.written.size
      fun _ after => ∃ entries front,
        after.phase = .table { opened with limit := index, entries } ∧
        OpenTable.Fills { opened with limit := index, entries } after filled ∧
        before.Puts front { after with phase := before.phase } ∧ before.KeepsModest after := by
  apply Writes.pure
  · exact ⟨opened.entries, [], rfl, (hfills.pass hbelow).inPhase _, .refl before,
      fun _ _ _ => id⟩
  · intro _
    exact le_refl _

/-- A content that is written for a slot fills it. -/
theorem fillSlot_writes (hfills : opened.Fills before filled) {index : ℕ}
    (hbelow : index < opened.limit) {write : Build Unit} {content : Content} {fits : Prop}
    {bound : ℕ}
    (hwrite : Writes write { before with phase := .table { opened with limit := index } } legal fits
      bound fun _ after => Builder.PutsContent
        { before with phase := .table { opened with limit := index } } content after) :
    Writes (do write; noteEntry index)
      { before with phase := .table { opened with limit := index } } legal fits bound
      fun _ after => ∃ entries front,
        after.phase = .table { opened with limit := index, entries } ∧
        OpenTable.Fills { opened with limit := index, entries } after
          (⟨index, after.written.size, content⟩ :: filled) ∧
        before.Puts front { after with phase := before.phase } ∧ before.KeepsModest after := by
  apply (noteEntry_writes rfl hwrite index).imp
  rintro _ _ ⟨written, hcontent, rfl⟩
  obtain ⟨front, hputs⟩ := hcontent.puts
  have hfills' := hfills.inPhase (.table { opened with limit := index })
  exact ⟨_, front, rfl, hfills'.take hbelow hcontent _, hputs.inPhase before.phase,
    hcontent.modest⟩

/-- A field that is kept is written at the alignment of its content. -/
theorem field_writes (hsound : before.Sound) {field : Field} {force : Bool}
    (hkeeps : field.keeps force = true) :
    Writes field.write before (before.phase ≠ .finished ∧ field.Ready before.written.size)
      (field.Fits force) (before.written.size + 15)
      fun _ after => before.PutsContent field.content after := by
  have hpadding := field.content.isWidth.padding_lt before.written.size
  have hwidth := field.content.isWidth.le_eight
  cases field with
  | scalar type value default =>
      apply (((write_content hsound type value).of_legal And.left).of_fits _).of_bound
      · simp only [Field.content, Content.width] at hpadding hwidth
        omega
      · exact ⟨fun hfits _ => hfits, fun hfits => hfits hkeeps⟩
  | reference target =>
      apply ((offsetElement.writes target hsound).of_legal _).of_bound
      · change before.written.size + padding 4 before.written.size + 4 ≤ _
        simp only [Field.content, Content.width] at hpadding
        omega
      · rintro ⟨hwritable, hready⟩
        exact ⟨hwritable, hready (by simpa [Field.keeps] using hkeeps)⟩

/-- Adding a field fills its slot with what is kept of it. -/
theorem addField_writes (hsound : before.Sound) (hphase : before.phase = .table opened)
    (hfills : opened.Fills before filled) (slot : Number) (field : Field) :
    Writes (addField slot field) before
      (∃ index, slot.toNat? = some index ∧ index < opened.limit ∧ field.Ready before.written.size)
      (field.Fits before.forceDefaults) (before.written.size + 15)
      fun _ after => ∃ index entries front, slot.toNat? = some index ∧ index < opened.limit ∧
        after.phase = .table { opened with limit := index, entries } ∧
        OpenTable.Fills { opened with limit := index, entries } after
          (match field.kept before.forceDefaults with
            | none => filled
            | some content => ⟨index, after.written.size, content⟩ :: filled) ∧
        before.Puts front { after with phase := before.phase } ∧
        before.KeepsModest after := by
  rw [addField_eq]
  apply (((takeSlot_writes hphase hfills.limit_le slot).of_legal _).bind_true (by omega) _)
  · rintro ⟨index, hindex, hbelow, -⟩
    exact ⟨index, hindex, hbelow⟩
  rintro index _ ⟨hindex, hbelow, rfl⟩ -
  apply Writes.get_bind
  dsimp only
  cases hkeeps : field.keeps before.forceDefaults with
  | true =>
      have hfilled := fillSlot_writes hfills hbelow
        (field_writes (hsound.inPhase (.table { opened with limit := index })) hkeeps)
      rw [if_pos rfl]
      apply (hfilled.of_legal _).imp
      · rintro _ after ⟨entries, front, hafter⟩
        rw [Field.kept_of_keeps hkeeps]
        exact ⟨index, entries, front, hindex, hbelow, hafter⟩
      · rintro ⟨-, -, -, hready⟩
        exact ⟨Phase.noConfusion, hready⟩
  | false =>
      have hnothing : field.Fits before.forceDefaults ↔ True := by
        refine iff_true_intro ?_
        cases field with
        | scalar type value default =>
            intro hforced
            cases hforced.symm.trans hkeeps
        | reference target => trivial
      rw [if_neg Bool.false_ne_true]
      apply ((passSlot_writes hfills hbelow).of_fits hnothing.symm).of_legal_bound _ |>.imp
      · rintro _ after ⟨entries, front, hafter⟩
        rw [Field.kept_of_not_keeps hkeeps]
        exact ⟨index, entries, front, hindex, hbelow, hafter⟩
      · intro _
        omega

/-! ## Opening a table -/

theorem startTable_writes (fieldCount : Number) :
    Writes (startTable fieldCount) before
      (before.phase = .idle ∧ ∃ count, fieldCount.toNat? = some count ∧ count < slotLimit) True
      before.written.size
      fun _ after => ∃ count, fieldCount.toNat? = some count ∧
        after = { before with phase := .table ⟨count, before.written.size, count, []⟩ } := by
  unfold startTable
  apply begin_writes
  intro _
  cases hcount : fieldCount.toNat? with
  | none =>
      apply Writes.throw
      rintro ⟨count, hsome, -⟩
      cases hsome
  | some count =>
      dsimp only
      by_cases hlimit : slotLimit ≤ count
      · rw [if_pos hlimit]
        apply Writes.throw
        rintro ⟨other, hother, hbelow⟩
        obtain rfl : count = other := by simpa using hother
        omega
      · rw [if_neg hlimit]
        exact Writes.change ⟨count, rfl, rfl⟩ fun _ => le_refl _

/-- A table that has just been opened holds nothing. -/
theorem fills_nil (before : Builder) (count : ℕ) (phase : Phase) :
    OpenTable.Fills ⟨count, before.written.size, count, []⟩ { before with phase } [] where
  entries := rfl
  ascending := trivial
  limit_le := le_refl _
  start_le := le_refl _
  below := by simp
  values := by simp

end Build

/-- The slots that fields fill from a slot on. -/
def Field.slots (force : Bool) : ℕ → List Field → List (ℕ × Content)
  | _, [] => []
  | slot, field :: rest =>
      match field.kept force with
      | none => slots force (slot + 1) rest
      | some content => (slot, content) :: slots force (slot + 1) rest

theorem Field.Ready.mono {size size' : ℕ} {field : Field} (hready : field.Ready size)
    (hsize : size ≤ size') : field.Ready size' := by
  cases field with
  | scalar type value default => trivial
  | reference target => exact fun hpresent => (hready hpresent).mono hsize

namespace Build

variable {before : Builder} {opened : OpenTable}

/-- Adding fields last first fills their slots. -/
theorem addFields_writes (hsound : before.Sound) (hphase : before.phase = .table opened)
    (hfills : opened.Fills before []) (fields : List Field) (slot : ℕ)
    (hlimit : opened.limit = slot + fields.length) :
    Writes (table.addFields slot fields) before (∀ field ∈ fields, field.Ready before.written.size)
      (∀ field ∈ fields, field.Fits before.forceDefaults)
      (before.written.size + 15 * fields.length)
      fun _ after => ∃ opened' filled front, after.phase = .table opened' ∧
        opened'.start = opened.start ∧ opened'.fieldCount = opened.fieldCount ∧
        opened'.limit = slot ∧ opened'.Fills after filled ∧
        filled.map FilledSlot.holding = Field.slots before.forceDefaults slot fields ∧
        before.Puts front { after with phase := before.phase } ∧
        before.KeepsModest after := by
  induction fields generalizing slot with
  | nil =>
      apply (Writes.pure _ _).of_fits
      · simp
      · exact ⟨opened, [], [], hphase, rfl, rfl, hlimit, hfills, rfl, .refl before,
          fun _ _ _ => id⟩
      · simp
  | cons field fields ih =>
      rw [List.length_cons] at hlimit
      rw [List.length_cons, List.forall_mem_cons, List.forall_mem_cons]
      unfold table.addFields
      have hlater := ih (slot + 1) (by omega)
      apply ((hlater.of_legal And.right).bind (by omega) _).of_fits and_comm
      rintro _ middle ⟨opened', filled, front, hmiddle, hstart, hcount, hnext, hfills', hslots,
        hputs, hmodest⟩ hbound
      have hforce : middle.forceDefaults = before.forceDefaults := hputs.forceDefaults
      have hsize : before.written.size ≤ middle.written.size := by
        have hlength := hputs.size
        simp only at hlength
        omega
      have hsound' : middle.Sound := (hputs.sound hsound).inPhase middle.phase
      have hone := addField_writes hsound' hmiddle hfills' (slot : Number) field
      rw [hforce] at hone
      apply ((hone.of_legal _).of_legal_bound _).imp
      · rintro _ after ⟨index, entries, front', hindex, hbelow, hphase', hall, hputs', hmodest'⟩
        obtain rfl : slot = index := by simpa using hindex
        have hboth := hputs.trans (hputs'.inPhase before.phase)
        refine ⟨_, _, _, hphase', hstart, hcount, rfl, hall, ?_, hboth,
          hmodest.trans hmodest'⟩
        rw [Field.slots, ← hslots]
        cases field.kept before.forceDefaults <;> rfl
      · rintro ⟨hready, -⟩
        exact ⟨slot, Number.toNat?_natCast slot, by omega, hready.mono hsize⟩
      · intro hlegal
        have hbounded := hbound hlegal
        omega

end Build

end GraphWire

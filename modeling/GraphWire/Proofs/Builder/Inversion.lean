import GraphWire.Builder.Vector
import GraphWire.Proofs.Builder.Linking
import Mathlib.Data.List.Infix

/-!
# What a step has done

The steps that take slots and add fields and those that close tables and vectors, each opened up
once: what the builder must have been before, and what it is after.
-/

namespace GraphWire

namespace Build

variable {before after : Builder}

/-! ## Slots -/

/-- A slot is refused, which is no matter of room, or it is a slot of the open table below those
taken. -/
theorem takeSlot_cases (slot : Number) (before : Builder) :
    (∃ error, takeSlot slot before = .error error before ∧ error ≠ .capacityLimit) ∨
      ∃ opened index, before.phase = .table opened ∧ slot.toNat? = some index ∧
        index < opened.limit ∧ takeSlot slot before
          = .ok index { before with phase := .table { opened with limit := index } } := by
  unfold takeSlot
  simp only [get_bind_apply]
  cases hphase : before.phase with
  | table opened =>
      dsimp only
      cases hfound : slot.toNat?.filter (· < opened.fieldCount) with
      | none => exact .inl ⟨_, rfl, nofun⟩
      | some index =>
          dsimp only
          by_cases hlimit : opened.limit ≤ index
          · rw [if_pos hlimit]
            exact .inl ⟨_, rfl, nofun⟩
          · rw [if_neg hlimit]
            exact .inr ⟨opened, index, rfl, (Option.filter_eq_some_iff.mp hfound).1,
              Nat.lt_of_not_le hlimit, rfl⟩
  | idle => exact .inl ⟨_, rfl, nofun⟩
  | vector opened => exact .inl ⟨_, rfl, nofun⟩
  | finished => exact .inl ⟨_, rfl, nofun⟩

theorem of_takeSlot {slot : Number} {index : ℕ} (hresult : takeSlot slot before = .ok index after) :
    ∃ opened, before.phase = .table opened ∧ slot.toNat? = some index ∧ index < opened.limit ∧
      after = { before with phase := .table { opened with limit := index } } := by
  rcases takeSlot_cases slot before with
    ⟨error, herror, -⟩ | ⟨opened, taken, hphase, hslot, hlimit, htaken⟩
  · rw [herror] at hresult
    cases hresult
  · rw [htaken] at hresult
    cases hresult
    exact ⟨opened, hphase, hslot, hlimit, rfl⟩

/-- A value is noted in the open table, if there is one. -/
theorem noteEntry_cases (slot : ℕ) (before : Builder) :
    (∃ opened, before.phase = .table opened ∧ noteEntry slot before = .ok () { before with
      phase := .table { opened with entries := (slot, before.written.size) :: opened.entries } }) ∨
    (∀ opened, before.phase ≠ .table opened) ∧ noteEntry slot before = .ok () before := by
  unfold noteEntry
  rw [get_bind_apply]
  cases before.phase with
  | table opened => exact .inl ⟨opened, rfl, rfl⟩
  | idle | vector _ | finished => exact .inr ⟨nofun, rfl⟩

end Build

/-! ## Fields -/

namespace Field

/-- Whether a field is written, or left out. -/
def keeps (force : Bool) : Field → Bool
  | scalar type value default => force || !type.same value default
  | reference target => !target.equals 0

/-- Writes the value of a field. -/
def write : Field → Build Unit
  | scalar type value _ => Build.write type value
  | reference target => Build.writeOffset target

end Field

namespace Build

variable {before after : Builder}

/-- Scalars and references take a slot alike. -/
theorem addField_eq (slot : Number) (field : Field) : addField slot field = (do
    let index ← takeSlot slot
    if field.keeps (← get).forceDefaults then
      field.write
      noteEntry index) := by
  cases field with
  | scalar type value default => rfl
  | reference target => rfl

/-- A slot is refused, or a value is written for it and noted if the field is not left out. -/
theorem addField_cases (slot : Number) (field : Field) (before : Builder) :
    (∃ error, addField slot field before = .error error before) ∨
      ∃ opened index, before.phase = .table opened ∧ slot.toNat? = some index ∧
        index < opened.limit ∧ addField slot field before
          = (if field.keeps before.forceDefaults then do field.write; noteEntry index
            else pure () : Build Unit)
              { before with phase := .table { opened with limit := index } } := by
  rw [addField_eq]
  rcases takeSlot_cases slot before with
    ⟨error, herror, -⟩ | ⟨opened, index, hphase, hslot, hlimit, htaken⟩
  · exact .inl ⟨error, bind_of_error herror⟩
  · exact .inr ⟨opened, index, hphase, hslot, hlimit, bind_of_ok htaken⟩

/-- What adding a field has done. -/
theorem of_addField {slot : Number} {field : Field}
    (hresult : addField slot field before = .ok () after) :
    ∃ opened index, ∃ taken : Builder, before.phase = .table opened ∧
      slot.toNat? = some index ∧ index < opened.limit ∧
      taken = { before with phase := .table { opened with limit := index } } ∧
      (field.keeps before.forceDefaults = false ∧ after = taken ∨
        field.keeps before.forceDefaults = true ∧ ∃ written,
          field.write taken = .ok () written ∧ noteEntry index written = .ok () after) := by
  rcases addField_cases slot field before with
    ⟨error, herror⟩ | ⟨opened, index, hphase, hslot, hlimit, hadd⟩
  · rw [herror] at hresult
    cases hresult
  · refine ⟨opened, index, _, hphase, hslot, hlimit, rfl, ?_⟩
    rw [hadd] at hresult
    cases hkeeps : field.keeps before.forceDefaults with
    | false =>
        rw [hkeeps, if_neg Bool.false_ne_true] at hresult
        cases hresult
        exact .inl ⟨rfl, rfl⟩
    | true =>
        rw [hkeeps, if_pos rfl] at hresult
        obtain ⟨_, written, hwritten, hnoted⟩ := of_bind_ok hresult
        exact .inr ⟨rfl, written, hwritten, hnoted⟩

theorem phase_of_addField {slot : Number} {field : Field}
    (hresult : addField slot field before = .ok () after) :
    ∃ opened, before.phase = .table opened := by
  obtain ⟨opened, _, _, hphase, -⟩ := of_addField hresult
  exact ⟨opened, hphase⟩

end Build

/-! ## Tables -/

/-- A builder after a table with some body has been linked to its vtable, be that a new one or one
that is shared. -/
structure Builder.Relinks (before : Builder) (body : Region) (vtableSize : ℕ) (after : Builder) :
    Prop where
  suffix : body.bytes <:+ after.written.bytes
  size_le : after.written.size ≤ vtableSize + 4 + body.size
  phase : after.phase = .idle
  capacity : after.capacity = before.capacity
  alignment : after.alignment = before.alignment

namespace Build

variable {before after : Builder}

/-- Linking a table to its vtable always succeeds. -/
theorem linkBody_relinks (body : Region) (table vtableSize : ℕ) (before : Builder) :
    ∃ after, linkBody body table vtableSize before = .ok () after ∧
      before.Relinks body vtableSize after := by
  have htaken := List.length_take_le vtableSize before.written.bytes
  simp only [linkBody, get_bind_apply]
  cases sharedVtable? before (before.written.bytes.take vtableSize) with
  | some stored =>
      refine ⟨_, rfl, List.suffix_append _ _, ?_, rfl, rfl, rfl⟩
      rw [Region.size_push, length_vtableDistance]
      omega
  | none =>
      have hsuffix := List.suffix_append (vtableDistance before.written.size table) body.bytes
      refine ⟨_, rfl, hsuffix.trans (List.suffix_append _ _), ?_, rfl, rfl, rfl⟩
      rw [Region.size_push, Region.size_push, length_vtableDistance]
      omega

theorem relinks_of_linkBody {body : Region} {table vtableSize : ℕ} {result : Unit}
    (hresult : linkBody body table vtableSize before = .ok result after) :
    before.Relinks body vtableSize after := by
  obtain ⟨linked, hlinked, hrelinks⟩ := linkBody_relinks body table vtableSize before
  rw [hlinked] at hresult
  cases hresult
  exact hrelinks

/-- A table is closed behind its vtable: room is made for the distance, and what was written up to
there is its body. -/
theorem of_endTable {offset : ℕ} (hresult : endTable before = .ok offset after) :
    ∃ opened padded vtableSize, ∃ listed : Builder, before.phase = .table opened ∧
      reserve Layout.offsetWidth 0 before = .ok () padded ∧
      offset = padded.written.size + Layout.offsetWidth ∧
      listed.Relinks padded.written vtableSize after := by
  cases hphase : before.phase with
  | idle | vector _ | finished =>
      simp only [endTable_eq, get_bind_apply, hphase] at hresult
      cases hresult
  | table opened =>
      simp only [endTable_eq, closeTable, get_bind_apply, hphase] at hresult
      obtain ⟨_, padded, hpadded, hresult⟩ := of_bind_ok hresult
      simp only [get_bind_apply] at hresult
      obtain ⟨_, headed, -, hresult⟩ := of_bind_ok hresult
      split at hresult
      · cases hresult
      · obtain ⟨_, listed, -, hresult⟩ := of_bind_ok hresult
        obtain ⟨_, linked, hlinked, hresult⟩ := of_bind_ok hresult
        cases hresult
        exact ⟨opened, padded, _, listed, rfl, hpadded, rfl, relinks_of_linkBody hlinked⟩

theorem phase_of_endTable {offset : ℕ} (hresult : endTable before = .ok offset after) :
    ∃ opened, before.phase = .table opened := by
  obtain ⟨opened, _, _, _, hphase, -⟩ := of_endTable hresult
  exact ⟨opened, hphase⟩

theorem idle_after_endTable {offset : ℕ} (hresult : endTable before = .ok offset after) :
    after.phase = .idle := by
  obtain ⟨_, _, _, _, -, -, -, hrelinks⟩ := of_endTable hresult
  exact hrelinks.phase

/-! ## Vectors -/

/-- A vector is closed by its count, when it has the bytes that were declared. -/
theorem of_endVector {offset : ℕ} (hresult : endVector before = .ok offset after) :
    ∃ opened, before.phase = .vector opened ∧
      opened.byteLength.toNat? = some (before.written.size - opened.start) ∧
      write .uint32 opened.count { before with phase := .idle } = .ok () after ∧
      offset = after.written.size := by
  cases hphase : before.phase with
  | idle | table _ | finished =>
      simp only [endVector, get_bind_apply, hphase] at hresult
      cases hresult
  | vector opened =>
      simp only [endVector, get_bind_apply, hphase] at hresult
      split at hresult
      · cases hresult
      · next hdeclared =>
          obtain ⟨_, closed, hclosed, hresult⟩ := of_bind_ok hresult
          cases hclosed
          obtain ⟨_, counted, hcounted, hresult⟩ := of_bind_ok hresult
          cases hresult
          exact ⟨opened, rfl, not_not.mp hdeclared, hcounted, rfl⟩

end Build

end GraphWire

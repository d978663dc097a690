import GraphWire.Proofs.Builder.Containment

/-!
# What a call has done

What follows from a call having succeeded: what it was made of, and how what is open has changed
(`Call.Moves`).  Every call either leaves open what was open, or begins, fills or closes one object,
finishes the buffer, or discards everything.
-/

namespace GraphWire

/-! ## Writers of whole objects -/

namespace Build

variable {α : Type} {before after : Builder}

/-- An operation that has closed what it opened whenever it succeeds. -/
def Rests (computation : Build α) : Prop :=
  ∀ ⦃before value after⦄, computation before = .ok value after → after.phase = before.phase

theorem Leads.rests {computation : Build α} (hleads : Leads Builder.Continues computation) :
    Rests computation :=
  fun _ _ _ hresult => (hleads.ok hresult).phase

theorem idle_after_endVector {offset : ℕ} (hresult : endVector before = .ok offset after) :
    after.phase = .idle := by
  obtain ⟨opened, -, -, hcounted, -⟩ := of_endVector hresult
  exact ((continues_prepends.write _ _).ok hcounted).phase

theorem idle_after_vectorOf {width count : ℕ} {elements : Build Unit} {offset : ℕ}
    (hresult : vectorOf width count elements before = .ok offset after) : after.phase = .idle := by
  obtain ⟨_, writable, -, hresult⟩ := of_bind_ok hresult
  obtain ⟨_, idle, -, hresult⟩ := of_bind_ok hresult
  obtain ⟨_, opened, -, hresult⟩ := of_bind_ok hresult
  obtain ⟨_, filled, -, hresult⟩ := of_bind_ok hresult
  exact idle_after_endVector hresult

theorem vectorOf_rests (width count : ℕ) (elements : Build Unit) :
    Rests (vectorOf width count elements) :=
  fun _ _ _ hresult => (idle_after_vectorOf hresult).trans (idle_of_begin hresult).symm

theorem idle_after_stringBytes {bytes : List UInt8} {offset : ℕ}
    (hresult : stringBytes bytes before = .ok offset after) : after.phase = .idle := by
  obtain ⟨_, writable, -, hresult⟩ := of_bind_ok hresult
  obtain ⟨_, idle, -, hresult⟩ := of_bind_ok hresult
  obtain ⟨_, ended, -, hresult⟩ := of_bind_ok hresult
  exact idle_after_vectorOf hresult

theorem stringBytes_rests (bytes : List UInt8) : Rests (stringBytes bytes) :=
  fun _ _ _ hresult => (idle_after_stringBytes hresult).trans (idle_of_begin hresult).symm

theorem table_rests (fields : List Field) : Rests (table fields) := by
  intro before offset after hresult
  obtain ⟨_, started, hstarted, hresult⟩ := of_bind_ok hresult
  obtain ⟨_, filled, -, hresult⟩ := of_bind_ok hresult
  exact (idle_after_endTable hresult).trans (idle_of_begin hstarted).symm

theorem Rests.step {β : Type} {first : Build α} {next : α → Build β} (hfirst : Rests first)
    (hnext : ∀ ⦃before value after⦄, first before = .ok value after → Rests (next value)) :
    Rests (first >>= next) := by
  intro before value after hresult
  obtain ⟨between, middle, hmiddle, hlast⟩ := of_bind_ok hresult
  exact (hnext hmiddle hlast).trans (hfirst hmiddle)

/-- What closes at each step what it opens does so altogether. -/
theorem rests_sequences : Sequences @Rests where
  pure := fun value => (Leads.pure value).rests
  throw := fun {_ error} _ => (Leads.throw error).rests
  step := Rests.step
  look := fun _ hnext before _ _ hresult => hnext before hresult

/-- Every writer of a part of a model closes what it opens. -/
theorem rests_composes : Composes @Rests :=
  rests_sequences.composes (fun fields _ => table_rests fields) (fun _ _ => vectorOf_rests _ _ _)
    (fun _ => vectorOf_rests _ _ _) stringBytes_rests

/-! ## Fields and heads -/

/-- Adding a field takes its slot and notes at most one entry, for that slot. -/
theorem phase_after_addField {slot : Number} {field : Field}
    (hresult : addField slot field before = .ok () after) : ∃ opened index entries,
      before.phase = .table opened ∧ slot.toNat? = some index ∧ index < opened.limit ∧
        (∀ entry ∈ entries, entry.1 = index ∨ entry ∈ opened.entries) ∧
        after.phase = .table { opened with limit := index, entries } := by
  obtain ⟨opened, index, taken, hphase, hslot, hlimit, htaken, hadd⟩ := of_addField hresult
  refine ⟨opened, index, ?_⟩
  simp only [hphase, hslot, hlimit, true_and]
  rcases hadd with ⟨-, rfl⟩ | ⟨-, written, hwritten, hnoted⟩
  · exact ⟨_, fun _ => .inr, by rw [htaken]⟩
  · have hsame := ((continues_prepends.field field).ok hwritten).phase
    rw [htaken] at hsame
    rcases noteEntry_cases index written with ⟨other, hother, hdone⟩ | ⟨hclosed, -⟩
    · obtain rfl := Phase.table.inj (hsame.symm.trans hother)
      rw [hdone] at hnoted
      cases hnoted
      exact ⟨_, List.forall_mem_cons.mpr ⟨.inl rfl, fun _ => .inr⟩, rfl⟩
    · exact absurd hsame (hclosed _)

theorem phase_after_finish {root : Number} {options : FinishOptions}
    (hresult : finish root options before = .ok () after) : after.phase = .finished := by
  obtain ⟨_, writable, -, hresult⟩ := of_bind_ok hresult
  obtain ⟨_, idle, -, hresult⟩ := of_bind_ok hresult
  obtain ⟨_, begun, -, hresult⟩ := of_bind_ok hresult
  obtain ⟨_, rooted, -, hresult⟩ := of_bind_ok hresult
  split at hresult
  · obtain ⟨_, sized, -, hresult⟩ := of_bind_ok hresult
    cases hresult
    rfl
  · cases hresult
    rfl

/-- The bytes are those of a finished buffer, which stays as it is. -/
theorem of_bytes {result : List UInt8} (hresult : bytes before = .ok result after) :
    after = before ∧ result = before.written.bytes := by
  cases hphase : before.phase with
  | finished =>
      simp only [bytes, get_bind_apply, hphase] at hresult
      cases hresult
      exact ⟨rfl, rfl⟩
  | idle | table _ | vector _ =>
      simp only [bytes, get_bind_apply, hphase] at hresult
      cases hresult

end Build

/-! ## Calls -/

namespace Call

section

variable {before after : Builder} {answer : Answer}

theorem of_perform_nothing {computation : Build Unit}
    (hresult : perform.nothing computation before = .ok answer after) :
    computation before = .ok () after := by
  obtain ⟨_, next, hdone, hlast⟩ := Build.of_bind_ok hresult
  cases hlast
  exact hdone

theorem of_perform_map {α : Type} {computation : Build α} {form : α → Answer}
    (hresult : (form <$> computation) before = .ok answer after) :
    ∃ value, computation before = .ok value after ∧ answer = form value := by
  have hbind : (computation >>= fun value => pure (form value)) before = .ok answer after := hresult
  obtain ⟨value, next, hdone, hlast⟩ := Build.of_bind_ok hbind
  cases hlast
  exact ⟨value, hdone, rfl⟩

end

/-- Whether a call that succeeds begins, closes or finishes something. -/
def Settles : Call → Bool
  | startTable _ | endTable | startVector .. | endVector | scalars .. | offsets _ | string _
  | finish .. | clear => true
  | _ => false

/-- Whether a call closes what it opens, and nothing else. -/
def Still : Call → Prop
  | startTable _ | addField .. | endTable | startVector .. | endVector | finish .. | clear => False
  | _ => True

/-- How a call that succeeds changes what is open.  One that has to begin an object finds nothing
open. -/
inductive Moves (before after : Builder) : Call → Prop
  | still {call : Call} (hstill : call.Still) (hbegins : call.Settles → before.phase = .idle)
      (hphase : after.phase = before.phase) : Moves before after call
  | startTable {fieldCount : Number} {count : ℕ} (hcount : fieldCount.toNat? = some count)
      (hidle : before.phase = .idle)
      (hafter : after = { before with phase := .table ⟨count, before.written.size, count, []⟩ }) :
      Moves before after (.startTable fieldCount)
  | addField {slot : Number} {field : Field} {opened : OpenTable} {index : ℕ}
      {entries : List (ℕ × ℕ)} (hopened : before.phase = .table opened)
      (hslot : slot.toNat? = some index) (hlimit : index < opened.limit)
      (hentries : ∀ entry ∈ entries, entry.1 = index ∨ entry ∈ opened.entries)
      (hafter : after.phase = .table { opened with limit := index, entries }) :
      Moves before after (.addField slot field)
  | endTable {opened : OpenTable} (hopened : before.phase = .table opened)
      (hafter : after.phase = .idle) : Moves before after .endTable
  | startVector {elementSize count alignment : Number} {number : ℕ}
      (hcount : count.toNat? = some number) (hidle : before.phase = .idle)
      (hafter : after.phase = .vector ⟨count, elementSize * count, after.written.size⟩) :
      Moves before after (.startVector elementSize count alignment)
  | endVector {opened : OpenVector} (hopened : before.phase = .vector opened)
      (hlength : opened.byteLength.toNat? = some (before.written.size - opened.start))
      (hafter : after.phase = .idle) : Moves before after .endVector
  | finish {root : Number} {options : FinishOptions} (hidle : before.phase = .idle)
      (hafter : after.phase = .finished) : Moves before after (.finish root options)
  | clear (hafter : after = before.cleared) : Moves before after .clear

open Build in
/-- What a call that succeeds has done to what is open. -/
theorem moves {before after : Builder} {call : Call} {answer : Answer}
    (hresult : call.perform before = .ok answer after) : Moves before after call := by
  cases call with
  | prepare alignment additional =>
      exact .still trivial nofun
        ((continues_prepends.prepare _ _).rests (of_perform_nothing hresult))
  | write type value =>
      exact .still trivial nofun ((continues_prepends.write _ _).rests (of_perform_nothing hresult))
  | writeOffset target =>
      exact .still trivial nofun
        ((continues_prepends.writeOffset _).rests (of_perform_nothing hresult))
  | addField slot field =>
      obtain ⟨opened, index, entries, hopened, hslot, hlimit, hentries, hafter⟩ :=
        phase_after_addField (of_perform_nothing hresult)
      exact .addField hopened hslot hlimit hentries hafter
  | startTable fieldCount =>
      have hdone := of_perform_nothing hresult
      obtain ⟨count, hcount, rfl⟩ := (startTable_writes fieldCount).ok hdone
      exact .startTable hcount (idle_of_begin hdone) rfl
  | endTable =>
      obtain ⟨offset, hdone, -⟩ := of_perform_map hresult
      obtain ⟨opened, hopened⟩ := phase_of_endTable hdone
      exact .endTable hopened (idle_after_endTable hdone)
  | startVector elementSize count alignment =>
      have hdone := of_perform_nothing hresult
      obtain ⟨number, hcount⟩ := count_of_startVector hdone
      exact .startVector hcount (idle_of_begin hdone) (phase_of_startVector hdone)
  | endVector =>
      obtain ⟨offset, hdone, -⟩ := of_perform_map hresult
      obtain ⟨opened, hopened, hlength, -⟩ := of_endVector hdone
      exact .endVector hopened hlength (idle_after_endVector hdone)
  | scalars type values =>
      obtain ⟨offset, hdone, -⟩ := of_perform_map hresult
      exact .still trivial (fun _ => idle_of_begin hdone) (vectorOf_rests _ _ _ hdone)
  | offsets targets =>
      obtain ⟨offset, hdone, -⟩ := of_perform_map hresult
      exact .still trivial (fun _ => idle_of_begin hdone) (vectorOf_rests _ _ _ hdone)
  | string content =>
      obtain ⟨offset, hdone, -⟩ := of_perform_map hresult
      exact .still trivial (fun _ => idle_of_begin hdone) (stringBytes_rests content hdone)
  | attrs _ | payload _ | operator _ | constant _ | valueNode | node _ | graph _ | model _ =>
      exact .still trivial nofun (rests_composes.perform id hresult)
  | finish root options =>
      have hdone := of_perform_nothing hresult
      exact .finish (idle_of_begin hdone) (phase_after_finish hdone)
  | bytes =>
      obtain ⟨bytes, hdone, -⟩ := of_perform_map hresult
      exact .still trivial nofun (by rw [(of_bytes hdone).1])
  | offset =>
      cases hresult
      exact .still trivial nofun rfl
  | clear =>
      cases of_perform_nothing hresult
      exact .clear rfl

section

variable {before after : Builder} {call : Call} {answer : Answer}

theorem phase_of_still (hresult : call.perform before = .ok answer after) (hstill : call.Still) :
    after.phase = before.phase := by
  cases moves hresult with
  | still _ _ hphase => exact hphase
  | _ => exact hstill.elim

end

/-! ## What calls write -/

open Build in
/-- Only closing a table has to do with vtables. -/
theorem perform_extending {call : Call} (hbasic : call.Basic) (hkept : call ≠ .clear)
    (hopen : call ≠ .endTable) : Extending call.perform := by
  have hmap {α : Type} {computation : Build α} (hcomputation : Extending computation)
      (form : α → Answer) : Extending (computation >>= fun value => Pure.pure (form value)) :=
    extending_operates.bind hcomputation fun value => extending_operates.pure (form value)
  cases call with
  | prepare alignment additional =>
      exact hmap (extending_operates.prepare alignment additional) fun _ => .nothing
  | write type value => exact hmap (extending_operates.write type value) fun _ => .nothing
  | writeOffset target => exact hmap (extending_operates.writeOffset target) fun _ => .nothing
  | addField slot field => exact hmap (extending_operates.addField slot field) fun _ => .nothing
  | startTable fieldCount =>
      intro before answer after hresult
      obtain ⟨_, -, rfl⟩ := (startTable_writes fieldCount).ok (of_perform_nothing hresult)
      exact ⟨List.suffix_refl _, rfl, rfl, rfl⟩
  | endTable => exact absurd rfl hopen
  | startVector elementSize count alignment =>
      exact hmap (startVector_extending elementSize count alignment) fun _ => .nothing
  | endVector => exact hmap extending_operates.endVector .offset
  | scalars type values => exact hmap (extending_operates.scalars type values) .offset
  | offsets targets => exact hmap (extending_operates.offsets targets) .offset
  | string content => exact hmap (extending_operates.stringBytes content) .offset
  | attrs _ | payload _ | operator _ | constant _ | valueNode | node _ | graph _ | model _ =>
      exact hbasic.elim
  | finish root options => exact hmap (finish_extending root options) fun _ => .nothing
  | bytes => exact hmap extending_operates.bytes .bytes
  | offset => exact extending_operates.look (fun _ _ _ => rfl) fun _ => extending_operates.pure _
  | clear => exact absurd rfl hkept

open Build in
/-- A call that succeeds leaves the written bytes in place, unless it discards them. -/
theorem perform_appends {call : Call} (hkept : call ≠ .clear) : Appends call.perform := by
  by_cases hbasic : call.Basic
  · by_cases hopen : call = .endTable
    · subst hopen
      exact appends_sequences.bind endTable_appends fun _ => appends_sequences.pure _
    · exact (perform_extending hbasic hkept hopen).appends
  · exact appends_composes.perform hbasic

end Call

end GraphWire

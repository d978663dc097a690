import GraphWire.Proofs.Builder.Alignment
import GraphWire.Proofs.Session.Ledger

/-!
# The head of a session's buffer

Finishing makes room for the whole head at once, at the largest alignment that the session has asked
for.  None of its parts needs padding then if that is a multiple of four, which it is as soon as a
table has been closed.
-/

namespace GraphWire

/-! ## The alignments of a session -/

namespace Call

/-- Whether the alignments that a call asks for are powers of two and the bytes that it makes room
for are not less than none. -/
def Aligned : Call → Prop
  | prepare alignment additional =>
      (∃ exponent : ℕ, alignment = (2 ^ exponent : ℕ)) ∧ Number.atMost 0 additional = true
  | startVector _ _ alignment => ∃ exponent : ℕ, alignment = (2 ^ exponent : ℕ)
  | call => call.Basic

theorem Aligned.basic {call : Call} (haligned : call.Aligned) : call.Basic := by
  cases call <;> trivial

/-- The alignments that a call asks for: its own, those of the values that it writes, and those of
the count of a vector and of the parts of a table. -/
def alignments (force : Bool) : Call → List ℕ
  | prepare alignment _ => [alignment.toNat?.getD 0]
  | write type _ => [type.width]
  | writeOffset _ => [4]
  | addField _ field => ((field.kept force).map Content.width).toList
  | endTable => [4, 2]
  | startVector _ _ alignment => [4, alignment.toNat?.getD 0]
  | endVector => [4]
  | scalars type _ => [4, type.width]
  | offsets _ => [4]
  | string _ => [4, 1]
  | _ => []

end Call

/-- The alignments that were asked for in a buffer, after one more call that succeeds. -/
def noteAlignments (force : Bool) (used : List ℕ) : Call → Answer → List ℕ
  | .clear, _ => []
  | call, _ => call.alignments force ++ used

/-- Whether a buffer can still be finished, as far as is known from what is open.  A vector whose
elements would take no number of bytes is never closed. -/
def Phase.Completable : Phase → Prop
  | .idle | .table _ => True
  | .vector opened => ∃ length, opened.byteLength.toNat? = some length
  | .finished => False

/-- What can still be finished after a call could be so before it. -/
theorem Call.Moves.completable {before after : Builder} {call : Call}
    (hmoves : call.Moves before after) (hkept : call ≠ .clear)
    (hafter : after.phase.Completable) : before.phase.Completable := by
  cases hmoves with
  | still _ _ hphase => rwa [hphase] at hafter
  | startTable _ hidle _ | startVector _ hidle _ | finish hidle _ =>
      rw [hidle]
      trivial
  | addField hopened _ _ _ _ | endTable hopened _ =>
      rw [hopened]
      trivial
  | endVector hopened hlength _ =>
      rw [hopened]
      exact ⟨_, hlength⟩
  | clear => exact absurd rfl hkept

/-- A builder has been asked for the alignments of its session, with those of a table if there is
one. -/
structure Builder.Recalls (builder : Builder) (ledger : Ledger) (used : List ℕ) : Prop where
  notes : builder.phase.Completable → builder.Notes used
  table : ledger.closed ≠ [] → 4 ∈ used

namespace Build

variable {before after : Builder}

/-- The alignment of a vector that can be closed is within the limit. -/
theorem exponent_le_of_startVector (hsound : before.Sound) {elementSize count : Number}
    {exponent : ℕ}
    (hresult : startVector elementSize count (2 ^ exponent : ℕ) before = .ok () after)
    (hcompletable : after.phase.Completable) : exponent ≤ 31 := by
  have hphase := phase_of_startVector hresult
  rw [hphase] at hcompletable
  obtain ⟨length, hlength⟩ := hcompletable
  have hbytes : (elementSize * count).AtLeast 0 :=
    Or.inr ⟨length, Number.toRat?_of_toNat? hlength, by positivity⟩
  obtain ⟨-, -, -, -, hexponent, -⟩ :=
    (startVector_writes hsound exponent (fun _ _ => hbytes) 0).ok hresult
  exact hexponent

end Build

namespace Builder.Recalls

variable {before after : Builder} {settings : BuilderSettings} {ledger : Ledger}
  {tables : List PlacedTable} {used : List ℕ}

open Build

/-- A table brings the alignment of an offset. -/
theorem four_mem (hrecalls : before.Recalls ledger used) (call : Call) (answer : Answer)
    (size : ℕ) (hclosed : (ledger.after settings.forceDefaults size call answer).closed ≠ []) :
    4 ∈ noteAlignments settings.forceDefaults used call answer := by
  cases call with
  | endTable => exact List.mem_cons_self
  | clear => exact absurd rfl hclosed
  | _ => exact List.mem_append_right _ (hrecalls.table hclosed)

/-- A call that succeeds asks for its alignments. -/
theorem perform (haccounts : before.Accounts settings ledger tables) {call : Call}
    {answer : Answer} (haligned : call.Aligned) (hrecalls : before.Recalls ledger used)
    (hresult : call.perform before = .ok answer after) :
    after.Recalls (ledger.after settings.forceDefaults after.offset call answer)
      (noteAlignments settings.forceDefaults used call answer) := by
  by_cases hkept : call = .clear
  · subst hkept
    cases Call.of_perform_nothing hresult
    exact ⟨fun _ => ⟨rfl, nofun⟩, fun hclosed => absurd rfl hclosed⟩
  have hsound := haccounts.sound
  refine ⟨fun hafter => ?_, hrecalls.four_mem call answer after.offset⟩
  have hnotes := hrecalls.notes ((Call.moves hresult).completable hkept hafter)
  cases call with
  | prepare alignment additional =>
      obtain ⟨⟨exponent, rfl⟩, hadditional⟩ := haligned
      have hdone := Call.of_perform_nothing hresult
      obtain ⟨zeros, -, hexponent, -⟩ := (prepare_power_writes hsound exponent
        (Number.atLeast_of_atMost hadditional) 0).ok hdone
      simpa only [noteAlignments, Call.alignments, Number.toNat?_natCast, Option.getD_some] using
        prepare_asks ⟨exponent, hexponent, rfl⟩ _ hdone hnotes
  | write type value => exact write_asks type value (Call.of_perform_nothing hresult) hnotes
  | writeOffset target => exact writeOffset_asks target (Call.of_perform_nothing hresult) hnotes
  | addField slot field =>
      rw [← haccounts.obeys.forceDefaults]
      exact addField_notes (Call.of_perform_nothing hresult) hnotes
  | startTable fieldCount =>
      exact startTable_asks fieldCount (Call.of_perform_nothing hresult) hnotes
  | endTable =>
      obtain ⟨table, hdone, rfl⟩ := Call.of_perform_map hresult
      exact endTable_asks hdone hnotes
  | startVector elementSize count alignment =>
      obtain ⟨exponent, rfl⟩ := haligned
      have hdone := Call.of_perform_nothing hresult
      -- The alignment of a vector whose length is no number of bytes may be past the limit, but such
      -- a vector is never closed.
      have hexponent := exponent_le_of_startVector hsound hdone hafter
      simpa only [noteAlignments, Call.alignments, Number.toNat?_natCast, Option.getD_some] using
        startVector_asks elementSize count ⟨exponent, hexponent, rfl⟩ hdone hnotes
  | endVector =>
      obtain ⟨offset, hdone, rfl⟩ := Call.of_perform_map hresult
      exact endVector_asks hdone hnotes
  | scalars type values =>
      obtain ⟨offset, hdone, rfl⟩ := Call.of_perform_map hresult
      exact scalars_asks type values hdone hnotes
  | offsets targets =>
      obtain ⟨offset, hdone, rfl⟩ := Call.of_perform_map hresult
      exact offsets_asks targets hdone hnotes
  | string bytes =>
      obtain ⟨offset, hdone, rfl⟩ := Call.of_perform_map hresult
      exact stringBytes_asks bytes hdone hnotes
  | attrs _ | payload _ | operator _ | constant _ | valueNode | node _ | graph _ | model _ =>
      exact haligned.elim
  | finish root options =>
      rw [phase_after_finish (Call.of_perform_nothing hresult)] at hafter
      exact hafter.elim
  | bytes =>
      obtain ⟨bytes, hdone, rfl⟩ := Call.of_perform_map hresult
      obtain ⟨rfl, -⟩ := of_bytes hdone
      exact hnotes
  | offset =>
      cases hresult
      exact hnotes
  | clear => exact absurd rfl hkept

end Builder.Recalls

/-! ## Finishing a session -/

/-- A closed table lies inside what is written. -/
theorem Builder.Accounts.reaches {builder : Builder} {settings : BuilderSettings} {ledger : Ledger}
    {tables : List PlacedTable} (haccounts : builder.Accounts settings ledger tables)
    {closed : ClosedTable} (hclosed : closed ∈ ledger.closed) :
    Build.Reaches builder.written.size (closed.offset : Number) := by
  rw [haccounts.closed] at hclosed
  obtain ⟨placed, hplaced, rfl⟩ := List.mem_map.mp hclosed
  have hdistance := (haccounts.layouts placed hplaced).distance
  have hlength := hdistance.le_length
  have hpositive := hdistance.length_le
  rw [← builder.written.size_eq] at hlength
  refine ⟨_, Number.toNat?_natCast _, ?_, hlength⟩
  simp only [Build.vtableDistance, LittleEndian.length_split] at hpositive
  omega

/-- A buffer as it is when it has been finished: with its head in front of what was written, at a
multiple of all the alignments used. -/
structure Window.Finished (window : Window) (head : FinishOptions) (root : ℕ) (used : List ℕ)
    (written : List UInt8) : Prop where
  head : window.HasHead head root
  aligned : largestAlignment used ∣ window.length ∧ ∀ width ∈ used, width ∣ window.length
  suffix : written <:+ window.toList

/-- A session without errors that leaves nothing open can be finished with each of its tables,
unless the buffer would have to grow past the limit.  Its head then lies in front of what was
written, the parts next to each other, at a multiple of the largest alignment that the session asked
for. -/
theorem Builder.finish_layout {options : BuilderOptions} {settings : BuilderSettings}
    (hsettings : options.resolve = .ok settings) {calls : List Call}
    (haligned : ∀ call ∈ calls, call.Aligned) {answers : List Answer}
    (hrun : ((Builder.new settings).run calls).1 = answers.map .ok) {last : Builder}
    (hlast : ((Builder.new settings).run calls).2 = last) (hidle : last.phase = .idle)
    {closed : ClosedTable} (hclosed : closed ∈ ((Builder.new settings).account .empty calls).closed)
    {head : FinishOptions} (hhead : ∀ identifier ∈ head.identifier, Identifier.valid identifier) :
    let used := observe (noteAlignments settings.forceDefaults) [] (calls.zip answers)
    last.alignment = (largestAlignment used : ℕ) ∧
    match last.step (.finish closed.offset head) with
    | (.ok answer, finished) =>
        answer = .nothing ∧ last.finishRoom head ≤ Layout.maxBufferSize ∧
        finished.written.size = last.finishedSize head ∧
        finished.step .bytes = (.ok (.bytes finished.written.bytes), finished) ∧
        ∀ window : Window, window.toList = finished.written.bytes →
          window.Finished head closed.offset used last.written.bytes
    | (.error error, _) =>
        error = .capacityLimit ∧ Layout.maxBufferSize < last.finishRoom head := by
  intro used
  have hnew := Accounts.new hsettings
  obtain ⟨⟨tables, haccounts⟩, -⟩ := hnew.run (fun call hcall => (haligned call hcall).basic) hrun
  have hrecalls := Accounts.run_observe Recalls (noteAlignments settings.forceDefaults)
    (fun _ => Call.Aligned.basic) (fun haccounts => Recalls.perform haccounts) hnew
    (show Recalls _ _ [] from ⟨fun _ => .new settings, fun hclosed => absurd rfl hclosed⟩)
    haligned hrun
  rw [hlast] at haccounts hrecalls
  have hnotes : last.Notes used := hrecalls.notes (by rw [hidle]; trivial)
  have hmodest : last.Modest 2 31 := hnotes.modest (hrecalls.table (List.ne_nil_of_mem hclosed))
  have hfinish := Build.finish_room_writes haccounts.sound closed.offset head
  refine ⟨hnotes.alignment, ?_⟩
  rw [step_finish]
  cases hresult : Build.finish closed.offset head last with
  | ok value finished =>
      obtain ⟨offset, hoffset, -, hfinishes⟩ := hfinish.ok hresult
      obtain rfl : closed.offset = offset := by
        rwa [Number.toNat?_natCast, Option.some.injEq] at hoffset
      obtain ⟨hsize, hroom⟩ := hfinishes.exact hmodest
      refine ⟨rfl, hroom, hsize, step_bytes hfinishes.finished, ?_⟩
      intro window hwindow
      have hlength := Finishes.length_eq hwindow
      have hwhole := hnotes.dvd_finishedSize head
      rw [← hsize, ← hlength] at hwhole
      refine ⟨hfinishes.hasHead hmodest hwindow, ⟨hwhole, ?_⟩, ?_⟩
      · intro width hwidth
        exact (dvd_largestAlignment hnotes.powers hwidth).trans hwhole
      · rw [hwindow]
        exact hfinishes.suffix
  | error error failed =>
      exact hfinish.error ⟨hidle, hmodest, haccounts.reaches hclosed, hhead⟩ hresult

/-! ## A head with padding behind it -/

/-- A vector of two bytes at a multiple of sixteen, a byte of its own and a table that refers to the
vector. -/
def Call.spaced : List Call :=
  [.startVector 2 1 16, .write .uint16 (7 : Number), .endVector, .write .int8 (1 : Number),
    .startTable 1, .addField 0 (.reference 20), .endTable]

theorem Builder.finish_layout_spaced :
    ∃ bytes : List UInt8,
      ((Builder.new ⟨1024, false, true⟩).run
          (Call.spaced ++ [.finish 32 ⟨some "TEST", true⟩, .bytes])).1
        = [.ok .nothing, .ok .nothing, .ok (.offset 20), .ok .nothing, .ok .nothing, .ok .nothing,
          .ok (.offset 32), .ok .nothing, .ok (.bytes bytes)] ∧
      ((Builder.new ⟨1024, false, true⟩).run Call.spaced).2.written.size = 38 ∧
      bytes.length = 64 ∧
      Window.Finished (.ofList bytes) ⟨some "TEST", true⟩ 32 [4, 2, 4, 1, 4, 2, 4, 16]
        ((Builder.new ⟨1024, false, true⟩).run Call.spaced).2.written.bytes := by
  let answers : List Answer :=
    [.nothing, .nothing, .offset 20, .nothing, .nothing, .nothing, .offset 32]
  let bytes : List UInt8 := [60, 0, 0, 0, 28, 0, 0, 0, 84, 69, 83, 84] ++ List.replicate 14 0
    ++ [6, 0, 11, 0, 4, 0, 6, 0, 0, 0, 8, 0, 0, 0, 0, 0, 0, 1, 1, 0, 0, 0, 7, 0]
    ++ List.replicate 14 0
  have hsettings : BuilderOptions.resolve {} = .ok ⟨1024, false, true⟩ := by rfl
  have haligned : ∀ call ∈ Call.spaced, call.Aligned := by
    simp only [Call.spaced, List.forall_mem_cons, List.not_mem_nil, false_imp_iff,
      forall_true_iff]
    exact ⟨⟨4, rfl⟩, trivial, trivial, trivial, trivial, trivial, trivial, trivial⟩
  have hrun : ((Builder.new ⟨1024, false, true⟩).run
      (Call.spaced ++ [.finish 32 ⟨some "TEST", true⟩, .bytes])).1
      = answers.map .ok ++ [.ok .nothing, .ok (.bytes bytes)] := by decide +kernel
  have hidle : ((Builder.new ⟨1024, false, true⟩).run Call.spaced).2.phase = .idle := by
    decide +kernel
  have hsize : ((Builder.new ⟨1024, false, true⟩).run Call.spaced).2.written.size = 38 := by
    decide +kernel
  have htables : ((Builder.new ⟨1024, false, true⟩).account .empty Call.spaced).closed.map
      ClosedTable.offset = [32] := by decide +kernel
  obtain ⟨closed, _, hclosed, hoffset, -⟩ := List.map_eq_cons_iff.mp htables
  obtain ⟨hcalls, finished, hfinish, hbytes⟩ := run_finish hrun
  have hvalid : ∀ identifier ∈ (⟨some "TEST", true⟩ : FinishOptions).identifier,
      Identifier.valid identifier = true := by decide
  obtain ⟨-, hlayout⟩ := finish_layout hsettings haligned hcalls rfl hidle
    (hclosed ▸ List.mem_cons_self) hvalid
  have hstep : ((Builder.new ⟨1024, false, true⟩).run Call.spaced).2.step
      (.finish closed.offset ⟨some "TEST", true⟩) = (.ok .nothing, finished) := by
    rw [step_finish, hoffset, show ((32 : ℕ) : Number) = 32 from rfl, hfinish]
  rw [hstep, hoffset] at hlayout
  obtain ⟨-, -, -, -, hfinished⟩ := hlayout
  exact ⟨bytes, hrun, hsize, by decide,
    hfinished (.ofList bytes) ((Window.toList_ofList bytes).trans hbytes.symm)⟩

/-- At an alignment of half the limit there is no room for a head. -/
theorem Builder.finish_layout_limit :
    ∃ calls : List Call, ∃ last : Builder, (∀ call ∈ calls, call.Aligned) ∧
      BuilderOptions.resolve { initialSize := some 2147483647 } = .ok ⟨2147483647, false, true⟩ ∧
      (Builder.new ⟨2147483647, false, true⟩).run calls
        = ([.ok .nothing, .ok (.offset 4), .ok .nothing, .ok (.offset 8)], last) ∧
      last.phase = .idle ∧ (last.step (.finish 8 {})).1 = .error .capacityLimit := by
  let calls : List Call := [.startVector 1 0 (2 ^ 30 : ℕ), .endVector, .startTable 0, .endTable]
  have haligned : ∀ call ∈ calls, call.Aligned := by
    simp only [calls, List.forall_mem_cons, List.not_mem_nil, false_imp_iff, forall_true_iff]
    exact ⟨⟨30, rfl⟩, trivial, trivial, trivial, trivial⟩
  have hrun : ((Builder.new ⟨2147483647, false, true⟩).run calls).1
      = [.ok .nothing, .ok (.offset 4), .ok .nothing, .ok (.offset 8)] := by decide +kernel
  exact ⟨calls, _, haligned, by rfl, Prod.ext hrun rfl, by decide +kernel, by decide +kernel⟩

end GraphWire

import GraphWire.Proofs.Builder.Progress
import GraphWire.Proofs.Builder.Refusal
import GraphWire.Proofs.Session.Agreement

/-!
# The life cycle of a builder

A caller knows from the calls and their outcomes what is open (`Usage`): at most one of a table and
a vector, and neither of them once the buffer is finished.  What it knows is what the builder is in
the middle of (`Usage.Matches`).  A finished buffer takes no call that could write until it is
cleared, and an argument that can never be meant is refused before anything happens.
-/

namespace GraphWire

/-! ## Writers of whole objects -/

namespace Build

variable {α : Type}

/-- A finished buffer refuses the object at the end, if not already what comes before it. -/
theorem Inert.seals {β : Type} {first : Build α} {next : α → Build β} (hfirst : Inert first)
    (hnext : ∀ value, Sealed (next value)) : Sealed (first >>= next) := by
  intro builder hfinished
  rcases hfirst hfinished with ⟨value, hvalue⟩ | ⟨error, herror, hmisuse⟩
  · rw [bind_of_ok hvalue]
    exact hnext value hfinished
  · exact ⟨error, bind_of_error herror, hmisuse⟩

theorem operator_sealed (operator : Operator) : Sealed operator.write := by
  apply (inert_composes.reference (inert_composes.scalars .uint32) _).seals
  intro _
  exact (inert_composes.reference inert_composes.attrs _).seals fun _ => table_sealed _

theorem constant_sealed (constant : Constant) : Sealed constant.write := by
  apply (inert_composes.reference (inert_composes.scalars .uint32) _).seals
  intro _
  exact (inert_composes.reference inert_composes.payload _).seals fun _ => table_sealed _

theorem payload_sealed (payload : Payload) : Sealed payload.write := by
  obtain ⟨kind, data⟩ := payload
  cases kind with
  | floats =>
      exact (inert_composes.reference (inert_composes.scalars .float32) data).seals
        fun _ => table_sealed _
  | ints =>
      exact (inert_composes.reference (inert_composes.scalars .int32) data).seals
        fun _ => table_sealed _

theorem node_sealed (node : Node) : Sealed node.write := by
  apply (inert_composes.reference inert_composes.string _).seals
  intro _
  exact (inert_composes.reference inert_composes.nodeData _).seals fun _ => table_sealed _

end Build

/-! ## What a caller knows -/

/-- What a caller knows to be open: the number of slots of the open table with those taken so far,
the latest first, then whether a vector is open, and whether the buffer is finished. -/
structure Usage where
  table : Option (ℕ × List ℕ) := none
  vector : Bool := false
  finished : Bool := false
deriving DecidableEq, Repr

namespace Usage

/-- What changes when a call succeeds. -/
def accept (usage : Usage) : Call → Usage
  | .startTable fieldCount => { usage with table := some (fieldCount.toNat?.getD 0, []) }
  | .addField slot _ =>
      { usage with
        table := usage.table.map fun (count, slots) => (count, slot.toNat?.getD 0 :: slots) }
  | .endTable => { usage with table := none }
  | .startVector .. => { usage with vector := true }
  | .endVector => { usage with vector := false }
  | .finish .. => { usage with finished := true }
  | .clear => {}
  | _ => usage

/-- What is known after a call.  One that begins, closes or finishes something tells by its success
what is open, whatever was known before.  An argument that is refused changes nothing, and no more
does any other error while a table is open or once the buffer is finished; else nothing is known
after it. -/
def after (usage? : Option Usage) (call : Call) : Except BuildError Answer → Option Usage
  | .ok _ =>
      if call.Settles then some ((usage?.getD {}).accept call) else usage?.map (·.accept call)
  | .error (.argument _) => usage?
  | .error _ => usage?.filter fun usage => usage.table.isSome || usage.finished

/-- What is known after some calls. -/
def follow (usage? : Option Usage) (done : List (Call × Except BuildError Answer)) :
    Option Usage :=
  done.foldl (fun usage? step => after usage? step.1 step.2) usage?

end Usage

/-- The slots of an open table that were taken, the latest first: each below those before it, and
among them all that have a value. -/
structure OpenTable.Taken (opened : OpenTable) (slots : List ℕ) : Prop where
  ascending : slots.Pairwise (· < ·)
  bounds : ∀ slot ∈ slots, opened.limit ≤ slot ∧ slot < opened.fieldCount
  entries : ∀ entry ∈ opened.entries, entry.1 ∈ slots
  limit_le : opened.limit ≤ opened.fieldCount

namespace OpenTable.Taken

variable {opened : OpenTable} {slots : List ℕ} {index : ℕ}

/-- A slot is taken, and maybe a value noted for it. -/
theorem take (htaken : opened.Taken slots) (hindex : index < opened.limit)
    {entries : List (ℕ × ℕ)}
    (hentries : ∀ entry ∈ entries, entry.1 = index ∨ entry ∈ opened.entries) :
    OpenTable.Taken { opened with limit := index, entries } (index :: slots) := by
  have hlimit := htaken.limit_le
  refine ⟨.cons ?_ htaken.ascending, ?_, ?_, (Nat.le_of_lt hindex).trans hlimit⟩
  · intro slot hslot
    exact hindex.trans_le (htaken.bounds slot hslot).1
  · rintro slot (_ | ⟨_, hslot⟩)
    · exact ⟨le_refl _, hindex.trans_le hlimit⟩
    · obtain ⟨habove, hbelow⟩ := htaken.bounds slot hslot
      exact ⟨(Nat.le_of_lt hindex).trans habove, hbelow⟩
  · intro entry hentry
    rcases hentries entry hentry with hsame | hearlier
    · exact hsame ▸ .head _
    · exact .tail _ (htaken.entries entry hearlier)

/-- Slots are passed over. -/
theorem lower (htaken : opened.Taken slots) {limit : ℕ} (hlimit : limit ≤ opened.limit) :
    OpenTable.Taken { opened with limit } slots where
  ascending := htaken.ascending
  bounds := fun slot hslot =>
    ⟨hlimit.trans (htaken.bounds slot hslot).1, (htaken.bounds slot hslot).2⟩
  entries := htaken.entries
  limit_le := hlimit.trans htaken.limit_le

end OpenTable.Taken

/-- What a caller knows is what the builder is in the middle of. -/
def Usage.Matches (usage : Usage) : Phase → Prop
  | .idle => usage = {}
  | .table opened =>
      ∃ slots, usage = { table := some (opened.fieldCount, slots) } ∧ opened.Taken slots
  | .vector _ => usage = { vector := true }
  | .finished => usage = { finished := true }

/-! ## Calls -/

section Calls

open Build

variable {before after : Builder} {usage : Usage}

/-- No call, whether or not it succeeds, takes the fields of an open table out of order. -/
theorem Call.perform_onward (call : Call) : Leads Builder.Onward call.perform :=
  onward_encloses.perform (fun _ => .throw _) startTable_onward addField_onward endTable_onward
    markFinished_onward clear_onward call

/-- A call that refuses an argument leaves the builder as it was. -/
theorem Call.perform_restores (call : Call) : Restores call.perform := by
  cases call with
  | prepare alignment additional =>
      exact (meant_operates.prepare alignment additional).restores.map _
  | write type value => exact (meant_operates.write type value).restores.map _
  | writeOffset target => exact (meant_operates.writeOffset target).restores.map _
  | addField slot field => exact (meant_operates.addField slot field).restores.map _
  | startTable fieldCount => exact (startTable_restores fieldCount).map _
  | endTable => exact endTable_meant.restores.map _
  | startVector elementSize count alignment =>
      exact (startVector_restores elementSize count alignment).map _
  | endVector => exact (Meant.restores meant_operates.endVector).map _
  | scalars type values => exact (meant_operates.scalars type values).restores.map _
  | offsets targets => exact (meant_operates.offsets targets).restores.map _
  | string content => exact (meant_operates.stringBytes content).restores.map _
  | attrs _ | payload _ | operator _ | constant _ | valueNode | node _ | graph _ | model _ =>
      exact (meant_composes.perform id).restores
  | finish root options => exact (finish_restores root options).map _
  | bytes => exact (Meant.restores meant_operates.bytes).map _
  | offset => exact .look fun _ => (meant_operates.pure _).restores
  | clear => exact (Meant.change _).restores.map _

/-- A call that fails while a table is open leaves the table open. -/
theorem Call.perform_fails (call : Call) : Fails Builder.HoldsOpen call.perform := by
  cases call with
  | prepare alignment additional => exact (continues_prepends.prepare _ _).holdsOpen.fails.map _
  | write type value => exact (continues_prepends.write _ _).holdsOpen.fails.map _
  | writeOffset target => exact (continues_prepends.writeOffset _).holdsOpen.fails.map _
  | addField slot field => exact (addField_fails slot field).map _
  | startTable fieldCount => exact (begin_holdsOpen _).fails.map _
  | endTable => exact endTable_holdsOpen.map _
  | startVector elementSize count alignment => exact (begin_holdsOpen _).fails.map _
  | endVector => exact endVector_fails.map _
  | scalars type values => exact (begin_holdsOpen _).fails.map _
  | offsets targets => exact (begin_holdsOpen _).fails.map _
  | string content => exact (begin_holdsOpen _).fails.map _
  | attrs _ | payload _ | operator _ | constant _ | valueNode | node _ | graph _ | model _ =>
      exact (holdsOpen_composes.perform id).fails
  | finish root options => exact (begin_holdsOpen _).fails.map _
  | bytes => exact Leads.sequences.bytes.fails.map _
  | offset => exact .look fun _ => .pure _
  | clear => exact (Fails.change _).map _

theorem Usage.accept_of_still {call : Call} (hstill : call.Still) : usage.accept call = usage := by
  cases call with
  | startTable _ | addField _ _ | endTable | startVector _ _ _ | endVector | finish _ _ | clear =>
      exact hstill.elim
  | _ => rfl

/-- What a caller knows stays what the builder is in the middle of. -/
theorem Usage.Matches.perform (hmatches : usage.Matches before.phase) {call : Call}
    {answer : Answer} (hresult : call.perform before = .ok answer after) :
    (usage.accept call).Matches after.phase := by
  cases Call.moves hresult with
  | still hstill _ hphase =>
      rw [accept_of_still hstill, hphase]
      exact hmatches
  | startTable hcount hidle hafter =>
      rw [hidle] at hmatches
      subst hmatches hafter
      exact ⟨[], by simp only [accept, hcount, Option.getD_some], .nil, nofun, nofun, le_refl _⟩
  | addField hopened hslot hlimit hentries hafter =>
      rw [hopened] at hmatches
      obtain ⟨slots, rfl, hslots⟩ := hmatches
      rw [hafter]
      refine ⟨_, ?_, hslots.take hlimit hentries⟩
      simp only [accept, hslot, Option.map_some, Option.getD_some]
  | endTable hopened hafter =>
      rw [hopened] at hmatches
      obtain ⟨slots, rfl, -⟩ := hmatches
      rw [hafter]
      rfl
  | startVector _ hidle hafter =>
      rw [hidle] at hmatches
      rw [hafter, hmatches]
      rfl
  | endVector hopened _ hafter =>
      rw [hopened] at hmatches
      rw [hafter, hmatches]
      rfl
  | finish hidle hafter =>
      rw [hidle] at hmatches
      rw [hafter, hmatches]
      rfl
  | clear hafter =>
      subst hafter
      rfl

/-- A call that begins, closes or finishes something tells by its success what is open. -/
theorem Call.matches_of_settles {call : Call} (hsettles : call.Settles) {answer : Answer}
    (hresult : call.perform before = .ok answer after) :
    (({} : Usage).accept call).Matches after.phase := by
  have hbegun (hidle : before.phase = .idle) : (({} : Usage).accept call).Matches after.phase := by
    apply Usage.Matches.perform _ hresult
    rw [hidle]
    rfl
  cases Call.moves hresult with
  | still _ hbegins _ => exact hbegun (hbegins hsettles)
  | startTable _ hidle _ | startVector _ hidle _ | finish hidle _ => exact hbegun hidle
  | addField => cases hsettles
  | endTable _ hafter | endVector _ _ hafter =>
      rw [hafter]
      rfl
  | clear hafter =>
      subst hafter
      rfl

/-- A finished buffer refuses every call that could write. -/
theorem Call.perform_sealed (call : Call) (hbytes : call ≠ .bytes) (hoffset : call ≠ .offset)
    (hclear : call ≠ .clear) : Sealed call.perform := by
  cases call with
  | prepare alignment additional => exact (prepare_sealed _ _).bind _
  | write type value => exact (write_sealed _ _).bind _
  | writeOffset target => exact (writeOffset_sealed _).bind _
  | addField slot field => exact (addField_sealed _ _).bind _
  | startTable fieldCount => exact (startTable_sealed _).bind _
  | endTable => exact endTable_sealed.bind _
  | startVector elementSize count alignment => exact (startVector_sealed _ _ _).bind _
  | endVector => exact endVector_sealed.bind _
  | scalars type values => exact (vectorOf_sealed _ _ _).bind _
  | offsets targets => exact (vectorOf_sealed _ _ _).bind _
  | string content => exact (stringBytes_sealed _).bind _
  | attrs content =>
      have hwrite : Sealed content.write :=
        (inert_composes.writeFields content.record).seals fun _ => table_sealed _
      exact hwrite.bind _
  | payload content => exact (payload_sealed content).bind _
  | operator content => exact (operator_sealed content).bind _
  | constant content => exact (constant_sealed content).bind _
  | valueNode => exact (table_sealed []).bind _
  | node content => exact (node_sealed content).bind _
  | graph content =>
      have hwrite : Sealed content.write :=
        (inert_composes.reference inert_composes.writeNodes _).seals fun _ => table_sealed _
      exact hwrite.bind _
  | model content =>
      have hwrite : Sealed content.write :=
        (inert_composes.reference inert_composes.graph _).seals fun _ => table_sealed _
      exact hwrite.bind _
  | finish root options => exact (finish_sealed _ _).bind _
  | bytes => exact absurd rfl hbytes
  | offset => exact absurd rfl hoffset
  | clear => exact absurd rfl hclear

end Calls

/-! ## Runs -/

/-- The outcome of a call on a finished buffer: its bytes, their number, or a refusal. -/
def Builder.Closed (builder : Builder) : Call → Except BuildError Answer → Prop
  | .bytes, outcome => outcome = .ok (.bytes builder.written.bytes)
  | .offset, outcome => outcome = .ok (.offset builder.offset)
  | _, outcome => ∃ error, outcome = .error error ∧ error.IsMisuse

/-- What a caller knows is so: at most one of a table and a vector is open, neither when the buffer
is finished, and the slots that were taken descend, are slots of the open table, and are those that
its values are noted for. -/
structure Builder.InUse (builder : Builder) (usage : Usage) : Prop where
  single : ¬(usage.table.isSome ∧ usage.vector)
  sealed : usage.finished → usage.table = none ∧ ¬usage.vector
  vector_iff : usage.vector ↔ ∃ opened, builder.phase = .vector opened
  finished_iff : usage.finished ↔ builder.phase = .finished
  closed : usage.table = none → ∀ opened, builder.phase ≠ .table opened
  slots : ∀ ⦃count slots⦄, usage.table = some (count, slots) →
    slots.Pairwise (· < ·) ∧ (∀ slot ∈ slots, slot < count) ∧
      ∃ opened, builder.phase = .table opened ∧ opened.fieldCount = count ∧
        ∀ entry ∈ opened.entries, entry.1 ∈ slots

theorem Usage.Matches.inUse {builder : Builder} {usage : Usage}
    (hmatches : usage.Matches builder.phase) : builder.InUse usage := by
  cases hphase : builder.phase with
  | idle =>
      rw [hphase] at hmatches
      obtain rfl := hmatches
      constructor <;> simp [hphase]
  | vector opened =>
      rw [hphase] at hmatches
      obtain rfl := hmatches
      constructor <;> simp [hphase]
  | finished =>
      rw [hphase] at hmatches
      obtain rfl := hmatches
      constructor <;> simp [hphase]
  | table opened =>
      rw [hphase] at hmatches
      obtain ⟨slots, rfl, htaken⟩ := hmatches
      refine ⟨by simp, by simp, by simp [hphase], by simp [hphase], by simp, ?_⟩
      rintro count slots ⟨⟩
      exact ⟨htaken.ascending, fun slot hslot => (htaken.bounds slot hslot).2, opened, hphase, rfl,
        htaken.entries⟩

namespace Builder

variable {builder : Builder}

/-- The builder after a call is the one that its computation leaves. -/
theorem step_snd (builder : Builder) (call : Call) :
    (builder.step call).2 = Build.leaves call.perform builder := by
  unfold step Build.leaves
  cases call.perform builder <;> rfl

/-- What each call leads to, the whole run leads to. -/
theorem run_leads {related : Builder → Builder → Prop} [IsPreorder Builder related]
    {calls : List Call} (hcalls : ∀ call ∈ calls, Build.Leads related call.perform)
    (builder : Builder) : related builder (builder.run calls).2 := by
  induction calls generalizing builder with
  | nil => exact refl_of related builder
  | cons call calls ih =>
      obtain ⟨hcall, hlater⟩ := List.forall_mem_cons.mp hcalls
      have hnext := hcall builder
      rw [← step_snd] at hnext
      rw [run_cons]
      exact trans_of related hnext (ih hlater _)

theorem Orderly.run (horderly : builder.Orderly) (calls : List Call) :
    (builder.run calls).2.Orderly :=
  run_leads (fun call _ => call.perform_onward) builder horderly

theorem step_eq_error {call : Call} {error : BuildError} {next : Builder}
    (hstep : builder.step call = (.error error, next)) :
    call.perform builder = .error error next := by
  unfold step at hstep
  cases hresult : call.perform builder with
  | ok answer after => simp [hresult] at hstep
  | error error' after =>
      simp only [hresult, Prod.mk.injEq, Except.error.injEq] at hstep
      obtain ⟨rfl, rfl⟩ := hstep
      rfl

/-- A call that refuses an argument is as if it had not been made. -/
theorem step_argument {call : Call} {cause : ArgumentError}
    (hstep : (builder.step call).1 = .error (.argument cause)) :
    builder.step call = (.error (.argument cause), builder) := by
  have hsame := call.perform_restores (step_eq_error (Prod.ext hstep rfl))
  exact Prod.ext hstep hsame

/-- A finished buffer answers with its bytes and refuses everything else. -/
theorem step_closed (hfinished : builder.phase = .finished) {call : Call} (hclear : call ≠ .clear) :
    builder.Closed call (builder.step call).1 ∧ (builder.step call).2 = builder := by
  by_cases hbytes : call = .bytes
  · subst hbytes
    rw [step_bytes hfinished]
    exact ⟨rfl, rfl⟩
  by_cases hoffset : call = .offset
  · subst hoffset
    exact ⟨rfl, rfl⟩
  obtain ⟨error, herror, hmisuse⟩ := call.perform_sealed hbytes hoffset hclear hfinished
  have hstep : builder.step call = (.error error, builder) := by
    simp only [step, herror]
  rw [hstep]
  refine ⟨?_, rfl⟩
  cases call with
  | bytes => exact absurd rfl hbytes
  | offset => exact absurd rfl hoffset
  | _ => exact ⟨error, rfl, hmisuse⟩

/-- What is known of an open table or of a finished buffer outlasts an error. -/
theorem matches_of_error {usage : Usage} (hmatches : usage.Matches builder.phase)
    (hsure : usage.table.isSome ∨ usage.finished) {call : Call} {error : BuildError}
    {next : Builder} (hstep : builder.step call = (.error error, next)) :
    usage.Matches next.phase := by
  cases hphase : builder.phase with
  | table opened =>
      rw [hphase] at hmatches
      obtain ⟨slots, rfl, htaken⟩ := hmatches
      obtain ⟨limit, hlimit, hafter⟩ := call.perform_fails (step_eq_error hstep) opened hphase
      rw [hafter]
      exact ⟨slots, rfl, htaken.lower hlimit⟩
  | finished =>
      have hclear : call ≠ .clear := by
        rintro rfl
        cases hstep
      have hsame := (step_closed hphase hclear).2
      rw [hstep] at hsame
      obtain rfl := hsame
      exact hmatches
  | idle =>
      rw [hphase] at hmatches
      cases hmatches
      simp at hsure
  | vector opened =>
      rw [hphase] at hmatches
      cases hmatches
      simp at hsure

/-- What is known before a call is known to the point after it. -/
theorem step_matches {usage? : Option Usage}
    (hknown : ∀ usage ∈ usage?, usage.Matches builder.phase) (call : Call) :
    ∀ usage ∈ Usage.after usage? call (builder.step call).1,
      usage.Matches (builder.step call).2.phase := by
  intro usage husage
  cases hstep : builder.step call with
  | mk outcome next =>
      rw [hstep] at husage
      cases outcome with
      | ok answer =>
          have hdone := step_eq_ok hstep
          have hkept : ∀ known ∈ usage?, (known.accept call).Matches next.phase :=
            fun known hsome => (hknown known hsome).perform hdone
          simp only [Usage.after] at husage
          split at husage
          · next hsettles =>
              cases husage
              cases usage? with
              | none => exact Call.matches_of_settles hsettles hdone
              | some known => exact hkept known rfl
          · obtain ⟨known, hsome, rfl⟩ := Option.map_eq_some_iff.mp husage
            exact hkept known hsome
      | error error =>
          cases error with
          | argument cause =>
              rw [step_argument (congrArg Prod.fst hstep)] at hstep
              cases hstep
              exact hknown usage husage
          | _ =>
              obtain ⟨hsome, hsure⟩ := Option.filter_eq_some_iff.mp husage
              exact matches_of_error (hknown usage hsome) (by simpa using hsure) hstep

theorem run_matches {usage? : Option Usage}
    (hknown : ∀ usage ∈ usage?, usage.Matches builder.phase) (calls : List Call) :
    ∀ usage ∈ Usage.follow usage? (calls.zip (builder.run calls).1),
      usage.Matches (builder.run calls).2.phase := by
  induction calls generalizing builder usage? with
  | nil => exact hknown
  | cons call calls ih =>
      rw [run_cons]
      exact ih (step_matches hknown call)

theorem run_closed (hfinished : builder.phase = .finished) {calls : List Call}
    (hclear : .clear ∉ calls) :
    List.Forall₂ builder.Closed calls (builder.run calls).1 ∧ (builder.run calls).2 = builder := by
  induction calls with
  | nil => exact ⟨.nil, rfl⟩
  | cons call calls ih =>
      rw [List.mem_cons, not_or] at hclear
      obtain ⟨houtcome, hsame⟩ := step_closed hfinished (Ne.symm hclear.1)
      obtain ⟨hlater, hlast⟩ := ih hclear.2
      rw [run_cons, hsame]
      exact ⟨.cons houtcome hlater, hlast⟩

/-- The life cycle of a builder, over every run, errors included.  The values of an open table are
behind each other in the order of their slots.  What a caller knows from the calls and their
outcomes is so: at most one of a table and a vector is open, neither once the buffer is finished,
and the slots that a table took descend, whatever else it refused in between.  After a finish that
succeeds every call that could write is refused as misuse, whatever its arguments, and the bytes
stay the same, until the builder is cleared.  A call that refuses an argument is, in any state, as
if it had not been made. -/
theorem life_cycle (settings : BuilderSettings) (calls : List Call) :
    let ran := (Builder.new settings).run calls
    ran.2.Orderly ∧
    (∀ usage ∈ Usage.follow (some {}) (calls.zip ran.1), ran.2.InUse usage) ∧
    (∀ root options later, (ran.2.step (.finish root options)).1 = .ok .nothing → .clear ∉ later →
      let finished := (ran.2.step (.finish root options)).2
      List.Forall₂ finished.Closed later (finished.run later).1 ∧
        (finished.run later).2 = finished) ∧
    ∀ (builder : Builder) (call : Call) (cause : ArgumentError) (later : List Call),
      (builder.step call).1 = .error (.argument cause) →
        builder.run (call :: later)
          = (.error (.argument cause) :: (builder.run later).1, (builder.run later).2) := by
  intro ran
  have horderly : (Builder.new settings).Orderly := orderly_of_phase nofun
  have hknown : ∀ usage ∈ some ({} : Usage), usage.Matches (Builder.new settings).phase := by
    rintro usage ⟨⟩
    rfl
  refine ⟨horderly.run calls, ?_, ?_, ?_⟩
  · intro usage husage
    exact (run_matches hknown calls usage husage).inUse
  · intro root options later hfinish hclear
    have hdone := step_eq_ok (Prod.ext hfinish rfl)
    exact run_closed (Build.phase_after_finish (Call.of_perform_nothing hdone)) hclear
  · intro builder call cause later hrefused
    rw [run_cons, step_argument hrefused]

/-- A run with a refused argument, an elided field, and errors before its table is open, while it is
and after it is finished. -/
theorem life_cycle_elided :
    let opening : List Call := [.startVector 4 (Number.ofInt (-1)) 4, .write .uint8 (300 : Number),
      .startTable 3, .addField 2 (.scalar .int32 (7 : Number) (7 : Number)),
      .addField 2 (.reference 0), .string [],
      .addField 1 (.scalar .int32 (5 : Number) (0 : Number))]
    let later : List Call := [.addField 0 (.reference 0), .startTable (Number.ofInt (-1)),
      .payload ⟨.ints, none⟩, .bytes]
    let opened := ((Builder.new ⟨1024, false, true⟩).run opening).2
    let ended := ((Builder.new ⟨1024, false, true⟩).run (opening ++ [.endTable])).2
    let finished := (ended.step (.finish 8 {})).2
    opened.InUse { table := some (3, [1, 2]) } ∧ ended.InUse {} ∧
      List.Forall₂ finished.Closed later (finished.run later).1 ∧
      (finished.run later).2 = finished ∧ finished.offset = 20 ∧
      (Builder.new ⟨1024, false, true⟩).run opening
        = (.error (.argument (.elementCount (Number.ofInt (-1)))) ::
            ((Builder.new ⟨1024, false, true⟩).run opening.tail).1, opened) := by
  intro opening later opened ended finished
  obtain ⟨-, hopened, -, hrefused⟩ := life_cycle ⟨1024, false, true⟩ opening
  obtain ⟨-, hended, hclosed, -⟩ := life_cycle ⟨1024, false, true⟩ (opening ++ [.endTable])
  have hfinish : (ended.step (.finish 8 {})).1 = .ok .nothing := by decide +kernel
  obtain ⟨houtcomes, hsame⟩ := hclosed 8 {} later hfinish (by simp [later])
  exact ⟨hopened _ (by decide +kernel), hended _ (by decide +kernel), houtcomes, hsame,
    by decide +kernel, hrefused _ _ _ _ (by decide +kernel)⟩

end Builder

end GraphWire

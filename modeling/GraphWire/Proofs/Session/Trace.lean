import GraphWire.Proofs.Builder.Laying
import GraphWire.Proofs.Session.LifeCycle

/-!
# The parts that a session writes

What is in a buffer can be told from the calls that were made on it (`Builder.Traced`).  A call that
succeeds adds the parts that it is known to write, and one that fails adds at most some of those
that it was going to write.  Between the parts there are only zero bytes, in any state that a
session reaches.
-/

namespace GraphWire

/-! ## Calls -/

namespace Call

/-- Whether the alignments that a call asks for are powers of two. -/
def Powered : Call → Prop
  | prepare alignment _ => ∃ exponent : ℕ, alignment = (2 ^ exponent : ℕ)
  | startVector _ _ alignment => ∃ exponent : ℕ, alignment = (2 ^ exponent : ℕ)
  | _ => True

/-- The parts that a call has written when it has succeeded, those in front first. -/
def written (before after : Builder) : Call → List (ℕ × Part)
  | write type value => [(after.offset, .content (.scalar type value))]
  | writeOffset target => [(after.offset, .content (.reference (target.toNat?.getD 0)))]
  | addField _ field =>
      ((field.kept before.forceDefaults).map fun content =>
        (after.offset, Part.content content)).toList
  | endTable =>
      match before.phase with
      | .table opened =>
          before.linkParts before.tableEnd (before.closingWords opened) after.offset
      | _ => []
  | endVector =>
      match before.phase with
      | .vector opened => [(after.offset, .content (.scalar .uint32 opened.count))]
      | _ => []
  | scalars type values =>
      (after.offset, .content (.scalar .uint32 (values.length : Number)))
        :: Part.stack (after.offset - 4) (values.map (Build.scalarColumn type).part)
  | offsets targets =>
      (after.offset, .content (.scalar .uint32 (targets.length : Number)))
        :: Part.stack (after.offset - 4) (targets.map Build.offsetColumn.part)
  | string text =>
      [(after.offset, .content (.scalar .uint32 (text.length : Number))),
        (after.offset - 4, .text text),
        (before.offset + 1, .content (.scalar .int8 (0 : Number)))]
  | finish root options => before.headParts root options after.offset
  | _ => []

/-- The parts that a call may have written when it has failed. -/
def Tries (before : Builder) : Call → Part → Prop
  | endTable, part => ∃ opened, before.phase = .table opened ∧
      Build.entryColumn.Has (before.closingWords opened) part
  | scalars type values, part => (Build.scalarColumn type).Has values part
  | offsets targets, part => Build.offsetColumn.Has targets part
  | string text, part => part = .text text ∨ part = .content (.scalar .int8 (0 : Number))
  | finish root options, part =>
      (∃ identifier ∈ options.identifier, part = .text (Identifier.toBytes identifier)) ∨
        part = .content (.reference (root.toNat?.getD 0))
  | _, _ => False

/-- What is in the buffer after a call that succeeds. -/
def keeping (before after : Builder) (behind : List (ℕ × Part)) : Call → List (ℕ × Part)
  | clear => []
  | call => call.written before after ++ behind

end Call

open Build in
/-- A call lays its parts in front, some of those it was going to lay if it fails. -/
theorem Call.perform_lays {before : Builder} {call : Call} (hbasic : call.Basic)
    (hpowered : call.Powered) (hkept : call ≠ .clear)
    (hpower : ∃ exponent : ℕ, before.alignment = (2 ^ exponent : ℕ)) :
    Build.Ends call.perform before (before.LaysOnly (call.Tries before))
      fun _ after => before.Lays (call.written before after) after := by
  have hnothing (after : Builder) (hlays : before.Lays [] after) :
      before.LaysOnly (call.Tries before) after := .of_lays hlays
  cases call with
  | prepare alignment additional =>
      obtain ⟨exponent, rfl⟩ := hpowered
      apply (prepare_lays ⟨exponent, rfl⟩ additional).bind hnothing
      rintro _ after - ⟨zeros, hpads⟩
      exact .pure (hpads.lays ⟨exponent, rfl⟩)
  | write type value =>
      exact (write_lays type value).bind hnothing fun _ _ _ hplaces => .pure hplaces.lays
  | writeOffset target =>
      exact (writeOffset_lays target).bind hnothing fun _ _ _ hplaces => .pure hplaces.lays
  | addField slot field =>
      exact (addField_lays slot field).bind hnothing fun _ _ _ hlays => .pure hlays
  | startTable fieldCount =>
      exact (startTable_lays fieldCount).bind hnothing fun _ _ _ hlays => .pure hlays
  | endTable =>
      apply endTable_lays.bind fun _ => id
      rintro _ after - ⟨opened, hphase, rfl, hlays⟩
      refine .pure ?_
      simp only [Call.written, hphase]
      exact hlays
  | startVector elementSize count alignment =>
      obtain ⟨exponent, rfl⟩ := hpowered
      exact (startVector_lays ⟨exponent, rfl⟩ elementSize count).bind hnothing
        fun _ _ _ hlays => .pure hlays
  | endVector =>
      apply endVector_lays.bind hnothing
      rintro _ after - ⟨opened, hphase, rfl, hplaces⟩
      have hclosed : before.Lays [] { before with phase := .idle } := .same rfl rfl
      refine .pure ?_
      simp only [Call.written, hphase]
      exact hclosed.trans hplaces.lays
  | scalars type values =>
      apply ((scalarColumn type).vector_lays type.isWidth values).bind fun _ => id
      rintro _ after - ⟨-, -, hlays⟩
      exact .pure hlays
  | offsets targets =>
      apply (offsetColumn.vector_lays isWidth_four targets).bind fun _ => id
      rintro _ after - ⟨-, -, hlays⟩
      exact .pure hlays
  | string bytes =>
      apply (stringBytes_lays bytes).bind fun _ => id
      rintro _ after - ⟨-, -, hlays⟩
      exact .pure hlays
  | attrs _ | payload _ | operator _ | constant _ | valueNode | node _ | graph _ | model _ =>
      exact hbasic.elim
  | finish root options =>
      exact (finish_lays root options hpower).bind (fun _ => id) fun _ _ _ hlays => .pure hlays
  | bytes =>
      have hbytes : Build.Ends Build.bytes before (before.Lays [])
          fun _ after => before.Lays [] after := by
        apply Ends.look
        cases before.phase with
        | finished => exact .pure (.refl before)
        | idle | table _ | vector _ => exact .throw (.refl before)
      exact hbytes.bind hnothing fun _ _ _ hlays => .pure hlays
  | offset => exact .look (.pure (.refl before))
  | clear => exact absurd rfl hkept

/-! ## Writers of models -/

namespace Build

/-- A computation that leaves what some calls of a builder's own leave. -/
def Made {α : Type} (computation : Build α) : Prop :=
  ∀ before : Builder, ∃ calls : List Call, (∀ call ∈ calls, call.Basic ∧ call.Powered) ∧
    (before.run calls).2 = computation.leaves before

/-- A sequence leaves what the calls of its steps leave, one after the other. -/
theorem made_sequences : Sequences @Made where
  pure := fun _ _ => ⟨[], List.forall_mem_nil _, rfl⟩
  throw := fun _ _ => ⟨[], List.forall_mem_nil _, rfl⟩
  step := by
    intro _ _ first next hfirst hnext before
    obtain ⟨calls, hcalls, hmade⟩ := hfirst before
    cases hresult : first before with
    | ok value middle =>
        obtain ⟨later, hlater, hmade'⟩ := hnext hresult middle
        refine ⟨calls ++ later, List.forall_mem_append.mpr ⟨hcalls, hlater⟩, ?_⟩
        rw [Builder.run_append, hmade, leaves_of_ok hresult, hmade', leaves_bind_of_ok hresult]
    | error error after =>
        refine ⟨calls, hcalls, ?_⟩
        rw [hmade, leaves_of_error hresult, leaves_bind_of_error hresult]
  look := fun _ hnext before => hnext before before

theorem Made.of_call {α : Type} {computation : Build α} {form : α → Answer} (call : Call)
    (hbasic : call.Basic) (hpowered : call.Powered)
    (hcall : call.perform = computation >>= fun value => Pure.pure (form value)) :
    Made computation := by
  intro before
  refine ⟨[call], by simp [hbasic, hpowered], ?_⟩
  change (before.step call).2 = _
  rw [Builder.step_snd, hcall, leaves_bind_pure]

theorem startTable_made (fieldCount : Number) : Made (startTable fieldCount) :=
  .of_call (.startTable fieldCount) trivial trivial rfl

theorem addField_made (slot : Number) (field : Field) : Made (addField slot field) :=
  .of_call (.addField slot field) trivial trivial rfl

theorem endTable_made : Made endTable :=
  .of_call .endTable trivial trivial rfl

/-- Every writer of a part of a model makes calls of a builder's own. -/
theorem made_composes : Composes @Made :=
  made_sequences.composes
    (fun _ _ => made_sequences.table (startTable_made _) addField_made endTable_made)
    (fun type values => .of_call (.scalars type values) trivial trivial rfl)
    (fun targets => .of_call (.offsets targets) trivial trivial rfl)
    fun bytes => .of_call (.string bytes) trivial trivial rfl

end Build

/-! ## Runs -/

/-- What is in the buffer after some calls, given what was there before.  A call that writes a part
of a model is traced through the calls that it makes. -/
inductive Builder.Traced :
    Builder → List (ℕ × Part) → List Call → List (ℕ × Part) → Prop where
  | nil {builder : Builder} {parts : List (ℕ × Part)} : builder.Traced parts [] parts
  | succeeds {builder next : Builder} {parts last : List (ℕ × Part)} {call : Call}
      {calls : List Call} {answer : Answer} (basic : call.Basic)
      (step : builder.step call = (.ok answer, next))
      (rest : next.Traced (call.keeping builder next parts) calls last) :
      builder.Traced parts (call :: calls) last
  | fails {builder next : Builder} {parts placed last : List (ℕ × Part)} {call : Call}
      {calls : List Call} {error : BuildError} (basic : call.Basic)
      (step : builder.step call = (.error error, next))
      (tried : ∀ entry ∈ placed, call.Tries builder entry.2)
      (rest : next.Traced (placed ++ parts) calls last) : builder.Traced parts (call :: calls) last
  | composed {builder : Builder} {parts between last : List (ℕ × Part)} {call : Call}
      {made calls : List Call} (composed : ¬call.Basic) (basic : ∀ call ∈ made, call.Basic)
      (same : (builder.run made).2 = (builder.step call).2)
      (written : builder.Traced parts made between)
      (rest : (builder.step call).2.Traced between calls last) :
      builder.Traced parts (call :: calls) last

/-- A builder whose buffer consists of some parts, each at a multiple of its width, with zero bytes
between them.  The largest alignment is a multiple of all the widths. -/
structure Builder.Consists (builder : Builder) (parts : List (ℕ × Part)) : Prop where
  laid : Laid parts builder.written.bytes
  aligned : ∀ entry ∈ parts, entry.2.width ∣ entry.1
  power : ∃ exponent : ℕ, builder.alignment = (2 ^ exponent : ℕ) ∧
    ∀ entry ∈ parts, entry.2.width ∣ 2 ^ exponent

namespace Builder.Consists

variable {builder : Builder} {parts : List (ℕ × Part)}

theorem new (settings : BuilderSettings) : (Builder.new settings).Consists [] :=
  ⟨nofun, nofun, 0, rfl, nofun⟩

theorem lays (hconsists : builder.Consists parts) {placed : List (ℕ × Part)} {after : Builder}
    (hlays : builder.Lays placed after) : after.Consists (placed ++ parts) where
  laid := hlays.laid hconsists.laid
  aligned := List.forall_mem_append.mpr ⟨hlays.aligned, hconsists.aligned⟩
  power := by
    obtain ⟨exponent, hpower, hwidths⟩ := hconsists.power
    obtain ⟨larger, hlarger, hafter, hplaced⟩ := hlays.climbs hpower
    refine ⟨larger, hafter, List.forall_mem_append.mpr ⟨hplaced, ?_⟩⟩
    exact fun entry hentry => (hwidths entry hentry).trans (Nat.pow_dvd_pow 2 hlarger)

theorem cleared (builder : Builder) : builder.cleared.Consists [] :=
  ⟨nofun, nofun, 0, rfl, nofun⟩

/-- A call that succeeds adds what it is known to write. -/
theorem succeed (hconsists : builder.Consists parts) {call : Call} (hbasic : call.Basic)
    (hpowered : call.Powered) {answer : Answer} {next : Builder}
    (hstep : builder.step call = (.ok answer, next)) :
    next.Consists (call.keeping builder next parts) := by
  have hdone := step_eq_ok hstep
  by_cases hclear : call = .clear
  · subst hclear
    cases Call.of_perform_nothing hdone
    exact .cleared builder
  · obtain ⟨exponent, hpower, -⟩ := hconsists.power
    have hlays := (Call.perform_lays hbasic hpowered hclear ⟨exponent, hpower⟩).ok hdone
    have hkeeping : call.keeping builder next parts = call.written builder next ++ parts := by
      cases call <;> first | rfl | exact absurd rfl hclear
    rw [hkeeping]
    exact hconsists.lays hlays

/-- A call that fails adds nothing but some of the parts that it was going to write. -/
theorem fail (hconsists : builder.Consists parts) {call : Call} (hbasic : call.Basic)
    (hpowered : call.Powered) {error : BuildError} {next : Builder}
    (hstep : builder.step call = (.error error, next)) :
    ∃ placed, (∀ entry ∈ placed, call.Tries builder entry.2) ∧ next.Consists (placed ++ parts) := by
  have hfailed := step_eq_error hstep
  obtain ⟨exponent, hpower, -⟩ := hconsists.power
  have hclear : call ≠ .clear := by
    rintro rfl
    cases hfailed
  obtain ⟨placed, htried, hlays⟩ :=
    (Call.perform_lays hbasic hpowered hclear ⟨exponent, hpower⟩).error hfailed
  exact ⟨placed, htried, hconsists.lays hlays⟩

/-- A call of a builder's own leaves a buffer that consists of the parts that it is traced to. -/
theorem step_basic (hconsists : builder.Consists parts) {call : Call} (hbasic : call.Basic)
    (hpowered : call.Powered) :
    ∃ next, (builder.step call).2.Consists next ∧ ∀ calls last,
      (builder.step call).2.Traced next calls last → builder.Traced parts (call :: calls) last := by
  cases hstep : builder.step call with
  | mk outcome after =>
      cases outcome with
      | ok answer =>
          exact ⟨_, hconsists.succeed hbasic hpowered hstep, fun _ _ => .succeeds hbasic hstep⟩
      | error error =>
          obtain ⟨placed, htried, hnext⟩ := hconsists.fail hbasic hpowered hstep
          exact ⟨_, hnext, fun _ _ => .fails hbasic hstep htried⟩

theorem run_basic (hconsists : builder.Consists parts) {calls : List Call}
    (hcalls : ∀ call ∈ calls, call.Basic ∧ call.Powered) :
    ∃ last, builder.Traced parts calls last ∧ (builder.run calls).2.Consists last := by
  induction calls generalizing builder parts with
  | nil => exact ⟨parts, .nil, hconsists⟩
  | cons call calls ih =>
      obtain ⟨⟨hbasic, hpowered⟩, hlater⟩ := List.forall_mem_cons.mp hcalls
      obtain ⟨next, hnext, htraced⟩ := hconsists.step_basic hbasic hpowered
      obtain ⟨last, hrest, hlast⟩ := ih hnext hlater
      exact ⟨last, htraced _ _ hrest, hlast⟩

/-- The same of any call, which may write a part of a model. -/
theorem step (hconsists : builder.Consists parts) {call : Call} (hpowered : call.Powered) :
    ∃ next, (builder.step call).2.Consists next ∧ ∀ calls last,
      (builder.step call).2.Traced next calls last → builder.Traced parts (call :: calls) last := by
  by_cases hbasic : call.Basic
  · exact hconsists.step_basic hbasic hpowered
  · obtain ⟨made, hmade, hsame⟩ := Build.made_composes.perform hbasic builder
    obtain ⟨next, hwritten, hnext⟩ := hconsists.run_basic hmade
    rw [← step_snd] at hsame
    rw [hsame] at hnext
    exact ⟨next, hnext, fun _ _ =>
      .composed hbasic (fun call hcall => (hmade call hcall).1) hsame hwritten⟩

/-- After any calls the buffer consists of the parts that they are traced to. -/
theorem run (hconsists : builder.Consists parts) {calls : List Call}
    (hpowered : ∀ call ∈ calls, call.Powered) :
    ∃ last, builder.Traced parts calls last ∧ (builder.run calls).2.Consists last := by
  induction calls generalizing builder parts with
  | nil => exact ⟨parts, .nil, hconsists⟩
  | cons call calls ih =>
      obtain ⟨hcall, hlater⟩ := List.forall_mem_cons.mp hpowered
      obtain ⟨next, hnext, htraced⟩ := hconsists.step hcall
      obtain ⟨last, hrest, hlast⟩ := ih hnext hlater
      exact ⟨last, htraced _ _ hrest, hlast⟩

end Builder.Consists

end GraphWire

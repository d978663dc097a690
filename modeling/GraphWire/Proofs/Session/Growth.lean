import GraphWire.Proofs.Builder.Growth
import GraphWire.Proofs.Model.Composition
import GraphWire.Proofs.Session.Agreement

/-!
# Sessions at any capacity

A session does not depend on the capacity that its builder starts with.  So a cleared builder, which
keeps its capacity and its records and nothing else, is as good as a new one.
-/

namespace GraphWire

namespace Build

variable {settings : BuilderSettings} {older : List Event}

/-- Every writer of a part of a model keeps builders alike. -/
theorem steady_composes : Composes (Steady settings older) :=
  steady_operates.composes fun fields _ => table_steady fields

end Build

section Calls

open Build

variable {settings : BuilderSettings} {older : List Event}

/-- Every call keeps builders alike. -/
theorem Call.perform_steady (call : Call) : Steady settings older call.perform :=
  steady_operates.perform (fun _ => .throw _) startTable_steady steady_operates.addField
    endTable_steady markFinished_steady clear_steady call

end Calls

/-! ## Runs -/

namespace Builder

variable {settings : BuilderSettings} {older : List Event} {left right : Builder}

/-- One call on builders alike. -/
theorem Mirrors.step (hmirrors : Mirrors settings older left right) (call : Call) :
    (right.step call).1 = (left.step call).1 ∧
      Mirrors settings older (left.step call).2 (right.step call).2 := by
  have hagree := call.perform_steady hmirrors
  unfold Builder.step
  cases hleft : call.perform left with
  | ok answer next =>
      rw [hleft] at hagree
      obtain ⟨next', hright, hnext⟩ := hagree.of_ok
      rw [hright]
      exact ⟨rfl, hnext⟩
  | error error next =>
      rw [hleft] at hagree
      obtain ⟨next', hright, hnext⟩ := hagree.of_error
      rw [hright]
      exact ⟨rfl, hnext⟩

/-- A whole session on builders alike. -/
theorem Mirrors.run (hmirrors : Mirrors settings older left right) (calls : List Call) :
    (right.run calls).1 = (left.run calls).1 ∧
      Mirrors settings older (left.run calls).2 (right.run calls).2 := by
  induction calls generalizing left right with
  | nil => exact ⟨rfl, hmirrors⟩
  | cons call calls ih =>
      obtain ⟨houtcome, hnext⟩ := hmirrors.step call
      obtain ⟨houtcomes, hlast⟩ := ih hnext
      refine ⟨?_, hlast⟩
      simp only [Builder.run, houtcome, houtcomes]

/-- A new builder has the options that it is made with. -/
theorem obeys_new {options : BuilderOptions} {other : BuilderSettings}
    (hother : options.resolve = .ok other) (hforce : other.forceDefaults = settings.forceDefaults)
    (hdedupe : other.dedupeVtables = settings.dedupeVtables) :
    (Builder.new other).Obeys settings := by
  obtain ⟨⟨hpositive, hlimited⟩, -⟩ := options.settings_of_resolve hother
  exact ⟨hforce, hdedupe, hpositive, hlimited⟩

/-- New builders of different capacities. -/
theorem mirrors_new {options options' : BuilderOptions} {settings' : BuilderSettings}
    (hsettings : options.resolve = .ok settings) (hsettings' : options'.resolve = .ok settings')
    (hforce : settings'.forceDefaults = settings.forceDefaults)
    (hdedupe : settings'.dedupeVtables = settings.dedupeVtables) :
    Mirrors settings [] (.new settings) (.new settings') where
  obeys := ⟨obeys_new hsettings rfl rfl, obeys_new hsettings' hforce hdedupe⟩
  same := by
    unfold resized new
    simp only [hforce, hdedupe, Region.store_blank]
  notes := rfl

/-- Clearing a builder makes it like a new one, whatever it was in the middle of. -/
theorem Obeys.mirrors_cleared {builder : Builder} (hobeys : builder.Obeys settings)
    (hnew : (Builder.new settings).Obeys settings) :
    Mirrors settings builder.notes (.new settings) builder.cleared where
  obeys := ⟨hnew, hobeys.1, hobeys.2, hobeys.3, hobeys.4⟩
  same := by
    unfold cleared resized new
    simp only [hobeys.forceDefaults, hobeys.dedupeVtables, Region.store_blank, Region.store_erase]
  notes := rfl

theorem Mirrors.offset (hmirrors : Mirrors settings older left right) :
    right.offset = left.offset := by
  rw [hmirrors.same]
  rfl

theorem Mirrors.vtableCount (hmirrors : Mirrors settings older left right) :
    right.vtableCount = left.vtableCount := by
  rw [hmirrors.same]
  rfl

/-- Two sessions of the same calls on builders that start with different capacities have the same
outcomes and leave builders that have nothing different but the capacity and the records of
growth. -/
theorem run_eq_of_initialSize {options options' : BuilderOptions} {settings' : BuilderSettings}
    (hsettings : options.resolve = .ok settings) (hsettings' : options'.resolve = .ok settings')
    (hforce : settings'.forceDefaults = settings.forceDefaults)
    (hdedupe : settings'.dedupeVtables = settings.dedupeVtables) (calls : List Call) :
    let first := (Builder.new settings).run calls
    let second := (Builder.new settings').run calls
    second.1 = first.1 ∧ second.2.offset = first.2.offset ∧
      second.2.vtableCount = first.2.vtableCount ∧
      second.2 = first.2.resized second.2.capacity second.2.log ∧
      second.2.notes = first.2.notes := by
  obtain ⟨houtcomes, hlast⟩ := (mirrors_new hsettings hsettings' hforce hdedupe).run calls
  exact ⟨houtcomes, hlast.offset, hlast.vtableCount, hlast.same, by simpa using hlast.notes⟩

/-- Whatever was called on a builder before it was cleared, and whether or not those calls
succeeded, later calls have the outcomes that they have on a new builder, errors and bytes among
them, and leave a builder that has nothing different but the capacity and the older records. -/
theorem run_clear {options : BuilderOptions} (hsettings : options.resolve = .ok settings)
    (history later : List Call) :
    let cleared := ((Builder.new settings).run (history ++ [.clear])).2
    let afresh := (Builder.new settings).run later
    (cleared.run later).1 = afresh.1 ∧ (cleared.run later).2.offset = afresh.2.offset ∧
      (cleared.run later).2.vtableCount = afresh.2.vtableCount ∧
      (cleared.run later).2
        = afresh.2.resized (cleared.run later).2.capacity (cleared.run later).2.log ∧
      (cleared.run later).2.notes = afresh.2.notes ++ cleared.notes := by
  have hnew := obeys_new hsettings rfl rfl
  have hhistory := (mirrors_new hsettings hsettings rfl rfl).run history
  have hmirrors := hhistory.2.obeys.1.mirrors_cleared hnew
  obtain ⟨houtcomes, hlast⟩ := hmirrors.run later
  intro cleared afresh
  have hcleared : cleared = ((Builder.new settings).run history).2.cleared := by
    simp only [cleared, run_append]
    rfl
  rw [hcleared]
  exact ⟨houtcomes, hlast.offset, hlast.vtableCount, hlast.same, hlast.notes⟩

/-- A history that fails inside a table, after one table with a vtable that the next one of its
layout would share. -/
theorem run_clear_inside_table :
    let history : List Call := [.startTable 1, .addField 0 (.scalar .int64 (7 : Int) (0 : Int)),
      .endTable, .startTable 2, .addField 1 (.reference 300), .addField 1 (.reference 3), .bytes]
    let later : List Call := [.startTable 1, .addField 0 (.scalar .int64 (9 : Int) (0 : Int)),
      .endTable, .finish 12 {}, .bytes]
    let cleared := ((Builder.new ⟨1024, false, true⟩).run (history ++ [.clear])).2
    let afresh := (Builder.new ⟨1024, false, true⟩).run later
    ((Builder.new ⟨1024, false, true⟩).run history).2.phase ≠ .idle ∧
      (cleared.run later).1 = afresh.1 ∧ (cleared.run later).2.offset = afresh.2.offset ∧
      (cleared.run later).2.vtableCount = afresh.2.vtableCount ∧
      (cleared.run later).2
        = afresh.2.resized (cleared.run later).2.capacity (cleared.run later).2.log ∧
      (cleared.run later).2.notes = afresh.2.notes ++ cleared.notes := by
  have hsettings : BuilderOptions.resolve {} = .ok ⟨1024, false, true⟩ := by rfl
  refine ⟨by decide +kernel, ?_⟩
  exact run_clear hsettings _ _

end Builder

end GraphWire

import GraphWire.Proofs.Builder.Frame
import GraphWire.Proofs.Builder.Interning
import GraphWire.Proofs.Model.Composition
import GraphWire.Proofs.Session.Growth

/-!
# The tables of a session

A caller knows of each table where it began, which slots have a value and where it ended, from the
offset of the buffer after each call (`Ledger`).  A builder has these tables, each with its vtable
(`Builder.Accounts`): every call that succeeds keeps this, whatever its sizes and alignments are,
since no call but the one that closes a table has to do with vtables.
-/

namespace GraphWire

/-! ## Tables as a caller knows them -/

/-- A table with the offset at which it was opened and its slots with a value, the lowest first. -/
structure TracedTable where
  start : ℕ
  filled : List FilledSlot
deriving DecidableEq

namespace TracedTable

/-- A field has its value at the offset of the buffer, unless it has been left out. -/
def fill (traced : TracedTable) (slot size : ℕ) : Option Content → TracedTable
  | some content => { traced with filled := ⟨slot, size, content⟩ :: traced.filled }
  | none => traced

/-- The vtable of the table when it ends at an offset: its own size, the size of the table, and for
each slot up to the last one with a value the distance to the value, or zero. -/
def words (traced : TracedTable) (table : ℕ) : List ℕ :=
  let entries := traced.filled.map FilledSlot.entry
  2 * (slotCount entries + 2) :: (table - traced.start)
    :: (List.range (slotCount entries)).map (entryOf table entries)

/-- Whatever the number of declared fields is, the vtable ends with the last value. -/
theorem words_eq {traced : TracedTable} (table : ℕ)
    (hascending : Ascending 0 (traced.filled.map FilledSlot.entry)) :
    traced.words table = vtableWords table traced.start (traced.filled.map FilledSlot.entry) := by
  have hlength := length_slotEntries table hascending
  unfold words vtableWords
  dsimp only
  rw [hlength, ← slotEntries_eq_map table hascending, Nat.sub_zero, Nat.mul_comm]
  rfl

end TracedTable

/-- A table that has been closed, with its own offset. -/
structure ClosedTable extends TracedTable where
  offset : ℕ
deriving DecidableEq

namespace ClosedTable

/-- The words of the vtable. -/
def vtable (closed : ClosedTable) : List ℕ :=
  closed.words closed.offset

end ClosedTable

/-- The open table of a session and the closed ones, latest first. -/
structure Ledger where
  opened : Option TracedTable
  closed : List ClosedTable

namespace Ledger

def empty : Ledger :=
  ⟨none, []⟩

/-- The ledger after a call that has given an answer and left the buffer at some offset. -/
def after (force : Bool) (ledger : Ledger) (size : ℕ) : Call → Answer → Ledger
  | .startTable _, _ => { ledger with opened := some ⟨size, []⟩ }
  | .addField slot field, _ =>
      { ledger with
        opened := ledger.opened.map (·.fill (slot.toNat?.getD 0) size (field.kept force)) }
  | .endTable, .offset table =>
      ⟨none, (ledger.opened.map fun traced => ⟨traced, table⟩).toList ++ ledger.closed⟩
  | .clear, _ => empty
  | _, _ => ledger

/-- Only opening, filling and closing a table changes a ledger, and discarding everything. -/
theorem after_of_still (ledger : Ledger) (force : Bool) (size : ℕ) {call : Call}
    (hstill : call.Still) (answer : Answer) : ledger.after force size call answer = ledger := by
  cases call with
  | startTable _ | addField _ _ | endTable | clear => exact hstill.elim
  | _ => rfl

end Ledger

/-- The ledger after some calls on a builder. -/
def Builder.account (builder : Builder) (ledger : Ledger) : List Call → Ledger
  | [] => ledger
  | call :: calls =>
      match builder.step call with
      | (.ok answer, next) =>
          next.account (ledger.after builder.forceDefaults next.offset call answer) calls
      | (.error _, next) => next.account ledger calls

/-- How many tables have been closed in the buffer, after one more call that succeeds. -/
def Call.tally (count : ℕ) : Call → ℕ
  | .endTable => count + 1
  | .clear => 0
  | _ => count

/-- What an observer of a session makes of some calls and their answers. -/
def observe {σ : Type} (next : σ → Call → Answer → σ) (state : σ) (entries : List (Call × Answer)) :
    σ :=
  entries.foldl (fun state entry => next state entry.1 entry.2) state

/-! ## Builders and ledgers -/

/-- A closed table with the offset of its vtable. -/
structure PlacedTable extends ClosedTable where
  place : ℕ

/-- The vtable of a table as a builder remembers it. -/
def PlacedTable.stored (placed : PlacedTable) : StoredVtable :=
  ⟨LittleEndian.splitAll 2 placed.vtable, placed.place⟩

namespace Ledger

/-- A builder has the table open that the ledger has. -/
def Opens (builder : Builder) : Option TracedTable → Prop
  | some traced => ∃ opened, builder.phase = .table opened ∧ opened.start = traced.start ∧
      opened.Fills builder traced.filled
  | none => ∀ opened, builder.phase ≠ .table opened

end Ledger

/-- A builder has the tables of a ledger, with their vtables at some places. -/
structure Builder.Accounts (builder : Builder) (settings : BuilderSettings) (ledger : Ledger)
    (tables : List PlacedTable) : Prop where
  obeys : builder.Obeys settings
  shared : ∀ stored ∈ builder.vtables, Placed builder.written.bytes stored.bytes stored.offset
  opened : Ledger.Opens builder ledger.opened
  closed : ledger.closed = tables.map PlacedTable.toClosedTable
  layouts : ∀ placed ∈ tables,
    TableLayout builder.written.bytes placed.offset placed.start placed.place placed.filled
  interned : settings.dedupeVtables = true →
    Interns builder.vtables (tables.map PlacedTable.stored) ∧
      builder.vtableCount = builder.vtables.length
  apart : settings.dedupeVtables = false →
    (tables.map PlacedTable.place).Nodup ∧ builder.vtableCount = tables.length

namespace Builder.Links

variable {before after : Builder} {bytes : List UInt8} {vtable : ℕ}

/-- A builder that shares vtables has that of the closed table among those it remembers. -/
theorem interns (hlinks : before.Links after bytes vtable) (hsharing : before.dedupeVtables = true)
    {uses : List StoredVtable} (hinterns : Interns before.vtables uses)
    (hcount : before.vtableCount = before.vtables.length)
    (hbelow : ∀ stored ∈ before.vtables, stored.offset ≤ before.written.size) :
    Interns after.vtables (⟨bytes, vtable⟩ :: uses) ∧
      after.vtableCount = after.vtables.length := by
  cases hlinks with
  | shared _ hstored hvtables hsame =>
      rw [hvtables, hsame]
      exact ⟨hinterns.share hstored, hcount⟩
  | fresh hunknown hfront hvtables hmore =>
      have hbehind : before.written.size < vtable := before.size_lt_tableEnd.trans_le (by omega)
      rw [hvtables, hmore, if_pos hsharing, List.length_cons, hcount]
      refine ⟨hinterns.add (hunknown hsharing) ?_, rfl⟩
      exact fun stored hstored => Nat.lt_of_le_of_lt (hbelow stored hstored) hbehind

/-- A builder that does not share vtables puts that of the closed table in front. -/
theorem apart (hlinks : before.Links after bytes vtable) (hapart : before.dedupeVtables = false) :
    before.written.size < vtable ∧ after.vtableCount = before.vtableCount + 1 := by
  cases hlinks with
  | shared hsharing => exact absurd (hapart.symm.trans hsharing) Bool.false_ne_true
  | fresh _ hfront _ hmore => exact ⟨before.size_lt_tableEnd.trans_le (by omega), hmore⟩

end Builder.Links

namespace Builder.Accounts

variable {before after : Builder} {settings : BuilderSettings} {ledger : Ledger}
  {tables : List PlacedTable}

theorem sound (haccounts : before.Accounts settings ledger tables) : before.Sound :=
  ⟨haccounts.obeys.positive, haccounts.obeys.limited, haccounts.shared⟩

/-- More bytes in front leave the closed tables and the vtables as they are. -/
theorem extend (haccounts : before.Accounts settings ledger tables)
    (hextends : before.Extends after) (hobeys : after.Obeys settings)
    {opened : Option TracedTable} (hopened : Ledger.Opens after opened) :
    after.Accounts settings { ledger with opened } tables where
  obeys := hobeys
  shared := by
    intro stored hstored
    rw [hextends.vtables] at hstored
    exact (haccounts.shared stored hstored).mono hextends.suffix
  opened := hopened
  closed := haccounts.closed
  layouts := fun placed hplaced => (haccounts.layouts placed hplaced).mono hextends.suffix
  interned := by
    rw [hextends.vtables, hextends.vtableCount]
    exact haccounts.interned
  apart := by
    rw [hextends.vtableCount]
    exact haccounts.apart

/-- Closing a table adds it, with its vtable among the others or in front of them. -/
theorem close (haccounts : before.Accounts settings ledger tables) {opened : OpenTable}
    {traced : TracedTable} {table : ℕ} (hstart : opened.start = traced.start)
    (hfills : opened.Fills before traced.filled)
    (hcloses : Build.Closes before opened traced.filled table after)
    (hobeys : after.Obeys settings) :
    ∃ tables', after.Accounts settings ⟨none, ⟨traced, table⟩ :: ledger.closed⟩ tables' := by
  obtain ⟨vtable, hlayout, hlinks⟩ := hcloses.linked
  have hsuffix := hcloses.adds.suffix
  rw [hstart] at hlayout
  let placed : PlacedTable := ⟨⟨traced, table⟩, vtable⟩
  have hwords : LittleEndian.splitAll 2 (vtableWords table opened.start opened.entries)
      = placed.stored.bytes := by
    rw [hstart, hfills.entries, ← TracedTable.words_eq table hlayout.ascending]
    rfl
  rw [hwords] at hlinks
  refine ⟨placed :: tables, hobeys, hcloses.adds.sound.shared, ?_, ?_, ?_, ?_, ?_⟩
  · intro other hother
    cases hcloses.adds.idle.symm.trans hother
  · rw [List.map_cons, ← haccounts.closed]
  · intro other hother
    rcases List.mem_cons.mp hother with rfl | hearlier
    · exact hlayout
    · exact (haccounts.layouts other hearlier).mono hsuffix
  · intro hsharing
    obtain ⟨hinterns, hcount⟩ := haccounts.interned hsharing
    apply hlinks.interns (haccounts.obeys.dedupeVtables.trans hsharing) hinterns hcount
    intro stored hstored
    have hoffset := (haccounts.shared stored hstored).le_length
    rwa [← before.written.size_eq] at hoffset
  · intro hapart
    obtain ⟨hdistinct, hcount⟩ := haccounts.apart hapart
    obtain ⟨hbehind, hmore⟩ := hlinks.apart (haccounts.obeys.dedupeVtables.trans hapart)
    rw [List.map_cons, List.nodup_cons, hmore, List.length_cons, hcount]
    refine ⟨⟨?_, hdistinct⟩, rfl⟩
    intro hmem
    obtain ⟨other, hother, hsame⟩ := List.mem_map.mp hmem
    have hplace := (haccounts.layouts other hother).words.le_length
    rw [← before.written.size_eq] at hplace
    exact absurd hsame (Nat.ne_of_lt (Nat.lt_of_le_of_lt hplace hbehind))

end Builder.Accounts

namespace Ledger.Opens

variable {before after : Builder} {opened? : Option TracedTable}

/-- Where nothing is opened or closed. -/
theorem still (hopens : Ledger.Opens before opened?) (hphase : after.phase = before.phase)
    (hsuffix : before.written.bytes <:+ after.written.bytes) : Ledger.Opens after opened? := by
  cases opened? with
  | none =>
      intro opened hopened
      exact hopens opened (hphase.symm.trans hopened)
  | some traced =>
      obtain ⟨opened, hopened, hstart, hfills⟩ := hopens
      exact ⟨opened, hphase.trans hopened, hstart, hfills.mono hsuffix⟩

/-- A table that is open in the builder is the open table of the ledger. -/
theorem of_table (hopens : Ledger.Opens before opened?) {opened : OpenTable}
    (hphase : before.phase = .table opened) : ∃ traced, opened? = some traced ∧
      opened.start = traced.start ∧ opened.Fills before traced.filled := by
  cases opened? with
  | none => exact absurd hphase (hopens opened)
  | some traced =>
      obtain ⟨other, hother, hstart, hfills⟩ := hopens
      obtain rfl : opened = other := Phase.table.inj (hphase.symm.trans hother)
      exact ⟨traced, rfl, hstart, hfills⟩

theorem eq_none (hopens : Ledger.Opens before opened?)
    (hphase : ∀ opened, before.phase ≠ .table opened) : opened? = none := by
  cases opened? with
  | none => rfl
  | some traced =>
      obtain ⟨opened, hopened, -⟩ := hopens
      exact absurd hopened (hphase opened)

/-- Where no table was open and none is open afterwards. -/
theorem outside (hopens : Ledger.Opens before opened?)
    (hbefore : ∀ opened, before.phase ≠ .table opened)
    (hafter : ∀ opened, after.phase ≠ .table opened) : Ledger.Opens after opened? := by
  rw [hopens.eq_none hbefore]
  exact hafter

end Ledger.Opens

/-! ## Calls -/

namespace Builder.Accounts

variable {before after : Builder} {settings : BuilderSettings} {ledger : Ledger}
  {tables : List PlacedTable}

open Build

theorem addField (haccounts : before.Accounts settings ledger tables) {slot : Number}
    {field : Field} (hresult : Build.addField slot field before = .ok () after)
    (hobeys : after.Obeys settings) :
    after.Accounts settings
      (ledger.after settings.forceDefaults after.offset (.addField slot field) .nothing)
      tables := by
  obtain ⟨opened, hphase⟩ := phase_of_addField hresult
  obtain ⟨traced, htraced, hstart, hfills⟩ := haccounts.opened.of_table hphase
  obtain ⟨index, entries, front, hindex, -, hafter, hfilled, -, -⟩ :=
    (addField_writes haccounts.sound hphase hfills slot field).ok hresult
  rw [haccounts.obeys.forceDefaults] at hfilled
  apply haccounts.extend (extending_operates.addField slot field hresult) hobeys
  rw [htraced, hindex, Option.map_some, Option.getD_some]
  refine ⟨_, hafter, ?_, ?_⟩
  · cases field.kept settings.forceDefaults <;> exact hstart
  · cases hkept : field.kept settings.forceDefaults with
    | none =>
        rw [hkept] at hfilled
        exact hfilled
    | some content =>
        rw [hkept] at hfilled
        exact hfilled

theorem endTable (haccounts : before.Accounts settings ledger tables) {table : ℕ}
    (hresult : Build.endTable before = .ok table after) (hobeys : after.Obeys settings) :
    ∃ tables', after.Accounts settings
      (ledger.after settings.forceDefaults after.offset .endTable (.offset table)) tables' := by
  obtain ⟨opened, hphase⟩ := phase_of_endTable hresult
  obtain ⟨traced, htraced, hstart, hfills⟩ := haccounts.opened.of_table hphase
  have hcloses := (endTable_closes haccounts.sound hphase hfills).ok hresult
  obtain ⟨tables', hafter⟩ := haccounts.close hstart hfills hcloses hobeys
  refine ⟨tables', ?_⟩
  simp only [Ledger.after, htraced, Option.map_some, Option.toList_some, List.singleton_append]
  exact hafter

/-- A call that succeeds keeps a builder and its ledger in agreement. -/
theorem perform (haccounts : before.Accounts settings ledger tables) {call : Call}
    {answer : Answer} (hbasic : call.Basic) (hresult : call.perform before = .ok answer after) :
    ∃ tables', after.Accounts settings
      (ledger.after settings.forceDefaults after.offset call answer) tables' := by
  have hobeys := (Call.perform_steady call).obeys haccounts.obeys hresult
  by_cases hkept : call = .clear
  · subst hkept
    cases Call.of_perform_nothing hresult
    exact ⟨[], hobeys, by simp [cleared], nofun, rfl, by simp, fun _ => ⟨.nil, rfl⟩,
      fun _ => ⟨List.nodup_nil, rfl⟩⟩
  by_cases hopen : call = .endTable
  · subst hopen
    obtain ⟨table, hdone, rfl⟩ := Call.of_perform_map hresult
    exact haccounts.endTable hdone hobeys
  have hextends := Call.perform_extending hbasic hkept hopen hresult
  -- Vectors and heads begin and end where no table is open.
  have houtside (hbefore : ∀ opened, before.phase ≠ .table opened)
      (hafter : ∀ opened, after.phase ≠ .table opened) : after.Accounts settings ledger tables :=
    haccounts.extend hextends hobeys (haccounts.opened.outside hbefore hafter)
  refine ⟨tables, ?_⟩
  cases Call.moves hresult with
  | still hstill _ hphase =>
      rw [Ledger.after_of_still _ _ _ hstill]
      exact haccounts.extend hextends hobeys (haccounts.opened.still hphase hextends.suffix)
  | startTable _ _ hafter =>
      subst hafter
      exact haccounts.extend hextends hobeys ⟨_, rfl, rfl, fills_nil before _ _⟩
  | addField => exact haccounts.addField (Call.of_perform_nothing hresult) hobeys
  | endTable => exact absurd rfl hopen
  | startVector _ hidle hafter => exact houtside (by simp [hidle]) (by simp [hafter])
  | endVector hopened _ hafter => exact houtside (by simp [hopened]) (by simp [hafter])
  | finish hidle hafter => exact houtside (by simp [hidle]) (by simp [hafter])
  | clear => exact absurd rfl hkept

/-- Every table that a call closes comes into the ledger. -/
theorem length_closed (haccounts : before.Accounts settings ledger tables) {call : Call}
    {answer : Answer} (hresult : call.perform before = .ok answer after) :
    (ledger.after settings.forceDefaults after.offset call answer).closed.length
      = call.tally ledger.closed.length := by
  cases call with
  | endTable =>
      obtain ⟨table, hdone, rfl⟩ := Call.of_perform_map hresult
      obtain ⟨opened, hphase⟩ := phase_of_endTable hdone
      obtain ⟨traced, htraced, -⟩ := haccounts.opened.of_table hphase
      simp [Ledger.after, Call.tally, htraced]
  | _ => rfl

/-- A session keeps a builder and its ledger in agreement. -/
theorem run {builder : Builder} (haccounts : builder.Accounts settings ledger tables)
    {calls : List Call} (hbasic : ∀ call ∈ calls, call.Basic) {answers : List Answer}
    (hrun : (builder.run calls).1 = answers.map .ok) :
    (∃ tables', (builder.run calls).2.Accounts settings (builder.account ledger calls) tables') ∧
      (builder.account ledger calls).closed.length
        = calls.foldl Call.tally ledger.closed.length := by
  induction calls generalizing builder ledger tables answers with
  | nil => exact ⟨⟨tables, haccounts⟩, rfl⟩
  | cons call calls ih =>
      rw [List.forall_mem_cons] at hbasic
      obtain ⟨answer, later, next, rfl, hstep, hlater⟩ := of_run_cons hrun
      have hlength := haccounts.length_closed (step_eq_ok hstep)
      obtain ⟨tables', hnext⟩ := haccounts.perform hbasic.1 (step_eq_ok hstep)
      rw [← haccounts.obeys.forceDefaults] at hnext hlength
      have hlast := ih hnext hbasic.2 hlater
      rw [hlength] at hlast
      simpa only [Builder.run, Builder.account, hstep, List.foldl_cons] using hlast

/-- What an observer of calls and answers holds of a builder and its ledger holds after a session,
if every call that is allowed and succeeds keeps it. -/
theorem run_observe {σ : Type} (holds : Builder → Ledger → σ → Prop) (next : σ → Call → Answer → σ)
    {allowed : Call → Prop} (hbasic : ∀ call, allowed call → call.Basic)
    (hstep : ∀ {before after : Builder} {ledger : Ledger} {tables : List PlacedTable} {state : σ}
      {call : Call} {answer : Answer}, before.Accounts settings ledger tables → allowed call →
      holds before ledger state → call.perform before = .ok answer after →
      holds after (ledger.after settings.forceDefaults after.offset call answer)
        (next state call answer))
    {builder : Builder} (haccounts : builder.Accounts settings ledger tables) {state : σ}
    (hholds : holds builder ledger state) {calls : List Call}
    (hallowed : ∀ call ∈ calls, allowed call) {answers : List Answer}
    (hrun : (builder.run calls).1 = answers.map .ok) :
    holds (builder.run calls).2 (builder.account ledger calls)
      (observe next state (calls.zip answers)) := by
  induction calls generalizing builder ledger tables state answers with
  | nil => exact hholds
  | cons call calls ih =>
      rw [List.forall_mem_cons] at hallowed
      obtain ⟨answer, later, after, rfl, hcall, hlater⟩ := of_run_cons hrun
      obtain ⟨tables', hafter⟩ := haccounts.perform (hbasic call hallowed.1) (step_eq_ok hcall)
      have hnext := hstep haccounts hallowed.1 hholds (step_eq_ok hcall)
      rw [← haccounts.obeys.forceDefaults] at hafter hnext
      have hlast := ih hafter hnext hallowed.2 hlater
      simpa only [Builder.run, Builder.account, hcall, List.zip_cons_cons, observe,
        List.foldl_cons] using hlast

/-- A new builder has no tables. -/
theorem new {options : BuilderOptions} (hsettings : options.resolve = .ok settings) :
    (Builder.new settings).Accounts settings .empty [] where
  obeys := obeys_new hsettings rfl rfl
  shared := nofun
  opened := nofun
  closed := rfl
  layouts := nofun
  interned := fun _ => ⟨.nil, rfl⟩
  apart := fun _ => ⟨List.nodup_nil, rfl⟩

end Builder.Accounts

end GraphWire

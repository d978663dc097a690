import GraphWire.Proofs.Builder.Floor
import GraphWire.Proofs.Reader.Overwriting
import GraphWire.Proofs.Session.LifeCycle
import GraphWire.Proofs.Session.Ledger

/-!
# Objects that lie apart

Nothing that a session has closed overlaps anything else that it has closed, but for vtables that
tables share.  The values of a table lie in front of each other and behind the table's own distance,
and tables, vtables, vectors and strings in front of each other (`Builder.Separates`).  A caller who
notes what the calls answer knows where all of them are (`Objects`).
-/

namespace GraphWire

/-! ## Tables -/

namespace TracedTable

/-- The values of a table lie in front of each other, from where it was opened up to an offset. -/
structure Spaced (traced : TracedTable) (last : ℕ) : Prop where
  start_le : traced.start ≤ last
  within : ∀ value ∈ traced.filled,
    traced.start + value.content.width ≤ value.offset ∧ value.offset ≤ last
  apart : traced.filled.Pairwise fun later earlier =>
    earlier.offset + later.content.width ≤ later.offset

/-- Every reference in the table leads to one of some offsets. -/
def RefersTo (traced : TracedTable) (known : List ℕ) : Prop :=
  ∀ value ∈ traced.filled, ∀ target, value.content = .reference target → target ∈ known

variable {traced : TracedTable} {last last' : ℕ} {known known' : List ℕ}

theorem Spaced.mono (hspaced : traced.Spaced last) (hlast : last ≤ last') :
    traced.Spaced last' where
  start_le := hspaced.start_le.trans hlast
  within := fun value hvalue =>
    ⟨(hspaced.within value hvalue).1, (hspaced.within value hvalue).2.trans hlast⟩
  apart := hspaced.apart

/-- A value is put in front of the others. -/
theorem Spaced.fill (hspaced : traced.Spaced last) (slot : ℕ) {content : Content}
    (hsize : last + content.width ≤ last') :
    (traced.fill slot last' (some content)).Spaced last' := by
  have hstart := hspaced.start_le
  have hlater := hspaced.mono (Nat.le_of_add_right_le hsize)
  refine ⟨hlater.start_le, List.forall_mem_cons.mpr ⟨?_, hlater.within⟩,
    List.pairwise_cons.mpr ⟨?_, hlater.apart⟩⟩
  · exact ⟨(Nat.add_le_add_right hstart _).trans hsize, le_refl _⟩
  · intro earlier hearlier
    exact (Nat.add_le_add_right (hspaced.within earlier hearlier).2 _).trans hsize

theorem RefersTo.mono (hrefers : traced.RefersTo known) (hknown : known ⊆ known') :
    traced.RefersTo known' :=
  fun value hvalue target htarget => hknown (hrefers value hvalue target htarget)

/-- Two values of a table are the same one or do not overlap. -/
theorem Spaced.apart_of_ne (hspaced : traced.Spaced last) {value other : FilledSlot}
    (hvalue : value ∈ traced.filled) (hother : other ∈ traced.filled) :
    value = other ∨
      Apart value.offset value.content.width other.offset other.content.width := by
  refine List.Pairwise.forall_of_forall_of_flip (R := fun value other => value = other ∨
    Apart value.offset value.content.width other.offset other.content.width)
    (fun _ _ => .inl rfl) ?_ ?_ hvalue hother
  · exact hspaced.apart.imp fun hfront => .inr (.inl hfront)
  · exact hspaced.apart.imp fun hfront => .inr (.inr hfront)

end TracedTable

/-- The size of the vtable of a table. -/
def PlacedTable.vtableSize (placed : PlacedTable) : ℕ :=
  2 * (vtableWords placed.offset placed.start (placed.filled.map FilledSlot.entry)).length

/-! ## Builders -/

/-- Some bytes that are closed are no part of any table: they lie behind where it was opened, or in
front of it. -/
structure Builder.Spares (builder : Builder) (tables : List PlacedTable) (offset size : ℕ) :
    Prop where
  below : offset ≤ builder.floor
  apart : ∀ placed ∈ tables, offset ≤ placed.start ∨ placed.offset + size ≤ offset

/-- A builder with some tables and rows that do not overlap. -/
structure Builder.Separates (builder : Builder) (tables : List PlacedTable) (rows : List Row) :
    Prop where
  within : builder.floor ≤ builder.written.size
  layouts : ∀ placed ∈ tables,
    TableLayout builder.written.bytes placed.offset placed.start placed.place placed.filled
  spaced : ∀ placed ∈ tables, placed.Spaced (placed.offset - 4)
  below : ∀ placed ∈ tables, placed.offset ≤ builder.floor
  bodies : tables.Pairwise fun later earlier => earlier.offset ≤ later.start
  vtables : ∀ placed ∈ tables, builder.Spares tables placed.place placed.vtableSize
  stored : ∀ stored ∈ builder.vtables, builder.Spares tables stored.offset stored.bytes.length
  found : ∀ row ∈ rows, row.At builder.written.bytes
  rows : ∀ row ∈ rows, builder.Spares tables row.offset (4 + row.size)

theorem Row.At.mono {row : Row} {bytes more : List UInt8} (hrow : row.At bytes)
    (hsuffix : bytes <:+ more) : row.At more :=
  ⟨hrow.placed.mono hsuffix, hrow.small, hrow.room⟩

namespace Builder

variable {before after : Builder} {tables : List PlacedTable} {rows : List Row}

theorem Spares.rises {offset size : ℕ} (hspares : before.Spares tables offset size)
    (hrises : before.Rises after) : after.Spares tables offset size :=
  ⟨hspares.below.trans hrises.floor_le, hspares.apart⟩

/-- A table that was opened at the floor begins in front of what is closed. -/
theorem Spares.cons {offset size : ℕ} (hspares : before.Spares tables offset size)
    (hrises : before.Rises after) {placed : PlacedTable} (hstart : placed.start = before.floor) :
    after.Spares (placed :: tables) offset size where
  below := hspares.below.trans hrises.floor_le
  apart := List.forall_mem_cons.mpr ⟨.inl (hstart ▸ hspares.below), hspares.apart⟩

namespace Separates

theorem new (settings : BuilderSettings) : (Builder.new settings).Separates [] [] :=
  ⟨le_refl _, nofun, nofun, nofun, .nil, nofun, nofun, nofun, nofun⟩

theorem cleared (builder : Builder) : builder.cleared.Separates [] [] :=
  ⟨le_refl _, nofun, nofun, nofun, .nil, nofun, nofun, nofun, nofun⟩

/-- More bytes in front leave everything apart. -/
theorem extend (hseparates : before.Separates tables rows) (hrises : before.Rises after)
    (hvtables : after.vtables = before.vtables) : after.Separates tables rows where
  within := hrises.within
  layouts := fun placed hplaced => (hseparates.layouts placed hplaced).mono hrises.suffix
  spaced := hseparates.spaced
  below := fun placed hplaced => (hseparates.below placed hplaced).trans hrises.floor_le
  bodies := hseparates.bodies
  vtables := fun placed hplaced => (hseparates.vtables placed hplaced).rises hrises
  stored := fun stored hstored => (hseparates.stored stored (hvtables ▸ hstored)).rises hrises
  found := fun row hrow => (hseparates.found row hrow).mono hrises.suffix
  rows := fun row hrow => (hseparates.rows row hrow).rises hrises

/-- A row lies in front of everything that was closed before it. -/
theorem lay (hseparates : before.Separates tables rows) (hrises : before.Rises after)
    (hvtables : after.vtables = before.vtables) {row : Row} (hrow : before.LaysRow row after)
    (hfloor : after.floor = after.written.size) : after.Separates tables (row :: rows) := by
  have hextended := hseparates.extend hrises hvtables
  refine { hextended with
    found := List.forall_mem_cons.mpr ⟨hrow.found, hextended.found⟩
    rows := List.forall_mem_cons.mpr ⟨⟨?_, ?_⟩, hextended.rows⟩ }
  · rw [hfloor, Region.size_eq]
    exact hrow.found.placed.le_length
  · intro placed hplaced
    exact .inr ((Nat.add_le_add_right (hseparates.below placed hplaced) _).trans hrow.front)

/-- A table that is closed lies in front of everything that was closed before it, and its vtable in
front of that, if it is not one that was there. -/
theorem close (hseparates : before.Separates tables rows) {opened : OpenTable}
    {traced : TracedTable} (hphase : before.phase = .table opened)
    (hstart : opened.start = traced.start) (hfills : opened.Fills before traced.filled)
    (hspaced : traced.Spaced before.written.size) {table : ℕ}
    (hcloses : Build.Closes before opened traced.filled table after) :
    ∃ place, after.Separates (⟨⟨traced, table⟩, place⟩ :: tables) rows := by
  obtain ⟨place, hlayout, hlinks⟩ := hcloses.linked
  rw [hfills.entries, hstart] at hlinks
  rw [hstart] at hlayout
  have hfloor : traced.start = before.floor := by
    rw [floor, hphase]
    exact hstart.symm
  have hend : after.floor = after.written.size := floor_eq_size hcloses.adds.idle
  have hrises : before.Rises after := .of_floor hcloses.adds.suffix hseparates.within hend
  have htable : before.written.size + 4 ≤ table := by
    rw [hcloses.table_eq, tableEnd]
    omega
  let placed : PlacedTable := ⟨⟨traced, table⟩, place⟩
  have hlength : (LittleEndian.splitAll 2
      (vtableWords table traced.start (traced.filled.map FilledSlot.entry))).length
      = placed.vtableSize := LittleEndian.length_splitAll _ _
  have hbelow : place ≤ after.floor := by
    rw [hend, Region.size_eq]
    exact hlayout.words.le_length
  have hold {offset size : ℕ} (hspares : before.Spares tables offset size) :
      after.Spares (placed :: tables) offset size := hspares.cons hrises hfloor
  have hown : after.Spares (placed :: tables) place placed.vtableSize := by
    cases hlinks with
    | shared _ hstored =>
        have hspares := hold (hseparates.stored _ hstored)
        rwa [hlength] at hspares
    | fresh _ hfront =>
        -- It lies in front of the table, and so of everything behind that.
        rw [hlength, ← hcloses.table_eq] at hfront
        refine ⟨hbelow, List.forall_mem_cons.mpr ⟨.inr hfront.le, ?_⟩⟩
        intro other hother
        have hother := (hseparates.below other hother).trans hseparates.within
        exact .inr (by omega)
  refine ⟨place, {
    within := hrises.within
    layouts := List.forall_mem_cons.mpr
      ⟨hlayout, fun other hother => (hseparates.layouts other hother).mono hrises.suffix⟩
    spaced := List.forall_mem_cons.mpr
      ⟨hspaced.mono (Nat.le_sub_of_add_le htable), hseparates.spaced⟩
    below := List.forall_mem_cons.mpr ⟨hcloses.adds.within.trans hend.ge,
      fun other hother => (hseparates.below other hother).trans hrises.floor_le⟩
    bodies := List.pairwise_cons.mpr
      ⟨fun earlier hearlier => (hseparates.below earlier hearlier).trans hfloor.ge,
        hseparates.bodies⟩
    vtables := List.forall_mem_cons.mpr
      ⟨hown, fun other hother => hold (hseparates.vtables other hother)⟩
    stored := ?stored
    found := fun row hrow => (hseparates.found row hrow).mono hrises.suffix
    rows := fun row hrow => hold (hseparates.rows row hrow) }⟩
  case stored =>
    intro stored hstored
    cases hlinks with
    | shared _ _ hvtables => exact hold (hseparates.stored stored (hvtables ▸ hstored))
    | fresh _ _ hvtables =>
        rw [hvtables] at hstored
        split at hstored
        · rcases List.mem_cons.mp hstored with rfl | hearlier
          · rwa [hlength]
          · exact hold (hseparates.stored stored hearlier)
        · exact hold (hseparates.stored stored hstored)

end Separates

end Builder

/-! ## Objects as a caller knows them -/

/-- What a caller knows of the objects in the buffer: the count and the size of the vector that was
opened last, the closed vectors and strings, the closed tables, and the references that it has given
to fields without having closed anything there. -/
structure Objects where
  opened : ℕ × ℕ
  rows : List Row
  tables : List ℕ
  strangers : List Number

namespace Objects

def empty : Objects :=
  ⟨(0, 0), [], [], []⟩

/-- The offsets that calls have returned. -/
def known (objects : Objects) : List ℕ :=
  objects.rows.map Row.offset ++ objects.tables

def put (objects : Objects) (row : Row) : Objects :=
  { objects with rows := row :: objects.rows }

/-- A field is given a reference, to nothing if that is zero. -/
def refer (objects : Objects) (target : Number) : Objects :=
  if target.equals 0 || target.toNat?.any (· ∈ objects.known) then objects
  else { objects with strangers := target :: objects.strangers }

/-- What the caller knows after one more call that succeeds. -/
def after (objects : Objects) : Call → Answer → Objects
  | .addField _ (.reference target), _ => objects.refer target
  | .startVector elementSize count _, _ =>
      { objects with opened := (count.toNat?.getD 0, (elementSize * count).toNat?.getD 0) }
  | .endVector, .offset offset => objects.put ⟨offset, objects.opened.1, objects.opened.2⟩
  | .scalars type values, .offset offset =>
      objects.put ⟨offset, values.length, type.width * values.length⟩
  | .offsets targets, .offset offset => objects.put ⟨offset, targets.length, 4 * targets.length⟩
  | .string text, .offset offset => objects.put ⟨offset, text.length, text.length⟩
  | .endTable, .offset table => { objects with tables := table :: objects.tables }
  | .clear, _ => empty
  | _, _ => objects

variable {objects : Objects}

theorem known_subset_put (row : Row) : objects.known ⊆ (objects.put row).known :=
  fun _ hoffset => List.mem_cons_of_mem _ hoffset

/-- A reference that is kept of a field leads to an offset that a call has returned, if none of the
references leads elsewhere. -/
theorem after_addField (objects : Objects) (slot : Number) (field : Field) (answer : Answer) :
    ∃ strangers, objects.after (.addField slot field) answer = { objects with strangers } ∧
      (strangers = [] → objects.strangers = [] ∧ ∀ force target,
        field.kept force = some (.reference target) → target ∈ objects.known) := by
  cases field with
  | scalar type value default =>
      refine ⟨objects.strangers, rfl, fun hnone => ⟨hnone, ?_⟩⟩
      intro force target hkept
      simp only [Field.kept] at hkept
      split at hkept <;> cases hkept
  | reference target =>
      by_cases hpassed : (target.equals 0 || target.toNat?.any (· ∈ objects.known)) = true
      · refine ⟨objects.strangers, if_pos hpassed, fun hnone => ⟨hnone, ?_⟩⟩
        intro force offset hkept
        simp only [Field.kept] at hkept
        split at hkept
        · next hpresent =>
            rw [Bool.not_eq_true'] at hpresent
            rw [hpresent, Bool.false_or, Option.any_eq_true] at hpassed
            obtain ⟨number, hnumber, hknown⟩ := hpassed
            rw [hnumber, Option.getD_some] at hkept
            cases hkept
            exact of_decide_eq_true hknown
        · cases hkept
      · exact ⟨target :: objects.strangers, if_neg hpassed,
          fun hnone => absurd hnone (List.cons_ne_nil _ _)⟩

end Objects

/-- A builder has the objects that a caller knows of, and they lie apart. -/
structure Builder.Presents (builder : Builder) (ledger : Ledger) (objects : Objects) : Prop where
  placed : ∃ tables : List PlacedTable, ledger.closed = tables.map PlacedTable.toClosedTable ∧
    builder.Separates tables objects.rows
  tables : objects.tables = ledger.closed.map ClosedTable.offset
  spaced : ∀ traced ∈ ledger.opened, traced.Spaced builder.written.size
  counted : ∀ opened, builder.phase = .vector opened →
    opened.count.toNat? = some objects.opened.1 ∧
      opened.byteLength.toNat?.getD 0 = objects.opened.2
  refers : objects.strangers = [] → (∀ traced ∈ ledger.opened, traced.RefersTo objects.known) ∧
    ∀ closed ∈ ledger.closed, closed.RefersTo objects.known

/-! ## Calls -/

section Calls

open Build

variable {before after : Builder} {settings : BuilderSettings} {ledger : Ledger}
  {tables : List PlacedTable} {objects : Objects} {call : Call} {answer : Answer}

/-- The floor never sinks, unless everything is discarded. -/
theorem Call.rises (hkept : call ≠ .clear) (hwithin : before.floor ≤ before.written.size)
    (hresult : call.perform before = .ok answer after) : before.Rises after := by
  have hsuffix := Call.perform_appends hkept hresult
  have hsize := Builder.size_le hsuffix
  cases Call.moves hresult with
  | still _ _ hphase => exact .of_phase hphase hsuffix hwithin
  | startTable _ _ hafter =>
      subst hafter
      exact .of_floor hsuffix hwithin rfl
  | @addField _ _ opened _ _ hopened _ _ _ hafter =>
      have hbefore : before.floor = opened.start := by rw [Builder.floor, hopened]
      have hsame : after.floor = opened.start := by rw [Builder.floor, hafter]
      exact ⟨hsuffix, by omega, by omega⟩
  | startVector _ _ hafter => exact .of_floor hsuffix hwithin (by rw [Builder.floor, hafter])
  | endTable _ hafter | endVector _ _ hafter | finish _ hafter =>
      exact .of_floor hsuffix hwithin (by rw [Builder.floor, hafter])
  | clear => exact absurd rfl hkept

namespace Builder.Presents

theorem new (settings : BuilderSettings) : (Builder.new settings).Presents .empty .empty :=
  ⟨⟨[], rfl, .new settings⟩, rfl, nofun, nofun, fun _ => ⟨nofun, nofun⟩⟩

theorem cleared (builder : Builder) : builder.cleared.Presents .empty .empty :=
  ⟨⟨[], rfl, .cleared builder⟩, rfl, nofun, nofun, fun _ => ⟨nofun, nofun⟩⟩

theorem within (hpresents : before.Presents ledger objects) :
    before.floor ≤ before.written.size := by
  obtain ⟨_, -, hseparates⟩ := hpresents.placed
  exact hseparates.within

/-- What closes no object leaves those that there are. -/
theorem keep (hpresents : before.Presents ledger objects) (hrises : before.Rises after)
    (hextends : before.Extends after) {opened : ℕ × ℕ}
    (hopened : ∀ vector, after.phase = .vector vector →
      vector.count.toNat? = some opened.1 ∧ vector.byteLength.toNat?.getD 0 = opened.2) :
    after.Presents ledger { objects with opened } where
  placed := by
    obtain ⟨tables, hclosed, hseparates⟩ := hpresents.placed
    exact ⟨tables, hclosed, hseparates.extend hrises hextends.vtables⟩
  tables := hpresents.tables
  spaced := fun traced htraced =>
    (hpresents.spaced traced htraced).mono (size_le hrises.suffix)
  counted := hopened
  refers := hpresents.refers

/-- A vector or a string is closed. -/
theorem lay (hpresents : before.Presents ledger objects) (hrises : before.Rises after)
    (hextends : before.Extends after) (hidle : after.phase = .idle) {row : Row}
    (hrow : before.LaysRow row after) : after.Presents ledger (objects.put row) where
  placed := by
    obtain ⟨tables, hclosed, hseparates⟩ := hpresents.placed
    exact ⟨tables, hclosed,
      hseparates.lay hrises hextends.vtables hrow (floor_eq_size hidle)⟩
  tables := hpresents.tables
  spaced := fun traced htraced =>
    (hpresents.spaced traced htraced).mono (size_le hrises.suffix)
  counted := by simp [hidle]
  refers := by
    intro hnone
    obtain ⟨hopened, hclosed⟩ := hpresents.refers hnone
    exact ⟨fun traced htraced => (hopened traced htraced).mono (Objects.known_subset_put row),
      fun closed hmem => (hclosed closed hmem).mono (Objects.known_subset_put row)⟩

/-- A field is added, or left out. -/
theorem addField (hpresents : before.Presents ledger objects)
    (haccounts : before.Accounts settings ledger tables) (hrises : before.Rises after)
    {slot : Number} {field : Field} (hresult : Build.addField slot field before = .ok () after) :
    after.Presents
      (ledger.after settings.forceDefaults after.offset (.addField slot field) answer)
      (objects.after (.addField slot field) answer) := by
  obtain ⟨opened, index, entries, hphase, -, -, -, hafter⟩ := phase_after_addField hresult
  obtain ⟨traced, htraced, -⟩ := haccounts.opened.of_table hphase
  obtain ⟨strangers, hobjects, hstrangers⟩ := objects.after_addField slot field answer
  have hleft (vector : OpenVector) : after.phase ≠ .vector vector := by simp [hafter]
  have hkept : after.Presents ledger objects :=
    hpresents.keep hrises (extending_operates.addField slot field hresult) fun vector hvector =>
      absurd hvector (hleft vector)
  rw [hobjects]
  simp only [Ledger.after, htraced, Option.map_some]
  refine ⟨hkept.placed, hkept.tables, ?_, hkept.counted, ?_⟩
  · rintro _ ⟨⟩
    cases hfield : field.kept settings.forceDefaults with
    | none => exact hkept.spaced traced htraced
    | some content =>
        rw [← haccounts.obeys.forceDefaults] at hfield
        exact (hpresents.spaced traced htraced).fill _ (size_of_addField hfield hresult)
  · intro hnone
    obtain ⟨hearlier, hfield⟩ := hstrangers hnone
    obtain ⟨hopened, hclosed⟩ := hpresents.refers hearlier
    refine ⟨?_, hclosed⟩
    rintro _ ⟨⟩
    cases hcontent : field.kept settings.forceDefaults with
    | none => exact hopened traced htraced
    | some content =>
        refine List.forall_mem_cons.mpr ⟨?_, hopened traced htraced⟩
        rintro target rfl
        exact hfield _ target hcontent

/-- The open table is closed. -/
theorem endTable (hpresents : before.Presents ledger objects)
    (haccounts : before.Accounts settings ledger tables) {table : ℕ}
    (hresult : Build.endTable before = .ok table after) :
    after.Presents (ledger.after settings.forceDefaults after.offset .endTable (.offset table))
      (objects.after .endTable (.offset table)) := by
  obtain ⟨opened, hphase⟩ := phase_of_endTable hresult
  obtain ⟨traced, htraced, hstart, hfills⟩ := haccounts.opened.of_table hphase
  have hcloses := (endTable_closes haccounts.sound hphase hfills).ok hresult
  obtain ⟨placed, hclosed, hseparates⟩ := hpresents.placed
  obtain ⟨place, hafter⟩ :=
    hseparates.close hphase hstart hfills (hpresents.spaced traced htraced) hcloses
  simp only [Ledger.after, htraced, Option.map_some, Option.toList_some, List.singleton_append]
  refine ⟨⟨_, ?_, hafter⟩, ?_, ?_, by simp [hcloses.adds.idle], ?_⟩
  · rw [List.map_cons, hclosed]
  · rw [List.map_cons, ← hpresents.tables]
    rfl
  · exact fun other hother => absurd hother (Option.not_mem_none other)
  · intro hnone
    obtain ⟨hopened, hothers⟩ := hpresents.refers hnone
    have hmore : objects.known ⊆ (objects.after .endTable (.offset table)).known := by
      intro offset hoffset
      rcases List.mem_append.mp hoffset with hrow | hearlier
      · exact List.mem_append_left _ hrow
      · exact List.mem_append_right _ (List.mem_cons_of_mem _ hearlier)
    exact ⟨fun other hother => absurd hother (Option.not_mem_none other),
      List.forall_mem_cons.mpr ⟨(hopened traced htraced).mono hmore,
        fun closed hmem => (hothers closed hmem).mono hmore⟩⟩

/-- A call that succeeds leaves the objects apart. -/
theorem perform (haccounts : before.Accounts settings ledger tables) (hbasic : call.Basic)
    (hpresents : before.Presents ledger objects)
    (hresult : call.perform before = .ok answer after) :
    after.Presents (ledger.after settings.forceDefaults after.offset call answer)
      (objects.after call answer) := by
  by_cases hkept : call = .clear
  · subst hkept
    cases Call.of_perform_nothing hresult
    exact .cleared before
  have hrises := Call.rises hkept hpresents.within hresult
  by_cases hopen : call = .endTable
  · subst hopen
    obtain ⟨table, hdone, rfl⟩ := Call.of_perform_map hresult
    exact hpresents.endTable haccounts hdone
  have hextends := Call.perform_extending hbasic hkept hopen hresult
  have hsame (hphase : after.phase = before.phase) : after.Presents ledger objects :=
    hpresents.keep hrises hextends fun vector hvector =>
      hpresents.counted vector (hphase.symm.trans hvector)
  have hleave (hphase : ∀ vector, after.phase ≠ .vector vector) : after.Presents ledger objects :=
    hpresents.keep hrises hextends fun vector hvector => absurd hvector (hphase vector)
  cases call with
  | prepare _ _ | write _ _ | writeOffset _ | bytes | offset =>
      exact hsame (Call.phase_of_still hresult trivial)
  | addField slot field =>
      exact hpresents.addField haccounts hrises (Call.of_perform_nothing hresult)
  | startTable fieldCount =>
      obtain ⟨_, -, rfl⟩ := (startTable_writes fieldCount).ok (Call.of_perform_nothing hresult)
      have hleft := hleave nofun
      refine ⟨hleft.placed, hleft.tables, ?_, hleft.counted, ?_⟩
      · rintro _ ⟨⟩
        exact ⟨le_refl _, nofun, .nil⟩
      · intro hnone
        refine ⟨?_, (hleft.refers hnone).2⟩
        rintro _ ⟨⟩
        exact nofun
  | endTable => exact absurd rfl hopen
  | startVector elementSize count alignment =>
      have hphase := phase_of_startVector (Call.of_perform_nothing hresult)
      have hcount := count_of_startVector (Call.of_perform_nothing hresult)
      refine hpresents.keep hrises hextends ?_
      rintro vector hvector
      cases hphase.symm.trans hvector
      obtain ⟨number, hnumber⟩ := hcount
      rw [hnumber]
      exact ⟨rfl, rfl⟩
  | endVector =>
      obtain ⟨offset, hdone, rfl⟩ := Call.of_perform_map hresult
      obtain ⟨opened, hphase⟩ := phase_of_endVector hdone
      obtain ⟨hcount, hbytes⟩ := hpresents.counted opened hphase
      have hrow := endVector_row haccounts.sound hpresents.within hphase hcount hdone
      rw [hbytes] at hrow
      exact hpresents.lay hrises hextends (idle_after_endVector hdone) hrow
  | scalars type values =>
      obtain ⟨offset, hdone, rfl⟩ := Call.of_perform_map hresult
      have hrow := (scalarElement type).vector_row values haccounts.sound
        (continues_prepends.write type) hdone
      exact hpresents.lay hrises hextends (idle_after_vectorOf hdone) hrow
  | offsets targets =>
      obtain ⟨offset, hdone, rfl⟩ := Call.of_perform_map hresult
      have hrow := offsetElement.vector_row targets haccounts.sound
        continues_prepends.writeOffset hdone
      exact hpresents.lay hrises hextends (idle_after_vectorOf hdone) hrow
  | string text =>
      obtain ⟨offset, hdone, rfl⟩ := Call.of_perform_map hresult
      exact hpresents.lay hrises hextends (idle_after_stringBytes hdone)
        (stringBytes_row haccounts.sound text hdone)
  | attrs _ | payload _ | operator _ | constant _ | valueNode | node _ | graph _ | model _ =>
      exact hbasic.elim
  | finish root options =>
      exact hleave (by simp [phase_after_finish (Call.of_perform_nothing hresult)])
  | clear => exact absurd rfl hkept

end Builder.Presents

end Calls

end GraphWire

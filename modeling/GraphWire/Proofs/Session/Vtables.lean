import GraphWire.Proofs.Session.Ledger

/-!
# The vtables of a session

The ledger of a session gives the words of every vtable, and the buffer holds exactly these.  A
builder that shares vtables holds every list of words once, and a table cannot be closed exactly
when it or its vtable is too large for an entry or for the buffer.
-/

namespace GraphWire

/-! ## What the buffer holds -/

/-- The distance at the table leads a reader to its vtable, which has these words and no others, and
the distances in the vtable lead from the table to its values. -/
structure ClosedTable.VtableAt (closed : ClosedTable) (window : Window) (position : ℕ) : Prop where
  within : closed.offset ≤ window.length
  found : window.vtable (window.length - closed.offset : ℕ)
    = .ok ⟨position, 2 * closed.vtable.length⟩
  words : ∀ (index word : ℕ), closed.vtable[index]? = some word →
    window.readWord 2 (position + 2 * index : ℕ) = .ok word
  values : ∀ value ∈ closed.filled, ∃ distance, closed.vtable[2 + value.slot]? = some distance ∧
    0 < distance ∧ value.content.ReadAt window (window.length - closed.offset + distance : ℕ)

namespace TableLayout

variable {placed : PlacedTable} {window : Window}

theorem vtable_eq_words {bytes : List UInt8}
    (hlayout : TableLayout bytes placed.offset placed.start placed.place placed.filled) :
    placed.vtable = vtableWords placed.offset placed.start (placed.filled.map FilledSlot.entry) :=
  TracedTable.words_eq _ hlayout.ascending

/-- A reader of the bytes finds the vtable of a table at its place. -/
theorem vtableAt
    (hlayout : TableLayout window.toList placed.offset placed.start placed.place placed.filled) :
    placed.VtableAt window (window.length - placed.place) := by
  have hvtable := hlayout.vtable_eq_words
  have htable := hlayout.distance.le_length
  rw [Window.length_toList] at htable
  refine ⟨htable, ?_, ?_, ?_⟩
  · rw [hvtable]
    exact hlayout.vtable_eq
  · intro index word hword
    rw [hvtable] at hword
    have hplace := hlayout.words.le_length
    have hwords := hlayout.words.length_le
    rw [Window.length_toList] at hplace
    rw [LittleEndian.length_splitAll] at hwords
    have hindex := (List.getElem?_eq_some_iff.mp hword).1
    rw [Window.readWord, Window.claim_natCast (by omega)]
    exact hlayout.load_word hword
  · intro value hvalue
    obtain ⟨-, hbelow, hplaced⟩ := hlayout.values value hvalue
    have hentry : value.entry ∈ placed.filled.map FilledSlot.entry := List.mem_map_of_mem hvalue
    have hslot := slotCount_le_iff.mp (le_refl _) value.entry hentry
    have hlookup := lookup_of_mem hlayout.ascending hentry
    have hvalueAt : window.length - placed.offset + (placed.offset - value.offset)
        = window.length - value.offset := by omega
    refine ⟨placed.offset - value.offset, ?_, by omega, ?_⟩
    · simp only [FilledSlot.entry] at hslot hlookup
      simp [ClosedTable.vtable, TracedTable.words, Nat.add_comm 2, hslot, entryOf, hlookup]
    · rw [hvalueAt]
      exact hplaced.readAt

end TableLayout

/-- Closing a table in a session gives its offset or the reason against it. -/
theorem Builder.step_endTable (builder : Builder) : (builder.step .endTable).1
    = match Build.endTable builder with
      | .ok table _ => .ok (.offset table)
      | .error error _ => .error error := by
  unfold Builder.step Call.perform
  cases hresult : Build.endTable builder with
  | ok table after => simp [hresult, Functor.map, EStateM.map]
  | error error after => simp [hresult, Functor.map, EStateM.map]

/-- A table has one vtable. -/
theorem ClosedTable.VtableAt.position_eq {closed : ClosedTable} {window : Window}
    {position position' : ℕ} (hat : closed.VtableAt window position)
    (hat' : closed.VtableAt window position') : position = position' :=
  congrArg Vtable.start (Except.ok.inj (hat.found.symm.trans hat'.found))

namespace Builder.Accounts

variable {builder : Builder} {settings : BuilderSettings} {ledger : Ledger}
  {tables : List PlacedTable} {window : Window}

/-- A closed table has its vtable in the buffer, with words that are entries. -/
theorem found (haccounts : builder.Accounts settings ledger tables)
    (hwindow : window.toList = builder.written.bytes) {closed : ClosedTable}
    (hclosed : closed ∈ ledger.closed) : ∃ placed ∈ tables, placed.toClosedTable = closed ∧
      closed.VtableAt window (window.length - placed.place) ∧ placed.place ≤ window.length ∧
      (∀ word ∈ closed.vtable, word < 256 ^ 2) ∧
      window.slice (window.length - placed.place) (2 * closed.vtable.length)
        = LittleEndian.splitAll 2 closed.vtable := by
  rw [haccounts.closed] at hclosed
  obtain ⟨placed, hplaced, rfl⟩ := List.mem_map.mp hclosed
  have hlayout := haccounts.layouts placed hplaced
  rw [← hwindow] at hlayout
  have hwords := hlayout.words
  have hsmall := hlayout.small
  have hlength := hwords.le_length
  rw [← hlayout.vtable_eq_words] at hwords hsmall
  rw [Window.length_toList] at hlength
  have hslice := Window.slice_placed hwords
  rw [LittleEndian.length_splitAll] at hslice
  have hentry : Layout.maxEntry < 256 ^ 2 := by decide
  exact ⟨placed, hplaced, rfl, hlayout.vtableAt, hlength,
    fun word hword => Nat.lt_of_le_of_lt (hsmall word hword) hentry, hslice⟩

/-- Where vtables are shared, tables have one vtable exactly if the words are the same. -/
theorem position_eq_iff (haccounts : builder.Accounts settings ledger tables)
    (hsharing : settings.dedupeVtables = true) (hwindow : window.toList = builder.written.bytes)
    {first second : ClosedTable} (hfirst : first ∈ ledger.closed)
    (hsecond : second ∈ ledger.closed) {position position' : ℕ}
    (hat : first.VtableAt window position) (hat' : second.VtableAt window position') :
    (position = position' ↔ first.vtable = second.vtable) ∧
      (window.slice position (2 * first.vtable.length)
        = window.slice position' (2 * second.vtable.length) → position = position') := by
  obtain ⟨placed, hplaced, rfl, hplace, hle, hsmall, hslice⟩ := haccounts.found hwindow hfirst
  obtain ⟨placed', hplaced', rfl, hplace', hle', hsmall', hslice'⟩ :=
    haccounts.found hwindow hsecond
  obtain rfl := hat.position_eq hplace
  obtain rfl := hat'.position_eq hplace'
  have hoffset := (haccounts.interned hsharing).1.offset_eq_iff
    (List.mem_map_of_mem hplaced) (List.mem_map_of_mem hplaced')
  have hsame : window.length - placed.place = window.length - placed'.place
      ↔ placed.vtable = placed'.vtable := by
    have hposition : window.length - placed.place = window.length - placed'.place
        ↔ placed.place = placed'.place := by omega
    rw [hposition]
    refine hoffset.trans ⟨LittleEndian.splitAll_injective hsmall hsmall', ?_⟩
    exact congrArg (LittleEndian.splitAll 2)
  refine ⟨hsame, ?_⟩
  intro hbytes
  rw [hslice, hslice'] at hbytes
  exact hsame.mpr (LittleEndian.splitAll_injective hsmall hsmall' hbytes)

/-- Where vtables are shared, there are as many as there are different lists of words. -/
theorem vtableCount_eq_dedup (haccounts : builder.Accounts settings ledger tables)
    (hsharing : settings.dedupeVtables = true) :
    builder.vtableCount = (ledger.closed.map ClosedTable.vtable).dedup.length := by
  obtain ⟨hinterns, hcount⟩ := haccounts.interned hsharing
  have hwindow := Window.toList_ofList builder.written.bytes
  have hkeys : (tables.map PlacedTable.stored).map StoredVtable.bytes
      = (ledger.closed.map ClosedTable.vtable).map (LittleEndian.splitAll 2) := by
    rw [haccounts.closed, List.map_map, List.map_map, List.map_map]
    rfl
  rw [hcount]
  apply hinterns.length_eq hkeys
  intro words hwords words' hwords'
  obtain ⟨closed, hclosed, rfl⟩ := List.mem_map.mp hwords
  obtain ⟨closed', hclosed', rfl⟩ := List.mem_map.mp hwords'
  obtain ⟨-, -, -, -, -, hsmall, -⟩ := haccounts.found hwindow hclosed
  obtain ⟨-, -, -, -, -, hsmall', -⟩ := haccounts.found hwindow hclosed'
  exact LittleEndian.splitAll_injective hsmall hsmall'

/-- Where vtables are not shared, each table has its own. -/
theorem pairwise_apart (haccounts : builder.Accounts settings ledger tables)
    (hapart : settings.dedupeVtables = false) (hwindow : window.toList = builder.written.bytes) :
    ledger.closed.Pairwise fun first second => ∀ position position',
      first.VtableAt window position → second.VtableAt window position' →
        position ≠ position' := by
  obtain ⟨hdistinct, -⟩ := haccounts.apart hapart
  rw [haccounts.closed, List.pairwise_map]
  refine (List.pairwise_map.mp hdistinct).imp_of_mem ?_
  intro placed placed' hplaced hplaced' hplace position position' hat hat'
  have hlayout := haccounts.layouts placed hplaced
  have hlayout' := haccounts.layouts placed' hplaced'
  rw [← hwindow] at hlayout hlayout'
  have hle := hlayout.words.le_length
  have hle' := hlayout'.words.le_length
  rw [Window.length_toList] at hle hle'
  rw [hat.position_eq hlayout.vtableAt, hat'.position_eq hlayout'.vtableAt]
  omega

/-- An open table is refused at its end for its size, for that of its vtable or for want of room. -/
theorem endTable_refused_iff (haccounts : builder.Accounts settings ledger tables)
    {traced : TracedTable} (hopened : ledger.opened = some traced) :
    ((∃ error, (builder.step .endTable).1 = .error error) ↔
      Layout.maxEntry < builder.tableEnd - traced.start ∨
        Layout.maxEntry < 2 * (traced.words builder.tableEnd).length ∨
        Layout.maxBufferSize < builder.tableEnd + 2 * (traced.words builder.tableEnd).length) ∧
      ∀ cause, (builder.step .endTable).1 ≠ .error (.argument cause) := by
  have hopens := haccounts.opened
  rw [hopened] at hopens
  obtain ⟨opened, hphase, hstart, hfills⟩ := hopens
  have hascending := hfills.ascending.mono (Nat.zero_le _)
  rw [hfills.entries] at hascending
  have hends := Build.endTable_ends haccounts.sound hphase hfills
  rw [hfills.entries, hstart, ← TracedTable.words_eq builder.tableEnd hascending] at hends
  rw [step_endTable]
  cases hresult : Build.endTable builder with
  | ok table after =>
      rw [hresult] at hends
      obtain ⟨hcloses, hsize, hvtable⟩ := hends
      have hroom := hcloses.room
      rw [hcloses.table_eq, hfills.entries, hstart,
        ← TracedTable.words_eq builder.tableEnd hascending] at hroom
      refine ⟨⟨nofun, ?_⟩, nofun⟩
      omega
  | error error after =>
      rw [hresult] at hends
      rcases hends with ⟨rfl, hlarge⟩ | ⟨⟨refused, rfl⟩, hlarge⟩ | ⟨rfl, hlarge⟩
      · exact ⟨⟨fun _ => .inl hlarge, fun _ => ⟨_, rfl⟩⟩, nofun⟩
      · exact ⟨⟨fun _ => .inr (.inl hlarge), fun _ => ⟨_, rfl⟩⟩, nofun⟩
      · exact ⟨⟨fun _ => .inr (.inr hlarge), fun _ => ⟨_, rfl⟩⟩, nofun⟩

end Builder.Accounts

/-- Sharing of vtables is exact.  After any session without errors the distance at a closed table
leads to the words of its vtable.  A builder that shares vtables has one for each list of words, and
one that does not has one for each table that was closed.  An open table is refused at its end
exactly if its size or that of its vtable is no entry, or if the buffer has no room for both. -/
theorem Builder.vtables_exact {options : BuilderOptions} {settings : BuilderSettings}
    (hsettings : options.resolve = .ok settings) {calls : List Call}
    (hbasic : ∀ call ∈ calls, call.Basic) {answers : List Answer}
    (hrun : ((Builder.new settings).run calls).1 = answers.map .ok) {window : Window}
    (hwindow : window.toList = ((Builder.new settings).run calls).2.written.bytes) :
    let last := ((Builder.new settings).run calls).2
    let ledger := (Builder.new settings).account .empty calls
    ledger.closed.length = calls.foldl Call.tally 0 ∧
    (∀ closed ∈ ledger.closed, ∃ position, closed.VtableAt window position) ∧
    (settings.dedupeVtables = true →
      (∀ first ∈ ledger.closed, ∀ second ∈ ledger.closed, ∀ position position',
        first.VtableAt window position → second.VtableAt window position' →
          (position = position' ↔ first.vtable = second.vtable) ∧
          (window.slice position (2 * first.vtable.length)
            = window.slice position' (2 * second.vtable.length) → position = position')) ∧
      last.vtableCount = (ledger.closed.map ClosedTable.vtable).dedup.length) ∧
    (settings.dedupeVtables = false →
      ledger.closed.Pairwise (fun first second => ∀ position position',
        first.VtableAt window position → second.VtableAt window position' →
          position ≠ position') ∧
      last.vtableCount = ledger.closed.length) ∧
    ∀ opened, last.phase = .table opened → ∃ traced, ledger.opened = some traced ∧
      ((∃ error, (last.step .endTable).1 = .error error) ↔
        Layout.maxEntry < last.tableEnd - traced.start ∨
          Layout.maxEntry < 2 * (traced.words last.tableEnd).length ∨
          Layout.maxBufferSize < last.tableEnd + 2 * (traced.words last.tableEnd).length) ∧
      ∀ cause, (last.step .endTable).1 ≠ .error (.argument cause) := by
  obtain ⟨⟨tables, haccounts⟩, hlength⟩ := (Accounts.new hsettings).run hbasic hrun
  refine ⟨hlength, ?_, ?_, ?_, ?_⟩
  · intro closed hclosed
    obtain ⟨placed, -, -, hplace, -⟩ := haccounts.found hwindow hclosed
    exact ⟨_, hplace⟩
  · intro hsharing
    refine ⟨?_, haccounts.vtableCount_eq_dedup hsharing⟩
    intro first hfirst second hsecond position position' hat hat'
    exact haccounts.position_eq_iff hsharing hwindow hfirst hsecond hat hat'
  · intro hapart
    refine ⟨haccounts.pairwise_apart hapart hwindow, ?_⟩
    rw [(haccounts.apart hapart).2, haccounts.closed, List.length_map]
  · intro opened hphase
    obtain ⟨traced, htraced, -⟩ := haccounts.opened.of_table hphase
    exact ⟨traced, htraced, haccounts.endTable_refused_iff htraced⟩

/-- Two tables of one shape that declare different numbers of fields share a vtable, one of another
shape has its own, and one that is still open can be closed. -/
theorem Builder.vtables_exact_shapes :
    ∃ calls : List Call, ∃ last : Builder, ∃ first second other : ClosedTable,
      last = ((Builder.new ⟨1024, false, true⟩).run calls).2 ∧
      ((Builder.new ⟨1024, false, true⟩).account .empty calls).closed = [other, second, first] ∧
      first.vtable = [6, 8, 4] ∧ second.vtable = [6, 8, 4] ∧ other.vtable = [8, 8, 0, 4] ∧
      (∃ position, first.VtableAt (.ofList last.written.bytes) position ∧
        second.VtableAt (.ofList last.written.bytes) position) ∧
      last.vtableCount = 2 ∧ ¬∃ error, (last.step .endTable).1 = .error error := by
  let calls : List Call := [.startTable 1, .addField 0 (.scalar .int32 (5 : Number) (0 : Number)),
    .endTable, .prepare 4 0, .startTable 4, .addField 2 (.scalar .int8 (1 : Number) (1 : Number)),
    .addField 0 (.scalar .int32 (7 : Number) (0 : Number)), .endTable,
    .startTable 2, .addField 1 (.scalar .int32 (9 : Number) (0 : Number)), .endTable,
    .startTable 0]
  let answers : List Answer := [.nothing, .nothing, .offset 8, .nothing, .nothing, .nothing,
    .nothing, .offset 24, .nothing, .nothing, .offset 32, .nothing]
  have hsettings : BuilderOptions.resolve {} = .ok ⟨1024, false, true⟩ := by rfl
  have hbasic : ∀ call ∈ calls, call.Basic := by simp [calls, Call.Basic]
  have hrun : ((Builder.new ⟨1024, false, true⟩).run calls).1 = answers.map .ok := by
    decide +kernel
  have hvtables : ((Builder.new ⟨1024, false, true⟩).account .empty calls).closed.map
      ClosedTable.vtable = [[8, 8, 0, 4], [6, 8, 4], [6, 8, 4]] := by decide +kernel
  have hphase : ((Builder.new ⟨1024, false, true⟩).run calls).2.phase
      = .table ⟨0, 40, 0, []⟩ := by decide +kernel
  have hwords : ((Builder.new ⟨1024, false, true⟩).account .empty calls).opened.map
      (fun traced => (traced.start, traced.words 44)) = some (40, [4, 4]) := by decide +kernel
  have hend : ((Builder.new ⟨1024, false, true⟩).run calls).2.tableEnd = 44 := by decide +kernel
  obtain ⟨-, hfound, hshared, -, hopen⟩ :=
    Builder.vtables_exact hsettings hbasic hrun (Window.toList_ofList _)
  obtain ⟨hpositions, hcount⟩ := hshared rfl
  rw [hvtables] at hcount
  obtain ⟨other, _, hclosed, hother, hlater⟩ := List.map_eq_cons_iff.mp hvtables
  obtain ⟨second, _, rfl, hsecond, hlast⟩ := List.map_eq_cons_iff.mp hlater
  obtain ⟨first, _, rfl, hfirst, hnone⟩ := List.map_eq_cons_iff.mp hlast
  obtain rfl := List.map_eq_nil_iff.mp hnone
  rw [hclosed] at hfound hpositions
  obtain ⟨position, hat⟩ := hfound first (by simp)
  obtain ⟨position', hat'⟩ := hfound second (by simp)
  obtain ⟨hsame, -⟩ :=
    hpositions first (by simp) second (by simp) position position' hat hat'
  obtain rfl := hsame.mpr (hfirst.trans hsecond.symm)
  obtain ⟨traced, htraced, hrefused, -⟩ := hopen _ hphase
  rw [htraced, Option.map_some, Option.some.injEq, Prod.mk.injEq] at hwords
  rw [hend, hwords.1, hwords.2] at hrefused
  refine ⟨calls, _, first, second, other, rfl, hclosed, hfirst, hsecond, hother,
    ⟨position, hat, hat'⟩, hcount.trans (by decide), ?_⟩
  rw [hrefused]
  decide

/-! ### A buffer without room for a vtable -/

/-- Asks for a power of two at which some bytes will be aligned. -/
def Call.makeRoom (room : ℕ × ℕ) : Call :=
  .prepare (2 ^ room.1 : ℕ) (room.2 : ℕ)

/-- The size of a buffer after room has been made again and again, if there was room each time. -/
def paddedSize (size : ℕ) : List (ℕ × ℕ) → Option ℕ
  | [] => some size
  | (exponent, bytes) :: rooms =>
      let padded := size + padding (2 ^ exponent) (size + bytes)
      if padded + 2 ^ exponent + bytes ≤ Layout.maxBufferSize then paddedSize padded rooms else none

theorem Builder.step_makeRoom {builder : Builder} {settings : BuilderSettings}
    (hobeys : builder.Obeys settings) (hphase : builder.phase = .idle) {exponent bytes : ℕ}
    (hroom : builder.written.size + padding (2 ^ exponent) (builder.written.size + bytes)
      + 2 ^ exponent + bytes ≤ Layout.maxBufferSize) :
    ∃ after : Builder, builder.step (.makeRoom (exponent, bytes)) = (.ok .nothing, after) ∧
      after.written.size
        = builder.written.size + padding (2 ^ exponent) (builder.written.size + bytes) ∧
      after.phase = .idle ∧ after.Obeys settings := by
  have hunfinished : builder.phase ≠ .finished := by
    rw [hphase]
    nofun
  have hlarge : 2 ^ exponent ≤ Build.maxAlignment := by
    have hlimit : Layout.maxBufferSize < Build.maxAlignment := by decide
    omega
  let zeros := padding (2 ^ exponent) (builder.written.size + bytes)
  let grown := builder.growTo (builder.written.size + zeros + 2 ^ exponent + bytes)
  let after : Builder := { grown with
    alignment := max builder.alignment (2 ^ exponent : ℕ)
    written := builder.written.push (List.replicate zeros 0) }
  have hresult : Build.prepare (2 ^ exponent : ℕ) (bytes : ℕ) builder = .ok () after := by
    rw [Build.prepare_natCast (Nat.two_pow_pos exponent) hlarge bytes]
    exact Build.reserve_of_room hobeys hunfinished hroom
  have hperform : (Call.makeRoom (exponent, bytes)).perform builder = .ok .nothing after :=
    Build.bind_of_ok hresult
  have hsize : after.written.size = builder.written.size + zeros := by
    rw [Region.size_push, List.length_replicate, Nat.add_comm]
  have hgrown : grown.Obeys settings := hobeys.growTo _
  refine ⟨after, by rw [Builder.step, hperform], hsize, hphase, ?_⟩
  exact ⟨hgrown.forceDefaults, hgrown.dedupeVtables, hgrown.positive, hgrown.limited⟩

/-- Making room in an idle builder again and again leaves nothing behind but zero bytes. -/
theorem Builder.run_makeRoom {builder : Builder} {settings : BuilderSettings}
    (hobeys : builder.Obeys settings) (hphase : builder.phase = .idle) {rooms : List (ℕ × ℕ)}
    {size : ℕ} (hsize : paddedSize builder.written.size rooms = some size) (calls : List Call) :
    ∃ padded : Builder, padded.written.size = size ∧ padded.phase = .idle ∧
      builder.run (rooms.map .makeRoom ++ calls)
        = (rooms.map (fun _ => .ok .nothing) ++ (padded.run calls).1, (padded.run calls).2) := by
  induction rooms generalizing builder with
  | nil =>
      obtain rfl := Option.some_inj.mp hsize
      exact ⟨builder, rfl, hphase, rfl⟩
  | cons room rooms ih =>
      obtain ⟨exponent, bytes⟩ := room
      rw [paddedSize] at hsize
      split at hsize
      · next hroom =>
          obtain ⟨after, hstep, hafter, hidle, hobeys'⟩ := step_makeRoom hobeys hphase hroom
          rw [← hafter] at hsize
          obtain ⟨padded, hpadded, hidle', hrun⟩ := ih hobeys' hidle hsize
          refine ⟨padded, hpadded, hidle', ?_⟩
          rw [List.map_cons, List.cons_append, Builder.run, hstep]
          simp only [hrun]
          rfl
      · cases hsize

theorem Builder.step_startTable {builder : Builder} (hphase : builder.phase = .idle) :
    builder.step (.startTable 0)
      = (.ok .nothing, { builder with phase := .table ⟨0, builder.written.size, 0, []⟩ }) := by
  have hresult : Build.startTable 0 builder
      = .ok () { builder with phase := .table ⟨0, builder.written.size, 0, []⟩ } := by
    simp only [Build.startTable, Build.begin_eq hphase]
    rfl
  have hperform : (Call.startTable 0).perform builder = .ok .nothing _ := Build.bind_of_ok hresult
  rw [Builder.step, hperform]

/-- A table without fields is refused when its own distance and its vtable of four bytes have no
room. -/
theorem Builder.step_endTable_of_full {builder : Builder} {opened : OpenTable}
    (hsound : builder.Sound) (hphase : builder.phase = .table opened)
    (hfills : opened.Fills builder []) (hsmall : builder.tableEnd - opened.start ≤ Layout.maxEntry)
    (hfull : Layout.maxBufferSize < builder.tableEnd + 4) :
    (builder.step .endTable).1 = .error .capacityLimit := by
  have hends := Build.endTable_ends hsound hphase hfills
  have hwords : (vtableWords builder.tableEnd opened.start opened.entries).length = 2 := by
    rw [hfills.entries]
    rfl
  rw [hwords] at hends
  rw [step_endTable]
  cases hresult : Build.endTable builder with
  | ok table after =>
      rw [hresult] at hends
      have hroom := hends.1.room
      rw [hends.1.table_eq, hwords] at hroom
      omega
  | error error after =>
      rw [hresult] at hends
      rcases hends with ⟨-, hlarge⟩ | ⟨-, hlarge⟩ | ⟨rfl, -⟩
      · omega
      · exact absurd hlarge (by decide)
      · rfl

/-- Room for powers of two from 2^29 down.  Each round pads half of the bytes that are left, and in
the end there are eight. -/
def nearlyFull : List (ℕ × ℕ) :=
  (List.range 27).flatMap (fun round =>
    [(29 - round, 1), (29 - round, 0), (29 - round, 1), (29 - round, 0)]) ++ [(2, 1), (2, 0), (2, 1)]

/-- Behind eight bytes that are left there is no room for a table and its vtable, however small they
are. -/
theorem Builder.vtables_exact_limit :
    let calls := nearlyFull.map Call.makeRoom ++ [.startTable 0]
    ∃ (last : Builder) (opened : OpenTable) (traced : TracedTable),
      BuilderOptions.resolve { initialSize := some 2147483647 } = .ok ⟨2147483647, false, true⟩ ∧
      (∀ call ∈ calls, call.Basic) ∧
      (Builder.new ⟨2147483647, false, true⟩).run calls = (calls.map fun _ => .ok .nothing, last) ∧
      last.phase = .table opened ∧
      ((Builder.new ⟨2147483647, false, true⟩).account .empty calls).opened = some traced ∧
      last.tableEnd - traced.start = 5 ∧ 2 * (traced.words last.tableEnd).length = 4 ∧
      (last.step .endTable).1 = .error .capacityLimit := by
  intro calls
  have hsettings : BuilderOptions.resolve { initialSize := some 2147483647 }
      = .ok ⟨2147483647, false, true⟩ := by rfl
  have hsize : paddedSize 0 nearlyFull = some 2147483639 := by decide
  have hobeys := Builder.obeys_new hsettings rfl rfl
  obtain ⟨padded, hpadded, hidle, hall⟩ := run_makeRoom hobeys rfl hsize [.startTable 0]
  have hbasic : ∀ call ∈ calls, call.Basic := by
    intro call hcall
    rcases List.mem_append.mp hcall with hroom | hstart
    · obtain ⟨room, -, rfl⟩ := List.mem_map.mp hroom
      trivial
    · obtain rfl := List.mem_singleton.mp hstart
      trivial
  let last : Builder := { padded with phase := .table ⟨0, padded.written.size, 0, []⟩ }
  have hrun : (Builder.new ⟨2147483647, false, true⟩).run calls
      = (calls.map fun _ => .ok .nothing, last) := by
    rw [hall, Builder.run, step_startTable hidle, List.map_append, List.map_map]
    rfl
  have hanswers : ((Builder.new ⟨2147483647, false, true⟩).run calls).1
      = (calls.map fun _ => Answer.nothing).map .ok := by
    rw [hrun, List.map_map]
    rfl
  obtain ⟨⟨tables, haccounts⟩, -⟩ := (Builder.Accounts.new hsettings).run hbasic hanswers
  rw [hrun] at haccounts
  obtain ⟨⟨start, filled⟩, htraced, hstart, hfills⟩ := haccounts.opened.of_table rfl
  obtain rfl : padded.written.size = start := hstart
  obtain rfl : filled = [] := List.map_eq_nil_iff.mp hfills.entries.symm
  have hend : last.tableEnd = 2147483644 := by
    change padded.written.size + padding 4 padded.written.size + 4 = _
    rw [hpadded]
    decide
  have hlength : last.tableEnd - padded.written.size = 5 := by rw [hend, hpadded]
  refine ⟨last, _, _, hsettings, hbasic, hrun, rfl, htraced, hlength, rfl, ?_⟩
  apply step_endTable_of_full haccounts.sound rfl hfills
  · change last.tableEnd - padded.written.size ≤ Layout.maxEntry
    rw [hlength]
    decide
  · rw [hend]
    decide

end GraphWire

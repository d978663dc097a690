import GraphWire.Proofs.Session.Separation

/-!
# Fields that do not affect each other

When the bytes of one field of a finished buffer are replaced by others, every other field of every
table reads as before: since all that a session has closed lies apart, no accessor of another slot
looks at these bytes (`Builder.fields_isolated`).
-/

namespace GraphWire

/-- A slot holds the same content in two tables, and if that is a reference, the vector or string
that it leads to is read alike through both of them. -/
structure Table.SlotAlike (table table' : Table) (objects : Objects) (slot : ℕ)
    (content : Content) : Prop where
  holds : table.Holds slot content
  holds' : table'.Holds slot content
  rows : ∀ target, content = .reference target → target ∈ objects.known ∧
    ∀ row ∈ objects.rows, row.offset = target → table.RowAlike table' slot row

namespace Builder

variable {builder : Builder} {tables : List PlacedTable} {rows : List Row}
  {placed other : PlacedTable} {value : FilledSlot}

/-! ## What the bytes of a field lie apart from -/

/-- A value of a table does not overlap what is no part of the table. -/
theorem Spares.apart_value {offset size : ℕ} (hspares : builder.Spares tables offset size)
    (hplaced : placed ∈ tables) {last : ℕ} (hspaced : placed.Spaced last)
    (hlast : last ≤ placed.offset) (hvalue : value ∈ placed.filled) :
    Apart value.offset value.content.width offset size := by
  obtain ⟨hstart, hwithin⟩ := hspaced.within value hvalue
  rcases hspares.apart placed hplaced with hbehind | hfront
  · exact .inl (by omega)
  · exact .inr (by omega)

namespace Separates

/-- Of two tables one lies in front of the other. -/
theorem bodies_apart (hseparates : builder.Separates tables rows) (hplaced : placed ∈ tables)
    (hother : other ∈ tables) :
    placed = other ∨ other.offset ≤ placed.start ∨ placed.offset ≤ other.start := by
  refine List.Pairwise.forall_of_forall_of_flip (R := fun placed other : PlacedTable =>
    placed = other ∨ other.offset ≤ placed.start ∨ placed.offset ≤ other.start)
    (fun _ _ => .inl rfl) ?_ ?_ hplaced hother
  · exact hseparates.bodies.imp fun hfront => .inr (.inl hfront)
  · exact hseparates.bodies.imp fun hfront => .inr (.inr hfront)

/-- Two values are that of one slot or do not overlap. -/
theorem values_apart (hseparates : builder.Separates tables rows) (hplaced : placed ∈ tables)
    (hvalue : value ∈ placed.filled) (hother : other ∈ tables) {another : FilledSlot}
    (hanother : another ∈ other.filled) :
    placed = other ∧ value = another ∨
      Apart value.offset value.content.width another.offset another.content.width := by
  have hspaced := hseparates.spaced placed hplaced
  obtain ⟨hstart, hwithin⟩ := hspaced.within value hvalue
  obtain ⟨hstart', hwithin'⟩ := (hseparates.spaced other hother).within another hanother
  rcases hseparates.bodies_apart hplaced hother with rfl | hbehind | hfront
  · exact (hspaced.apart_of_ne hvalue hanother).imp_left fun hsame => ⟨rfl, hsame⟩
  · exact .inr (.inl (by omega))
  · exact .inr (.inr (by omega))

/-- A value does not overlap the distance of any table. -/
theorem distance_apart (hseparates : builder.Separates tables rows) (hplaced : placed ∈ tables)
    (hvalue : value ∈ placed.filled) (hother : other ∈ tables) :
    Apart value.offset value.content.width other.offset 4 := by
  have hwidth := value.content.isWidth.pos
  have hbelow := (hseparates.spaced other hother).start_le
  obtain ⟨hstart, hwithin⟩ := (hseparates.spaced placed hplaced).within value hvalue
  rcases hseparates.bodies_apart hplaced hother with rfl | hbehind | hfront
  · exact .inr (by omega)
  · exact .inl (by omega)
  · exact .inr (by omega)

/-! ## Reading other slots -/

variable {window window' : Window} {fresh : List UInt8}

theorem value_inside (hseparates : builder.Separates tables rows) (hplaced : placed ∈ tables)
    (hvalue : value ∈ placed.filled) (hsuffix : builder.written.bytes <:+ window.toList) :
    value.offset ≤ window.toList.length ∧ value.content.width ≤ value.offset := by
  obtain ⟨hstart, hwithin⟩ := (hseparates.spaced placed hplaced).within value hvalue
  have hlength := (hseparates.layouts placed hplaced).distance.le_length
  have hmore := hsuffix.length_le
  omega

/-- Every table is still there when the bytes of one field have been replaced, with all its contents
but that one. -/
theorem tables_overwrite (hseparates : builder.Separates tables rows) (hplaced : placed ∈ tables)
    (hvalue : value ∈ placed.filled) (hfresh : fresh.length = value.content.width)
    (hsuffix : builder.written.bytes <:+ window.toList)
    (hwindow : window'.toList = overwrite window.toList value.offset fresh) :
    ∃ content, ∀ other ∈ tables,
      TableAt window.toList other.offset (other.filled.map FilledSlot.holding) ∧
      TableAt window'.toList other.offset
        ((other.filled.map (·.refill value.offset content)).map FilledSlot.holding) := by
  have hspaced := hseparates.spaced placed hplaced
  obtain ⟨hinside, hroom⟩ := hseparates.value_inside hplaced hvalue hsuffix
  rw [← hfresh] at hroom
  obtain ⟨content, hcontent, hstored⟩ :=
    exists_content_overwrite hinside hroom (hfresh ▸ value.content.isWidth)
  refine ⟨content, fun other hother => ?_⟩
  have hlayout := (hseparates.layouts other hother).mono hsuffix
  refine ⟨⟨_, _, _, hlayout, rfl⟩, other.start, other.place, _, ?_, rfl⟩
  rw [hwindow]
  refine hlayout.overwrite hinside hroom ?_ ?_ ?_ ?_ hstored
  · rw [hfresh]
    exact hseparates.distance_apart hplaced hvalue hother
  · rw [hfresh]
    exact (hseparates.vtables other hother).apart_value hplaced hspaced (Nat.sub_le _ 4) hvalue
  · intro another hanother hdistinct
    rw [hfresh]
    rcases hseparates.values_apart hplaced hvalue hother hanother with ⟨-, rfl⟩ | hapart
    · exact absurd rfl hdistinct
    · exact hapart
  · intro another hanother hsame
    have hwidth := value.content.isWidth.pos
    have hwidth' := another.content.isWidth.pos
    rw [hcontent, hfresh]
    rcases hseparates.values_apart hplaced hvalue hother hanother with ⟨-, rfl⟩ | hbehind | hfront
    · rfl
    · omega
    · omega

/-- A slot other than that of the replaced bytes holds what it held, and a row that it leads to is
read alike. -/
theorem slot_overwrite (hseparates : builder.Separates tables rows) (hplaced : placed ∈ tables)
    (hvalue : value ∈ placed.filled) (hfresh : fresh.length = value.content.width)
    (hsuffix : builder.written.bytes <:+ window.toList)
    (hwindow : window'.toList = overwrite window.toList value.offset fresh)
    (hother : other ∈ tables)
    {another : FilledSlot} (hanother : another ∈ other.filled)
    (hdistinct : ¬(placed = other ∧ value = another)) :
    Table.Holds ⟨window, (window.length - other.offset : ℕ)⟩ another.slot another.content ∧
    Table.Holds ⟨window', (window'.length - other.offset : ℕ)⟩ another.slot another.content ∧
    ∀ row ∈ rows, another.content = .reference row.offset →
      Table.RowAlike ⟨window, (window.length - other.offset : ℕ)⟩
        ⟨window', (window'.length - other.offset : ℕ)⟩ another.slot row := by
  obtain ⟨content, htables⟩ := hseparates.tables_overwrite hplaced hvalue hfresh hsuffix hwindow
  obtain ⟨htable, htable'⟩ := htables other hother
  have hkept : another.refill value.offset content = another := by
    have hwidth := value.content.isWidth.pos
    have hwidth' := another.content.isWidth.pos
    apply if_neg
    rcases (hseparates.values_apart hplaced hvalue hother hanother).resolve_left hdistinct with
      hbehind | hfront <;> omega
  have hholds := htable.holds (List.mem_map_of_mem hanother)
  have hholds' := htable'.holds (List.mem_map_of_mem (List.mem_map_of_mem hanother))
  rw [hkept] at hholds'
  refine ⟨hholds, hholds', ?_⟩
  intro row hrow htarget
  obtain ⟨hinside, hroom⟩ := hseparates.value_inside hplaced hvalue hsuffix
  have hclear := (hseparates.rows row hrow).apart_value hplaced (hseparates.spaced placed hplaced)
    (Nat.sub_le _ 4) hvalue
  rw [← hfresh] at hroom hclear
  have hshares := ((hseparates.found row hrow).mono hsuffix).shares hwindow hinside hroom hclear
  have hleads := hholds.position
  have hleads' := hholds'.position
  rw [htarget] at hleads hleads'
  rw [hshares.agree.length] at hleads' ⊢
  exact hshares.rowAlike hleads (hshares.agree.length ▸ hleads')

/-- A slot without a value still has none. -/
theorem lacks_overwrite (hseparates : builder.Separates tables rows) (hplaced : placed ∈ tables)
    (hvalue : value ∈ placed.filled) (hfresh : fresh.length = value.content.width)
    (hsuffix : builder.written.bytes <:+ window.toList)
    (hwindow : window'.toList = overwrite window.toList value.offset fresh)
    (hother : other ∈ tables)
    {slot : ℕ} (habsent : slot ∉ other.filled.map FilledSlot.slot) :
    Table.Lacks ⟨window, (window.length - other.offset : ℕ)⟩ slot ∧
      Table.Lacks ⟨window', (window'.length - other.offset : ℕ)⟩ slot := by
  obtain ⟨content, htables⟩ := hseparates.tables_overwrite hplaced hvalue hfresh hsuffix hwindow
  obtain ⟨htable, htable'⟩ := htables other hother
  have hslots (filled : List FilledSlot) :
      (filled.map FilledSlot.holding).map Prod.fst = filled.map FilledSlot.slot :=
    List.map_map
  have hsame : (other.filled.map (·.refill value.offset content)).map FilledSlot.slot
      = other.filled.map FilledSlot.slot := by
    rw [List.map_map]
    exact List.map_congr_left fun another _ =>
      congrArg Prod.fst (another.entry_refill value.offset content)
  constructor
  · apply htable.lacks
    rwa [hslots]
  · apply htable'.lacks
    rwa [hslots, hsame]

end Separates

/-! ## Runs -/

/-- In a finished buffer the bytes of one field do not matter to any other.  Let a session without
errors have given references to fields only at offsets that calls have returned since the buffer was
last cleared.  Whatever the bytes of the value in one slot of one closed table are replaced by,
every other slot of that table and every slot of the other ones, each read at its own position,
holds what was written there, and a vector or a string that it leads to is read as before; a slot
without a value still has none. -/
theorem fields_isolated {options : BuilderOptions} {settings : BuilderSettings}
    (hsettings : options.resolve = .ok settings) {calls : List Call}
    (hbasic : ∀ call ∈ calls, call.Basic) {answers : List Answer} {root : Number}
    {head : FinishOptions} {bytes : List UInt8}
    (hrun : ((Builder.new settings).run (calls ++ [.finish root head, .bytes])).1
      = answers.map .ok ++ [.ok .nothing, .ok (.bytes bytes)])
    {objects : Objects} (hobjects : observe Objects.after .empty (calls.zip answers) = objects)
    (hknown : objects.strangers = []) {closed : ClosedTable}
    (hclosed : closed ∈ ((Builder.new settings).account .empty calls).closed) {value : FilledSlot}
    (hvalue : value ∈ closed.filled) {fresh : List UInt8}
    (hfresh : fresh.length = value.content.width) {window window' : Window}
    (hwindow : window.toList = bytes)
    (hwindow' : window'.toList = overwrite bytes value.offset fresh) :
    window'.length = window.length ∧
    ∀ other ∈ ((Builder.new settings).account .empty calls).closed,
      let table : Table := ⟨window, (window.length - other.offset : ℕ)⟩
      let table' : Table := ⟨window', (window'.length - other.offset : ℕ)⟩
      (∀ another ∈ other.filled, (other.offset, another.slot) ≠ (closed.offset, value.slot) →
        table.SlotAlike table' objects another.slot another.content) ∧
      ∀ slot, slot ∉ other.filled.map FilledSlot.slot → table.Lacks slot ∧ table'.Lacks slot := by
  obtain ⟨hcalls, finished, hfinish, hbytes⟩ := run_finish hrun
  have hpresents := (Accounts.new hsettings).run_observe Builder.Presents Objects.after
    (fun _ => id) (fun haccounts hbasic hpresents => hpresents.perform haccounts hbasic)
    (Presents.new settings) hbasic hcalls
  rw [hobjects] at hpresents
  obtain ⟨tables, htables, hseparates⟩ := hpresents.placed
  have hsuffix : ((Builder.new settings).run calls).2.written.bytes <:+ window.toList := by
    rw [hwindow, ← hbytes]
    exact (Build.finish_extending root head hfinish).suffix
  rw [← hwindow] at hwindow'
  rw [htables] at hclosed
  obtain ⟨placed, hplaced, rfl⟩ := List.mem_map.mp hclosed
  obtain ⟨hinside, hroom⟩ := hseparates.value_inside hplaced hvalue hsuffix
  refine ⟨Window.length_eq_of_overwrite hwindow' hinside (hfresh ▸ hroom), ?_⟩
  intro other hother table table'
  have hrefers := (hpresents.refers hknown).2 other hother
  rw [htables] at hother
  obtain ⟨further, hfurther, rfl⟩ := List.mem_map.mp hother
  constructor
  · intro another hanother hdistinct
    obtain ⟨hholds, hholds', hrows⟩ := hseparates.slot_overwrite hplaced hvalue hfresh hsuffix
      hwindow' hfurther hanother (by rintro ⟨rfl, rfl⟩; exact hdistinct rfl)
    refine ⟨hholds, hholds', ?_⟩
    intro target htarget
    refine ⟨hrefers another hanother target htarget, ?_⟩
    rintro row hrow rfl
    exact hrows row hrow htarget
  · intro slot habsent
    exact hseparates.lacks_overwrite hplaced hvalue hfresh hsuffix hwindow' hfurther habsent

/-- Two tables of one shape, with one vtable, that refer to one string and one vector: the bytes of
a field of the first are replaced. -/
theorem fields_isolated_shared :
    let fields (number : ℤ) : List Call :=
      [.startTable 4, .addField 3 (.reference 20), .addField 1 (.reference 8),
        .addField 0 (.scalar .int16 (.ofInt number) (0 : Number)), .endTable]
    let calls : List Call := [.string [104, 105], .scalars .int32 [(3 : Number), (4 : Number)]]
      ++ fields 7 ++ fields 9
    let answers : List Answer := [.offset 8, .offset 20, .nothing, .nothing, .nothing, .nothing,
      .offset 36, .nothing, .nothing, .nothing, .nothing, .offset 64]
    let objects := observe Objects.after .empty (calls.zip answers)
    let table (bytes : List UInt8) (offset : ℕ) : Table :=
      ⟨.ofList bytes, ((Window.ofList bytes).length - offset : ℕ)⟩
    ∃ bytes : List UInt8,
      ((Builder.new ⟨1024, false, true⟩).run (calls ++ [.finish 64 {}, .bytes])).1
        = answers.map .ok ++ [.ok .nothing, .ok (.bytes bytes)] ∧
      objects.rows = [⟨20, 2, 8⟩, ⟨8, 2, 2⟩] ∧ objects.tables = [64, 36] ∧
      let bytes' := overwrite bytes 30 [255, 255]
      (table bytes 36).SlotAlike (table bytes' 36) objects 1 (.reference 8) ∧
      (table bytes 36).SlotAlike (table bytes' 36) objects 3 (.reference 20) ∧
      ((table bytes 36).Lacks 2 ∧ (table bytes' 36).Lacks 2) ∧
      (table bytes 64).SlotAlike (table bytes' 64) objects 0 (.scalar .int16 (9 : Number)) := by
  intro fields calls answers objects table
  let bytes : List UInt8 := [4, 0, 0, 0, 240, 255, 255, 255, 0, 0, 9, 0, 48, 0, 0, 0, 32, 0, 0, 0]
    ++ [12, 0, 16, 0, 6, 0, 8, 0, 0, 0, 12, 0, 12, 0, 0, 0, 0, 0, 7, 0, 20, 0, 0, 0, 4, 0, 0, 0]
    ++ [2, 0, 0, 0, 3, 0, 0, 0, 4, 0, 0, 0, 2, 0, 0, 0, 104, 105, 0, 0]
  have hsettings : BuilderOptions.resolve {} = .ok ⟨1024, false, true⟩ := by rfl
  have hbasic : ∀ call ∈ calls, call.Basic := by
    simp only [calls, fields, List.cons_append, List.nil_append, List.forall_mem_cons,
      List.not_mem_nil, false_imp_iff, forall_true_iff, Call.Basic, and_self]
  have hrun : ((Builder.new ⟨1024, false, true⟩).run (calls ++ [.finish 64 {}, .bytes])).1
      = answers.map .ok ++ [.ok .nothing, .ok (.bytes bytes)] := by decide +kernel
  have hclosed : ((Builder.new ⟨1024, false, true⟩).account .empty calls).closed
      = [⟨⟨48, [⟨0, 58, .scalar .int16 (9 : Number)⟩, ⟨1, 56, .reference 8⟩,
          ⟨3, 52, .reference 20⟩]⟩, 64⟩,
        ⟨⟨20, [⟨0, 30, .scalar .int16 (7 : Number)⟩, ⟨1, 28, .reference 8⟩,
          ⟨3, 24, .reference 20⟩]⟩, 36⟩] := by decide +kernel
  have hisolated := fields_isolated hsettings hbasic hrun rfl (by decide)
    (hclosed ▸ List.mem_cons_of_mem _ List.mem_cons_self) List.mem_cons_self
    (show [255, 255].length = 2 from rfl) (Window.toList_ofList bytes)
    (Window.toList_ofList (overwrite bytes 30 [255, 255]))
  rw [hclosed] at hisolated
  obtain ⟨hsecond, -⟩ := hisolated.2 _ List.mem_cons_self
  obtain ⟨hfirst, habsent⟩ := hisolated.2 _ (List.mem_cons_of_mem _ List.mem_cons_self)
  refine ⟨bytes, hrun, rfl, rfl, ?_, ?_, ?_, ?_⟩
  · exact hfirst ⟨1, 28, .reference 8⟩ (by simp) (by decide)
  · exact hfirst ⟨3, 24, .reference 20⟩ (by simp) (by decide)
  · exact habsent 2 (by decide)
  · exact hsecond ⟨0, 58, .scalar .int16 (9 : Number)⟩ List.mem_cons_self (by decide)

end Builder

end GraphWire

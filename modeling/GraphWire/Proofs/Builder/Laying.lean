import GraphWire.Proofs.Builder.Containment
import GraphWire.Proofs.Builder.Parts
import GraphWire.Proofs.Builder.Table

/-!
# What operations lay

Whether or not it succeeds, an operation has laid parts in front of those that were there, with zero
bytes between them.  One that succeeds has laid exactly the parts that it is known to write; one
that fails halfway has laid some of those that it was going to write.
-/

namespace GraphWire

/-! ## Endings -/

namespace Build

variable {α β : Type} {before : Builder}

/-- What holds of a builder when a computation ends on it: after an error, and after a result. -/
def Ends (computation : Build α) (before : Builder) (failed : Builder → Prop)
    (done : α → Builder → Prop) : Prop :=
  match computation before with
  | .ok value after => done value after
  | .error _ after => failed after

namespace Ends

variable {failed : Builder → Prop} {done : α → Builder → Prop}

theorem pure {value : α} (hdone : done value before) : Ends (Pure.pure value) before failed done :=
  hdone

theorem throw {error : BuildError} (hfailed : failed before) :
    Ends (MonadExcept.throw error : Build α) before failed done :=
  hfailed

theorem ok {computation : Build α} (hends : Ends computation before failed done) {value : α}
    {after : Builder} (hresult : computation before = .ok value after) : done value after := by
  simp only [Ends, hresult] at hends
  exact hends

theorem error {computation : Build α} (hends : Ends computation before failed done)
    {error : BuildError} {after : Builder} (hresult : computation before = .error error after) :
    failed after := by
  simp only [Ends, hresult] at hends
  exact hends

theorem mono {computation : Build α} {failed' : Builder → Prop} {done' : α → Builder → Prop}
    (hends : Ends computation before failed' done')
    (hfailed : ∀ after, failed' after → failed after)
    (hdone : ∀ value after, computation before = .ok value after → done' value after →
      done value after) : Ends computation before failed done := by
  unfold Ends
  cases hresult : computation before with
  | ok value after => exact hdone value after hresult (hends.ok hresult)
  | error error after => exact hfailed after (hends.error hresult)

theorem congr {computation other : Build α} {middle : Builder} (hends : Ends other middle failed done)
    (hsame : computation before = other middle) : Ends computation before failed done := by
  simp only [Ends, hsame] at hends ⊢
  exact hends

theorem bind {first : Build α} {next : α → Build β} {done : β → Builder → Prop}
    {failed' : Builder → Prop} {between : α → Builder → Prop}
    (hfirst : Ends first before failed' between) (hfailed : ∀ after, failed' after → failed after)
    (hnext : ∀ value middle, first before = .ok value middle → between value middle →
      Ends (next value) middle failed done) : Ends (first >>= next) before failed done := by
  unfold Ends
  cases hresult : first before with
  | ok value middle =>
      rw [bind_of_ok hresult]
      exact hnext value middle hresult (hfirst.ok hresult)
  | error error after =>
      rw [bind_of_error hresult]
      exact hfailed after (hfirst.error hresult)

/-- Looking at the builder. -/
theorem look {next : Builder → Build α} (hnext : Ends (next before) before failed done) :
    Ends (MonadState.get >>= next) before failed done :=
  hnext

/-- Writing some bytes. -/
theorem push_bind {bytes : List UInt8} {next : Unit → Build α}
    (hnext : Ends (next ()) { before with written := before.written.push bytes } failed done) :
    Ends (push bytes >>= next) before failed done :=
  hnext

/-- Changing the builder. -/
theorem change {change : Builder → Builder} {done : Unit → Builder → Prop}
    (hdone : done () (change before)) : Ends (modify change) before failed done :=
  hdone

end Ends

/-! ## Space -/

theorem requireWritable_lays :
    Ends requireWritable before (before = ·) fun _ after => before = after := by
  apply Ends.look
  split
  · exact .throw rfl
  · exact .pure rfl

theorem requireIdle_lays (what : Opening) :
    Ends (requireIdle what) before (before = ·) fun _ after => before = after := by
  apply Ends.look
  cases before.phase with
  | table opened => exact .throw rfl
  | vector opened => exact .throw rfl
  | idle => exact .pure rfl
  | finished => exact .pure rfl

/-- What begins an object has changed nothing before. -/
theorem begin_lays {α : Type} {what : Opening} {next : Build α} {failed : Builder → Prop}
    {done : α → Builder → Prop} (hfailed : failed before) (hnext : Ends next before failed done) :
    Ends (do requireWritable; requireIdle what; next) before failed done := by
  apply requireWritable_lays.bind
  · rintro _ rfl
    exact hfailed
  rintro _ _ - rfl
  apply (requireIdle_lays what).bind
  · rintro _ rfl
    exact hfailed
  rintro _ _ - rfl
  exact hnext

/-- Whatever is padded is zero, and nothing is written where there is no room. -/
theorem padded_lays {width : ℕ} (hwidth : ∃ power : ℕ, width = 2 ^ power)
    (zeros required : ℕ → ℕ) :
    Ends (do
      requireWritable
      noteAlignment (width : ℕ)
      let builder ← get
      pad (zeros builder.offset) (required builder.offset)) before (before.Lays [])
      fun _ after => before.Pads (zeros before.written.size) (width : ℕ) after := by
  apply requireWritable_lays.bind
  · rintro _ rfl
    exact .refl _
  rintro _ _ - rfl
  let noted : Builder := { before with alignment := max before.alignment (width : ℕ) }
  have hnoted : before.Pads 0 (width : ℕ) noted := ⟨(Region.push_nil _).symm, rfl, rfl⟩
  change Ends (pad (zeros before.written.size) (required before.written.size)) noted _ _
  unfold Ends
  rcases pad_cases (zeros before.written.size) (required before.written.size) noted with
    herror | ⟨-, hdone⟩
  · rw [herror]
    have hgrown : noted.Lays [] (noted.growTo (required before.written.size)) := .same rfl rfl
    exact (hnoted.lays hwidth).trans hgrown
  · rw [hdone]
    exact ⟨rfl, rfl, rfl⟩

theorem reserve_lays {width : ℕ} (hwidth : ∃ power : ℕ, width = 2 ^ power) (additional : ℕ) :
    Ends (reserve width additional) before (before.Lays [])
      fun _ after => before.Pads (padding width (before.written.size + additional)) (width : ℕ)
        after :=
  padded_lays hwidth (fun size => padding width (size + additional))
    fun size => size + padding width (size + additional) + width + additional

theorem prepare_lays {width : ℕ} (hwidth : ∃ power : ℕ, width = 2 ^ power) (additional : Number) :
    Ends (prepare (width : ℕ) additional) before (before.Lays [])
      fun _ after => ∃ zeros, before.Pads zeros (width : ℕ) after := by
  have hwords : Ends (reserveWords (width : ℕ) additional) before (before.Lays [])
      fun _ after => ∃ zeros, before.Pads zeros (width : ℕ) after := by
    refine Ends.mono (padded_lays hwidth
      (fun size => (wordPadding (width : ℕ) (size + additional)).toNat)
      fun size => capacityFor size
        (Number.ofInt (wordPadding (width : ℕ) (size + additional)) + (width : ℕ) + additional))
      (fun _ => id) ?_
    exact fun _ _ _ hpads => ⟨_, hpads⟩
  unfold prepare
  split
  · next hnatural _ =>
      obtain rfl := Option.some.inj (hnatural.symm.trans (Number.toNat?_natCast _))
      split
      · exact (reserve_lays hwidth _).mono (fun _ => id) fun _ _ _ hpads => ⟨_, hpads⟩
      · exact hwords
  · exact hwords

/-! ## Words -/

/-- A scalar is one part. -/
theorem write_lays (type : Scalar) (value : type.Value) :
    Ends (write type value) before (before.Lays [])
      fun _ after => before.Places (.content (.scalar type value)) after := by
  unfold write
  cases hword : type.word value with
  | error refused => exact .throw (.refl _)
  | ok word =>
      apply (reserve_lays type.isWidth.power 0).bind fun _ => id
      intro _ padded _ hpads
      have hbytes (offset : ℕ) := Part.bytes_scalar hword offset
      apply Ends.change
      refine ⟨?_, ?_, hpads.alignment, hpads.phase⟩
      · rw [hbytes, hpads.written, Region.store_push, Region.push_push]
        rfl
      · rw [hbytes, LittleEndian.length_split]
        rfl

/-- A reference is one part. -/
theorem writeOffset_lays (target : Number) :
    Ends (writeOffset target) before (before.Lays [])
      fun _ after => before.Places (.content (.reference (target.toNat?.getD 0))) after := by
  have hfour : ∃ power : ℕ, 4 = 2 ^ power := ⟨2, rfl⟩
  apply (reserve_lays hfour 0).bind fun _ => id
  intro _ padded _ hpads
  have hpadded := hpads.lays hfour
  apply Ends.look
  rw [Builder.offset_eq]
  dsimp only
  cases hfound : target.toNat?.filter fun target => 0 < target ∧ target ≤ padded.written.size with
  | none => exact .throw hpadded
  | some offset =>
      obtain ⟨htarget, hrange⟩ := Option.filter_eq_some_iff.mp hfound
      rw [decide_eq_true_eq] at hrange
      apply (write_lays .uint32 _).mono fun _ => hpadded.trans
      intro _ after hresult hplaces
      have haligned : 4 ∣ padded.written.size := by
        rw [hpads.size, Nat.add_comm]
        exact isWidth_four.dvd_add_padding _
      have hnone := isWidth_four.padding_eq_zero haligned
      have hwidth : (Part.content (.scalar .uint32
          ((padded.written.size - offset + Layout.offsetWidth : ℕ) : Number))).width = 4 := rfl
      have hsize := hplaces.size
      have hafter := hplaces.written
      have halignment := hplaces.alignment
      rw [hwidth, hnone] at hsize
      have hdistance : padded.written.size - offset + Layout.offsetWidth
          = after.written.size - offset := by
        simp only [Layout.offsetWidth]
        omega
      rw [hwidth, hnone, (Part.of_length_natCast rfl hplaces.length).2, hdistance,
        List.replicate_zero, List.append_nil] at hafter
      rw [hwidth, hpads.alignment] at halignment
      refine ⟨?_, ?_, ?_, hplaces.phase.trans hpads.phase⟩
      · rw [hpads.written, Region.push_push] at hafter
        rw [htarget, Option.getD_some]
        exact hafter
      · exact LittleEndian.length_split _ _
      · rw [halignment, Number.max_max_natCast]
        rfl

/-! ## Fields -/

theorem noteEntry_lays (slot : ℕ) : Ends (noteEntry slot) before (fun _ => False)
    fun _ after => after.written = before.written ∧ before.Lays [] after := by
  apply Ends.look
  cases before.phase with
  | table opened => exact ⟨rfl, .same rfl rfl⟩
  | idle | vector _ | finished => exact .pure ⟨rfl, .refl before⟩

theorem field_lays (field : Field) : Ends field.write before (before.Lays [])
    fun _ after => before.Places (.content field.content) after := by
  cases field with
  | scalar type value default => exact write_lays type value
  | reference target => exact writeOffset_lays target

/-- A field that is left out is no part. -/
theorem addField_lays (slot : Number) (field : Field) :
    Ends (addField slot field) before (before.Lays [])
      fun _ after => before.Lays ((field.kept before.forceDefaults).map fun content =>
        (after.written.size, Part.content content)).toList after := by
  rcases addField_cases slot field before with ⟨error, herror⟩ | ⟨opened, index, -, -, -, hadd⟩
  · simp only [Ends, herror]
    exact .refl before
  apply Ends.congr _ hadd
  let taken : Builder := { before with phase := .table { opened with limit := index } }
  have htaken : before.Lays [] taken := .same rfl rfl
  cases hkeeps : field.keeps before.forceDefaults with
  | false =>
      rw [Field.kept_of_not_keeps hkeeps, if_neg Bool.false_ne_true]
      exact .pure htaken
  | true =>
      rw [Field.kept_of_keeps hkeeps, if_pos rfl]
      apply (field_lays field).bind fun _ => htaken.trans
      intro _ written _ hplaces
      have hlays := htaken.trans hplaces.lays
      apply (noteEntry_lays index).mono fun _ => False.elim
      rintro _ after - ⟨hsame, hafter⟩
      rw [hsame]
      exact hlays.trans hafter

/-! ## Items -/

/-- How items are written that are parts of one width. -/
structure Column (α : Type) where
  writeOne : α → Build Unit
  part : α → Part
  width : ℕ
  width_eq : ∀ item, (part item).width = width
  ends : ∀ item (before : Builder), Ends (writeOne item) before (before.Lays [])
    fun _ after => before.Places (part item) after

/-- Whether a part is one of the items. -/
def Column.Has {α : Type} (column : Column α) (items : List α) (part : Part) : Prop :=
  ∃ item ∈ items, part = column.part item

def scalarColumn (type : Scalar) : Column type.Value where
  writeOne := write type
  part := fun value => .content (.scalar type value)
  width := type.width
  width_eq := fun _ => rfl
  ends := fun value _ => write_lays type value

def offsetColumn : Column Number where
  writeOne := writeOffset
  part := fun target => .content (.reference (target.toNat?.getD 0))
  width := 4
  width_eq := fun _ => rfl
  ends := fun target _ => writeOffset_lays target

def entryColumn : Column ℕ where
  writeOne := fun entry => write .uint16 (entry : Number)
  part := Part.entry
  width := 2
  width_eq := fun _ => rfl
  ends := fun entry _ => write_lays .uint16 (entry : Number)

theorem Column.has_of_mem_stack {α : Type} {column : Column α} {items : List α} {offset : ℕ}
    {entry : ℕ × Part} (hentry : entry ∈ Part.stack offset (items.map column.part)) :
    column.Has items entry.2 := by
  induction items generalizing offset with
  | nil => cases hentry
  | cons item items ih =>
      rcases List.mem_cons.mp hentry with rfl | hlater
      · exact ⟨item, List.mem_cons_self, rfl⟩
      · obtain ⟨other, hother, hpart⟩ := ih hlater
        exact ⟨other, List.mem_cons_of_mem _ hother, hpart⟩

/-- Items are written one in front of the other, with nothing between them. -/
theorem Column.writeAll_lays {α : Type} (column : Column α) (items : List α)
    (haligned : column.width ∣ before.written.size) :
    Ends (writeAll column.writeOne items) before (before.LaysOnly (column.Has items))
      fun _ after => before.Lays (Part.stack after.written.size (items.map column.part)) after ∧
        after.written.size = before.written.size + column.width * items.length ∧
        after.phase = before.phase := by
  induction items with
  | nil => exact .pure ⟨.refl before, by simp, rfl⟩
  | cons item items ih =>
      have hmore {part : Part} (hhas : column.Has items part) :
          column.Has (item :: items) part := by
        obtain ⟨other, hother, hpart⟩ := hhas
        exact ⟨other, List.mem_cons_of_mem _ hother, hpart⟩
      apply ih.bind fun _ hlays => hlays.mono fun _ => hmore
      rintro _ middle - ⟨hlays, hsize, hphase⟩
      apply (column.ends item middle).mono
      · intro after hlast
        refine ⟨_, ?_, hlays.trans hlast⟩
        exact fun entry hentry => hmore (column.has_of_mem_stack hentry)
      · intro _ after _ hplaces
        have hwidth := column.width_eq item
        have hafter := hplaces.size
        have hisWidth := (column.part item).isWidth
        rw [hwidth] at hafter hisWidth
        have hmultiple : column.width ∣ middle.written.size := by
          rw [hsize]
          exact Nat.dvd_add haligned (Nat.dvd_mul_right _ _)
        rw [hisWidth.padding_eq_zero hmultiple, Nat.add_zero] at hafter
        have hbehind : after.written.size - (column.part item).width = middle.written.size := by
          omega
        refine ⟨?_, ?_, hplaces.phase.trans hphase⟩
        · rw [List.map_cons, Part.stack, hbehind]
          exact hlays.trans hplaces.lays
        · rw [List.length_cons, Nat.mul_succ]
          omega

/-! ## Tables -/

theorem startTable_lays (fieldCount : Number) : Ends (startTable fieldCount) before
    (before.Lays []) fun _ after => before.Lays [] after := by
  apply begin_lays (.refl before)
  cases fieldCount.toNat? with
  | none => exact .throw (.refl before)
  | some count =>
      dsimp only
      split
      · exact .throw (.refl before)
      · exact .change (.same rfl rfl)

end Build

/-- The parts of a table that ends at an offset with a vtable of some words, when the region has
some size at last: the distance to the vtable and, unless an equal one is shared, the words. -/
def Builder.linkParts (builder : Builder) (table : ℕ) (words : List ℕ) (size : ℕ) :
    List (ℕ × Part) :=
  match Build.sharedVtable? builder (LittleEndian.splitAll 2 words) with
  | some stored => [(table, .distance stored.offset)]
  | none => Part.stack size (words.map Part.entry) ++ [(table, .distance size)]

/-- The vtable of a table that is closed now. -/
def Builder.closingWords (builder : Builder) (opened : OpenTable) : List ℕ :=
  vtableWords builder.tableEnd opened.start opened.entries

namespace Build

variable {before padded : Builder}

/-- What is written when a table is linked to a vtable at some offset: the distance in front of its
body and, unless an equal one is shared, the vtable in front of that. -/
def linked (builder : Builder) (body : Region) (table : ℕ) (words : List UInt8) (vtable : ℕ) :
    Region :=
  match sharedVtable? builder words with
  | some stored => body.push (vtableDistance stored.offset table)
  | none => (body.push (vtableDistance vtable table)).push words

theorem linkBody_eq (body : Region) {listed : Builder} (table : ℕ) {words : List UInt8}
    (hwords : listed.written.bytes.take words.length = words) :
    ∃ after, linkBody body table words.length listed = .ok () after ∧
      after.alignment = listed.alignment ∧
        after.written = linked listed body table words listed.written.size := by
  simp only [linkBody, get_bind_apply, hwords, linked]
  cases sharedVtable? listed words with
  | some stored => exact ⟨_, rfl, rfl, rfl⟩
  | none => exact ⟨_, rfl, rfl, rfl⟩

/-- The distance to a vtable fills the place for which room was made. -/
theorem distance_lays (hpads : before.Pads (padding 4 before.written.size) (4 : ℕ) padded)
    (vtable : ℕ) :
    let filled : Builder :=
      { padded with written := padded.written.push (vtableDistance vtable before.tableEnd) }
    filled.written.size = before.tableEnd ∧
      before.Lays [(before.tableEnd, .distance vtable)] filled := by
  intro filled
  have hpadded := hpads.size
  have hend : filled.written.size = before.tableEnd := by
    simp only [filled, Region.size_push, length_vtableDistance, Builder.tableEnd]
    omega
  have hplaces : before.Places (.distance vtable) filled := by
    refine ⟨?_, length_vtableDistance _ _, hpads.alignment, hpads.phase⟩
    rw [hend]
    simp only [filled, hpads.written, Region.push_push]
    rfl
  refine ⟨hend, ?_⟩
  rw [← hend]
  exact hplaces.lays

/-- A table that is linked to a vtable consists of the distance to it and, unless an equal one is
shared, of the words that were listed. -/
theorem link_lays (hpads : before.Pads (padding 4 before.written.size) (4 : ℕ) padded)
    {headed listed after : Builder} {words : List ℕ}
    (hsmall : ∀ word ∈ words, word ≤ Layout.maxEntry)
    (hlisted : headed.Lays (Part.stack listed.written.size (words.map Part.entry)) listed)
    (hheaded : headed.alignment = padded.alignment)
    (hsize : listed.written.size = 2 * words.length + before.tableEnd)
    (halignment : after.alignment = listed.alignment)
    (hafter : after.written = linked before padded.written before.tableEnd
      (LittleEndian.splitAll 2 words) listed.written.size) :
    before.Lays (before.linkParts before.tableEnd words after.written.size) after := by
  obtain ⟨hend, hfilled⟩ := forall_and.mp fun vtable => distance_lays hpads vtable
  have hclimbs := hlisted.climbs
  rw [hheaded, ← halignment] at hclimbs
  unfold Builder.linkParts
  unfold linked at hafter
  cases hfound : sharedVtable? before (LittleEndian.splitAll 2 words) with
  | some stored =>
      rw [hfound] at hafter
      change before.Lays ([] ++ [(before.tableEnd, .distance stored.offset)]) after
      apply (hfilled stored.offset).trans
      refine ⟨?_, List.forall_mem_nil _, fun exponent hpower => ?_⟩
      · rw [hafter]
        exact fun _ => id
      · obtain ⟨larger, hlarger, hpower', -⟩ := hclimbs hpower
        exact ⟨larger, hlarger, hpower', List.forall_mem_nil _⟩
  | none =>
      rw [hfound] at hafter
      have hsame : after.written.size = listed.written.size := by
        rw [hafter, Region.size_push, hend, LittleEndian.length_splitAll, hsize]
      rw [hsame]
      apply (hfilled listed.written.size).trans
      refine ⟨?_, hlisted.aligned, hclimbs⟩
      intro behind hbehind
      have hwords := hbehind.words hsmall
      rw [← Region.size_eq, hend, ← hsize] at hwords
      rw [hafter]
      exact hwords

/-- The words of a vtable are listed in front of the place for the distance to it, which is filled
in then. -/
theorem linkWords_lays (hpads : before.Pads (padding 4 before.written.size) (4 : ℕ) padded)
    (hextends : before.Extends padded) (words : List ℕ) :
    Ends (do
        writeAll (fun entry : ℕ => write .uint16 (entry : Number)) words
        linkBody padded.written before.tableEnd (words.length * 2))
      { padded with written := padded.written.push (List.replicate 4 0) }
      (before.LaysOnly (entryColumn.Has words))
      fun _ after => before.Lays (before.linkParts before.tableEnd words after.written.size)
        after := by
  have hpadded := hpads.lays ⟨2, rfl⟩
  have hsize := hpads.size
  have haligned : 4 ∣ padded.written.size := by
    rw [hsize, Nat.add_comm]
    exact isWidth_four.dvd_add_padding _
  generalize hheaded : { padded with written := padded.written.push (List.replicate 4 0) } = headed
  have hwritten : headed.written = padded.written.push (List.replicate 4 0) := by rw [← hheaded]
  have halignment : headed.alignment = padded.alignment := by rw [← hheaded]
  have hheadedSize : headed.written.size = before.tableEnd := by
    rw [hwritten, Region.size_push, List.length_replicate, Builder.tableEnd]
    omega
  have heven : 2 ∣ headed.written.size := by
    rw [hwritten, Region.size_push, List.length_replicate]
    omega
  have hlays : before.Lays [] headed := hpadded.trans (.zeros 4 hwritten halignment)
  have hsame : headed.dedupeVtables = before.dedupeVtables ∧ headed.vtables = before.vtables := by
    rw [← hheaded]
    exact ⟨hextends.dedupeVtables, hextends.vtables⟩
  apply (entryColumn.writeAll_lays words heven).bind
  · exact fun _ hlast => hlast.after_lays hlays (List.forall_mem_nil _)
  rintro _ listed hlist ⟨hlisted, -, -⟩
  obtain ⟨hsmall, hbytes⟩ := of_writeEntries heven hlist
  have hshared : sharedVtable? listed (LittleEndian.splitAll 2 words)
      = sharedVtable? before (LittleEndian.splitAll 2 words) := by
    have hentry (entry : ℕ) : Extending (entryColumn.writeOne entry) := extending_operates.write _ _
    have hkept := extending_operates.writeAll hentry words hlist
    simp only [sharedVtable?, hkept.dedupeVtables, hkept.vtables, hsame.1, hsame.2]
  have htake : listed.written.bytes.take (LittleEndian.splitAll 2 words).length
      = LittleEndian.splitAll 2 words := by
    rw [hbytes]
    exact List.take_left
  obtain ⟨after, hlink, hlast, hafter⟩ := linkBody_eq padded.written before.tableEnd htake
  rw [LittleEndian.length_splitAll, Nat.mul_comm] at hlink
  rw [linked, hshared] at hafter
  simp only [Ends, hlink]
  refine link_lays hpads hsmall hlisted halignment ?_ hlast hafter
  rw [hbytes, Region.size_push, LittleEndian.length_splitAll, hheadedSize]

/-- A table is closed with its parts in front.  A failure leaves some of the words of its vtable at
most. -/
theorem endTable_lays : Ends endTable before
    (before.LaysOnly fun part => ∃ opened, before.phase = .table opened ∧
      entryColumn.Has (before.closingWords opened) part)
    fun table after => ∃ opened, before.phase = .table opened ∧ table = before.tableEnd ∧
      before.Lays (before.linkParts table (before.closingWords opened) after.written.size)
        after := by
  rw [endTable_eq]
  apply Ends.look
  cases hphase : before.phase with
  | idle | vector _ | finished => exact .throw (.of_lays (.refl before))
  | table opened =>
      have hfour : ∃ power : ℕ, 4 = 2 ^ power := ⟨2, rfl⟩
      apply (reserve_lays hfour 0).bind fun _ => .of_lays
      intro _ padded hreserve hpads
      have hpadded := hpads.lays hfour
      have hsize := hpads.size
      rw [Nat.add_zero] at hsize
      have hend : padded.written.size + Layout.offsetWidth = before.tableEnd := by
        simp only [Builder.tableEnd, Layout.offsetWidth]
        omega
      have hlinked := linkWords_lays hpads (extending_operates.reserve 4 0 hreserve)
        (before.closingWords opened)
      apply Ends.look
      apply Ends.push_bind
      rw [hend]
      by_cases hlarge : Layout.maxEntry < before.tableEnd - opened.start
      · have hheaded : padded.Lays []
            { padded with written := padded.written.push (List.replicate 4 0) } := .zeros 4 rfl rfl
        rw [if_pos hlarge]
        exact .throw (.of_lays (hpadded.trans hheaded))
      · rw [if_neg hlarge, ← bind_assoc]
        apply hlinked.bind
        · intro after hlays
          exact hlays.mono fun _ hhas => ⟨opened, rfl, hhas⟩
        · intro _ after _ hlays
          exact .pure ⟨opened, rfl, rfl, hlays⟩

/-! ## Vectors and strings -/

theorem openVector_lays {alignment : ℕ} (hpower : ∃ power : ℕ, alignment = 2 ^ power)
    (count byteLength : Number) :
    Ends (openVector count byteLength (alignment : ℕ)) before (before.Lays [])
      fun _ after => before.Lays [] after := by
  have hfour : ∃ power : ℕ, 4 = 2 ^ power := ⟨2, rfl⟩
  apply (prepare_lays hfour byteLength).bind fun _ => id
  rintro _ counted - ⟨zeros, hcounted⟩
  have hfirst := hcounted.lays hfour
  apply (prepare_lays hpower byteLength).bind fun _ => hfirst.trans
  rintro _ padded - ⟨zeros', hpadded⟩
  have hopened (phase : Phase) : padded.Lays [] { padded with phase } := .same rfl rfl
  exact .change ((hfirst.trans (hpadded.lays hpower)).trans (hopened _))

theorem startVector_lays {alignment : ℕ} (hpower : ∃ power : ℕ, alignment = 2 ^ power)
    (elementSize count : Number) :
    Ends (startVector elementSize count (alignment : ℕ)) before (before.Lays [])
      fun _ after => before.Lays [] after := by
  apply begin_lays (.refl before)
  split
  · exact .throw (.refl before)
  · exact openVector_lays hpower _ _

/-- The count of a vector is one part. -/
theorem endVector_lays : Ends endVector before (before.Lays [])
    fun offset after => ∃ opened, before.phase = .vector opened ∧ offset = after.written.size ∧
      Builder.Places { before with phase := .idle } (.content (.scalar .uint32 opened.count))
        after := by
  apply Ends.look
  cases hphase : before.phase with
  | idle | table _ | finished => exact .throw (.refl before)
  | vector opened =>
      have hclosed : before.Lays [] { before with phase := .idle } := .same rfl rfl
      dsimp only
      split
      · exact .throw (.refl before)
      · change Ends (do write .uint32 opened.count; return (← get).written.size)
          { before with phase := .idle } _ _
        apply (write_lays .uint32 opened.count).bind fun _ => hclosed.trans
        intro _ after _ hplaces
        exact .look (.pure ⟨opened, rfl, rfl, hplaces⟩)

/-- A vector is opened for whole elements.  Both reservations count the elements, so neither they
nor the count will need padding. -/
theorem openVector_seats {width : ℕ} (hwidth : IsWidth width) (count : ℕ) :
    Ends (openVector (count : ℕ) (width * count : ℕ) (width : ℕ)) before (before.Lays [])
      fun _ after => before.Lays [] after ∧
        after.phase = .vector ⟨count, (width * count : ℕ), after.written.size⟩ ∧
        before.Climbs (max width 4) after ∧ 4 ∣ after.written.size + width * count ∧
        width ∣ after.written.size := by
  have hfour : (prepare Layout.offsetWidth (width * count : ℕ) : Build Unit)
      = reserve 4 (width * count) :=
    prepare_width isWidth_four _
  unfold openVector
  rw [hfour, prepare_width hwidth]
  apply (reserve_lays isWidth_four.power _).bind fun _ => id
  intro _ counted _ hcounted
  have hfirst := hcounted.lays isWidth_four.power
  apply (reserve_lays hwidth.power _).bind fun _ => hfirst.trans
  intro _ padded _ hpadded
  have hsecond := hpadded.lays hwidth.power
  have hsame (phase : Phase) : padded.Lays [] { padded with phase } := .same rfl rfl
  have hclimbs := Builder.climbs_of_max hwidth.power hpadded.alignment
  have hclimbs' := Builder.climbs_of_max isWidth_four.power hcounted.alignment
  have hboth := (hclimbs.after_lays hfirst).greater (hclimbs'.before_lays hsecond)
  obtain ⟨exponent, hexponent, rfl⟩ := hwidth
  obtain ⟨hwhole, helements⟩ := dvd_of_paddings (show 2 ≤ 32 by decide)
    (show exponent ≤ 32 by omega) hcounted.size hpadded.size
  exact .change ⟨(hfirst.trans hsecond).trans (hsame _), rfl, hboth.before_lays (hsame _), hwhole,
    (Nat.dvd_add_left (Nat.dvd_mul_right _ _)).mp helements⟩

/-- A vector that is filled with some parts is closed with its count right in front of them. -/
theorem vectorOf_lays {width : ℕ} (hwidth : IsWidth width) (count : ℕ) {elements : Build Unit}
    {kind : Part → Prop} (parts : ℕ → List (ℕ × Part))
    (helements : ∀ middle : Builder, width ∣ middle.written.size →
      Ends elements middle (middle.LaysOnly kind) fun _ after =>
        middle.Lays (parts after.written.size) after ∧
        after.written.size = middle.written.size + width * count ∧ after.phase = middle.phase)
    (hkind : ∀ size, ∀ entry ∈ parts size, kind entry.2) :
    Ends (vectorOf width count elements) before (before.LaysOnly kind)
      fun offset after => offset = after.written.size ∧ before.Seats width offset after ∧
        before.Lays ((after.written.size, .content (.scalar .uint32 (count : Number)))
          :: parts (after.written.size - 4)) after := by
  apply begin_lays (.of_lays (.refl before))
  apply (openVector_seats hwidth count).bind fun _ => .of_lays
  rintro _ opened - ⟨hopened, hphase, hclimbs, hwhole, haligned⟩
  apply (helements opened haligned).bind
  · exact fun _ hlast => hlast.after_lays hopened (List.forall_mem_nil _)
  rintro _ filled - ⟨hfilled, hsize, hsame⟩
  have hall := hopened.trans hfilled
  apply endVector_lays.mono
  · intro after hlast
    refine ⟨_, fun entry hentry => hkind filled.written.size entry ?_, hall.trans hlast⟩
    simpa using hentry
  rintro offset after - ⟨vector, hvector, rfl, hplaces⟩
  obtain rfl := Phase.vector.inj ((hsame.trans hphase).symm.trans hvector)
  have hafter := hplaces.size
  have hcount : (Part.content (.scalar .uint32 (count : Number))).width = 4 := rfl
  have hmultiple : 4 ∣ filled.written.size := by rwa [hsize]
  rw [hcount, isWidth_four.padding_eq_zero hmultiple] at hafter
  have hbehind : after.written.size - 4 = filled.written.size := by
    rw [hafter]
    exact Nat.add_sub_cancel_left 4 filled.written.size
  have hclosed : filled.Lays [] { filled with phase := .idle } := .same rfl rfl
  have hlast := hclosed.trans hplaces.lays
  have hlays := hall.trans hlast
  simp only [List.append_nil] at hlays
  refine ⟨rfl, ⟨by omega, ?_, (hclimbs.before_lays hfilled).before_lays hlast⟩, ?_⟩
  · rw [hbehind, hsize]
    exact max_dvd (Nat.dvd_add haligned (Nat.dvd_mul_right _ _)) hwhole
  · rw [hbehind]
    exact hlays

/-- Items of one width make a vector. -/
theorem Column.vector_lays {α : Type} (column : Column α) (hwidth : IsWidth column.width)
    (items : List α) :
    Ends (vectorOf column.width items.length (writeAll column.writeOne items)) before
      (before.LaysOnly (column.Has items))
      fun offset after => offset = after.written.size ∧ before.Seats column.width offset after ∧
        before.Lays ((after.written.size, .content (.scalar .uint32 (items.length : Number)))
          :: Part.stack (after.written.size - 4) (items.map column.part)) after :=
  vectorOf_lays hwidth _ (fun size => Part.stack size (items.map column.part))
    (fun _ haligned => column.writeAll_lays items haligned)
    fun _ _ => column.has_of_mem_stack

/-- A string is its count and its bytes, and behind them the zero that ends it. -/
theorem stringBytes_lays (bytes : List UInt8) :
    Ends (stringBytes bytes) before
      (before.LaysOnly fun part =>
        part = .text bytes ∨ part = .content (.scalar .int8 (0 : Number)))
      fun offset after => offset = after.written.size ∧ before.Seats 1 offset after ∧
        before.Lays [(after.written.size, .content (.scalar .uint32 (bytes.length : Number))),
          (after.written.size - 4, .text bytes),
          (before.written.size + 1, .content (.scalar .int8 (0 : Number)))] after := by
  apply begin_lays (.of_lays (.refl before))
  apply (write_lays .int8 (0 : Number)).bind fun _ => .of_lays
  intro _ ended _ hplaces
  have hend := hplaces.lays
  have hsize : ended.written.size = before.written.size + 1 := by
    have hnone : padding 1 before.written.size = 0 := Nat.lt_one_iff.mp (padding_lt 0 _)
    have hlast := hplaces.size
    have hwidth : (Part.content (.scalar .int8 (0 : Number))).width = 1 := rfl
    rw [hwidth, hnone] at hlast
    omega
  have hpush (middle : Builder) (_ : 1 ∣ middle.written.size) :
      Ends (push bytes) middle (middle.LaysOnly (· = .text bytes)) fun _ after =>
        middle.Lays [(after.written.size, .text bytes)] after ∧
        after.written.size = middle.written.size + 1 * bytes.length ∧
        after.phase = middle.phase := by
    refine .change ⟨.text rfl rfl, ?_, rfl⟩
    rw [Region.store_push, Region.size_push]
    omega
  apply (vectorOf_lays ⟨0, by decide, rfl⟩ _ (fun size => [(size, .text bytes)]) hpush
    (by simp)).mono
  · intro after hlast
    apply (hlast.mono fun _ => Or.inl).after_lays hend
    rintro entry (_ | ⟨_, ⟨⟩⟩)
    exact .inr rfl
  · rintro offset after - ⟨hoffset, hseats, hlast⟩
    have hclimbs := hseats.climbs.after_lays hend
    rw [hsize] at hend
    exact ⟨hoffset, ⟨hseats.four_le, hseats.aligned, hclimbs⟩, hend.trans hlast⟩

/-! ## Finishing -/

end Build

/-- The identifier of a buffer that is finished, in front of the padding for the whole head. -/
def Builder.identifierParts (builder : Builder) (options : FinishOptions) : List (ℕ × Part) :=
  let padded := Build.leaves (Build.prepare builder.alignment (options.headWidth : ℕ)) builder
  (options.identifier.map fun identifier =>
    (padded.written.size + 4, Part.text (Identifier.toBytes identifier))).toList

/-- The parts of the head of a buffer that has some size at last: the size prefix, the root offset
and the identifier. -/
def Builder.headParts (builder : Builder) (root : Number) (options : FinishOptions) (size : ℕ) :
    List (ℕ × Part) :=
  let rooted := (size - Window.rootOffsetPosition options.sizePrefix,
    Part.content (.reference (root.toNat?.getD 0))) :: builder.identifierParts options
  if options.sizePrefix then
    (size, .content (.scalar .uint32 ((size - 4 : ℕ) : Number))) :: rooted
  else rooted

namespace Build

variable {before : Builder}

/-- The identifier is put in front of the padding for the whole head. -/
theorem beginHead_lays (options : FinishOptions)
    (hpower : ∃ exponent : ℕ, before.alignment = (2 ^ exponent : ℕ)) :
    Ends (beginHead options) before (before.Lays [])
      fun _ after => before.Lays (before.identifierParts options) after := by
  obtain ⟨exponent, hpower⟩ := hpower
  have hprepare (total : ℕ) : Ends (prepare before.alignment (total : ℕ)) before (before.Lays [])
      fun _ after => before.Lays [] after := by
    rw [hpower]
    apply (prepare_lays ⟨exponent, rfl⟩ _).mono fun _ => id
    rintro _ after - ⟨zeros, hpads⟩
    exact hpads.lays ⟨exponent, rfl⟩
  rcases beginHead_cases options before with ⟨_, -, -, error, herror⟩ | ⟨hvalid, hbegin⟩
  · simp only [Ends, herror]
    exact .refl before
  apply Ends.congr _ hbegin
  apply (hprepare _).bind fun _ => id
  intro _ padded hpadded hlays
  let headed : Builder :=
    { padded with written := padded.written.push options.identifierBytes }
  apply Ends.change
  simp only [Builder.identifierParts, leaves_of_ok hpadded]
  cases hidentifier : options.identifier with
  | none =>
      have hbytes := FinishOptions.identifierBytes_none hidentifier
      have hsame : padded.Lays [] headed := by
        refine .same ?_ rfl
        simp only [headed, hbytes, Region.push_nil]
      exact hlays.trans hsame
  | some identifier =>
      have hbytes := FinishOptions.identifierBytes_some hidentifier
      have hlength := Identifier.length_toBytes (hvalid identifier hidentifier)
      have htext : padded.Lays [(headed.written.size, .text (Identifier.toBytes identifier))]
          headed := .text (by simp only [headed, hbytes]) rfl
      have hsize : headed.written.size = padded.written.size + 4 := by
        simp only [headed, Region.size_push, hbytes, hlength, Nat.add_comm]
      rw [hsize] at htext
      exact hlays.trans htext

theorem text_of_mem_identifierParts {options : FinishOptions} {entry : ℕ × Part}
    (hentry : entry ∈ before.identifierParts options) :
    ∃ identifier ∈ options.identifier, entry.2 = .text (Identifier.toBytes identifier) := by
  obtain ⟨identifier, hsome, rfl⟩ : ∃ identifier ∈ options.identifier, _ = entry := by
    simpa [Builder.identifierParts] using hentry
  exact ⟨identifier, hsome, rfl⟩

/-- The size prefix is one part, with the size of what is behind it. -/
theorem writeSize_lays : Ends writeSize before (before.Lays [])
    fun _ after => before.Places (.content (.scalar .uint32 (before.written.size : Number))) after :=
  write_lays .uint32 (before.written.size : Number)

theorem markFinished_lays (identifier : Option String) :
    Ends (markFinished identifier) before (fun _ => False)
      fun _ after => after.written = before.written ∧ before.Lays [] after :=
  .change ⟨rfl, .same rfl rfl⟩

/-- A head that could not be completed may have left its identifier or its root offset. -/
theorem finish_lays (root : Number) (options : FinishOptions)
    (hpower : ∃ exponent : ℕ, before.alignment = (2 ^ exponent : ℕ)) :
    Ends (finish root options) before
      (before.LaysOnly fun part => (∃ identifier ∈ options.identifier,
        part = .text (Identifier.toBytes identifier)) ∨
          part = .content (.reference (root.toNat?.getD 0)))
      fun _ after => before.Lays (before.headParts root options after.written.size) after := by
  apply begin_lays (.of_lays (.refl before))
  apply (beginHead_lays options hpower).bind fun _ => .of_lays
  intro _ headed _ hheaded
  apply (writeOffset_lays root).bind
  · intro after hlast
    exact (Builder.LaysOnly.of_lays hlast).after_lays hheaded
      fun entry hentry => .inl (text_of_mem_identifierParts hentry)
  intro _ rooted _ hrooted
  have hall := hheaded.trans hrooted.lays
  cases hsized : options.sizePrefix with
  | false =>
      apply (markFinished_lays options.identifier).mono fun _ => False.elim
      rintro _ after - ⟨hsame, hlast⟩
      have hparts : before.headParts root options after.written.size
          = (rooted.written.size, .content (.reference (root.toNat?.getD 0)))
            :: before.identifierParts options := by
        simp only [Builder.headParts, hsized, Window.rootOffsetPosition, hsame]
        rfl
      rw [hparts]
      exact hall.trans hlast
  | true =>
      rw [if_pos rfl]
      apply writeSize_lays.bind
      · intro after hlast
        apply (Builder.LaysOnly.of_lays hlast).after_lays hall
        rintro entry (_ | ⟨_, hentry⟩)
        · exact .inr rfl
        · exact .inl (text_of_mem_identifierParts hentry)
      intro _ sized _ hsize
      apply (markFinished_lays options.identifier).mono fun _ => False.elim
      rintro _ after - ⟨hsame, hlast⟩
      have hbehind : sized.written.size - 4 = rooted.written.size := by
        have hafter := hsize.size
        have hwidth : (Part.content (.scalar .uint32 (rooted.written.size : Number))).width = 4 :=
          rfl
        rw [hwidth, isWidth_four.padding_eq_zero hrooted.aligned] at hafter
        omega
      have hparts : before.headParts root options after.written.size
          = (sized.written.size, .content (.scalar .uint32 (rooted.written.size : Number)))
            :: (rooted.written.size, .content (.reference (root.toNat?.getD 0)))
            :: before.identifierParts options := by
        simp only [Builder.headParts, hsized, Window.rootOffsetPosition, hsame, if_true,
          Layout.sizePrefixWidth, hbehind]
      rw [hparts]
      exact (hall.trans hsize.lays).trans hlast

end Build

end GraphWire

import GraphWire.Proofs.Session.Calls
import GraphWire.Proofs.Session.Record

/-!
# What each call keeps

A builder agrees with the record of its session (`Builder.Keeps`) when the closed objects are at
their offsets and what is open is filled as the record says.  Every call that keeps to the terms and
succeeds leaves the next builder in agreement with the next record.
-/

namespace GraphWire

/-- A builder has open what its session has opened. -/
def Opened.Matches (builder : Builder) : Opened → Prop
  | nothing => builder.phase = .idle ∨ builder.phase = .finished
  | table slots => ∃ opened filled, builder.phase = .table opened ∧ opened.Fills builder filled ∧
      filled.map FilledSlot.holding = slots
  | vector width contents => ∃ opened gap, builder.phase = .vector opened ∧
      opened.Fills builder width gap contents

/-- A builder agrees with the record of its session. -/
structure Builder.Keeps (builder : Builder) (force : Bool) (record : Record) : Prop where
  sound : builder.Sound
  forceDefaults : builder.forceDefaults = force
  opened : record.opened.Matches builder
  closed : ∀ entry ∈ record.closed, entry.2.At builder.written.bytes entry.1
  modest : builder.Modest 0 31
  /-- Every object is aligned as an offset at least. -/
  raised : record.closed ≠ [] → builder.Modest 2 31

namespace Builder.Keeps

variable {before after : Builder} {force : Bool} {record : Record}

/-- Bytes in front leave the closed objects where they are, whatever is open then. -/
theorem puts (hkeeps : before.Keeps force record) {front : List UInt8}
    (hputs : before.Puts front after)
    (hmodest : ∀ least, before.Modest least 31 → after.Modest least 31) (phase : Phase)
    {opened : Opened} (hopened : opened.Matches { after with phase }) :
    Builder.Keeps { after with phase } force { record with opened } where
  sound := (hputs.sound hkeeps.sound).inPhase phase
  forceDefaults := hputs.forceDefaults.trans hkeeps.forceDefaults
  opened := hopened
  closed := fun entry hentry => (hkeeps.closed entry hentry).mono hputs.suffix
  modest := hmodest 0 hkeeps.modest
  raised := fun hclosed => hmodest 2 (hkeeps.raised hclosed)

/-- A new object is kept with the others. -/
theorem add (hkeeps : before.Keeps force record) {offset : ℕ} (hadds : before.Adds offset after)
    {item : Item} (hitem : item.At after.written.bytes offset) :
    after.Keeps force (record.add offset item) where
  sound := hadds.sound
  forceDefaults := hadds.forceDefaults.trans hkeeps.forceDefaults
  opened := Or.inl hadds.idle
  closed := by
    intro entry hentry
    rcases List.mem_cons.mp hentry with rfl | hearlier
    · exact hitem
    · exact (hkeeps.closed entry hearlier).mono hadds.suffix
  modest := (hadds.modest (by decide) hkeeps.modest).mono (Nat.zero_le 2)
  raised := fun _ => hadds.modest (by decide) hkeeps.modest

end Builder.Keeps

/-- Bytes in front do not change what is open, unless that is a vector. -/
theorem Opened.Matches.puts {before after : Builder} {opened : Opened} {front : List UInt8}
    (hmatches : opened.Matches before) (hputs : before.Puts front after)
    (hpadding : opened.TakesPadding) : opened.Matches after := by
  cases opened with
  | nothing =>
      rcases hmatches with hidle | hfinished
      · exact Or.inl (hputs.phase.trans hidle)
      · exact Or.inr (hputs.phase.trans hfinished)
  | table slots =>
      obtain ⟨opened, filled, hphase, hfills, hslots⟩ := hmatches
      exact ⟨opened, filled, hputs.phase.trans hphase, hfills.mono hputs.suffix, hslots⟩
  | vector width contents => exact hpadding.elim

namespace Build

variable {before after : Builder} {force : Bool} {record : Record}

/-- A content written on its own becomes an element of an open vector. -/
theorem keeps_content (hkeeps : before.Keeps force record) {content : Content}
    (hcontent : before.PutsContent content after) (htakes : record.opened.Takes content.width) :
    after.Keeps force { record with opened := record.opened.write content } := by
  obtain ⟨front, hputs⟩ := hcontent.puts
  have hmodest (least : ℕ) (hleast : before.Modest least 31) : after.Modest least 31 :=
    hcontent.modest (by decide) hleast
  apply hkeeps.puts hputs hmodest after.phase
  have hmatches := hkeeps.opened
  cases hopened : record.opened with
  | nothing =>
      rw [hopened] at hmatches
      exact hmatches.puts hputs trivial
  | table slots =>
      rw [hopened] at hmatches
      exact hmatches.puts hputs trivial
  | vector width contents =>
      rw [hopened] at hmatches htakes
      obtain ⟨opened, gap, hphase, hfills⟩ := hmatches
      obtain ⟨gap', hfills'⟩ := hfills.cons hcontent htakes
      exact ⟨opened, gap', hputs.phase.trans hphase, hfills'⟩

theorem keeps_write (hkeeps : before.Keeps force record) {type : Scalar} {value : type.Value}
    (hresult : write type value before = .ok () after) (htakes : record.opened.Takes type.width) :
    after.Keeps force { record with opened := record.opened.write (.scalar type value) } :=
  keeps_content hkeeps ((write_content hkeeps.sound type value).ok hresult) htakes

theorem keeps_writeOffset (hkeeps : before.Keeps force record) {target : Number}
    (hresult : writeOffset target before = .ok () after) (htakes : record.opened.Takes 4) :
    after.Keeps force
      { record with opened := record.opened.write (.reference (target.toNat?.getD 0)) } := by
  obtain ⟨offset, htarget, hcontent⟩ := (writeOffset_content hkeeps.sound target).ok hresult
  rw [htarget, Option.getD_some]
  exact keeps_content hkeeps hcontent htakes

theorem keeps_prepare (hkeeps : before.Keeps force record) {exponent : ℕ} {additional : Number}
    (hresult : prepare (2 ^ exponent : ℕ) additional before = .ok () after)
    (hadditional : Number.atMost 0 additional = true) (hpadding : record.opened.TakesPadding) :
    after.Keeps force record := by
  obtain ⟨zeros, hputs, hexponent, -, halignment⟩ := (prepare_power_writes hkeeps.sound exponent
    (Number.atLeast_of_atMost hadditional) 0).ok hresult
  exact hkeeps.puts hputs (fun _ hmodest => hmodest.keep hexponent halignment) after.phase
    (hkeeps.opened.puts hputs hpadding)

/-! ## Tables -/

theorem keeps_startTable (hkeeps : before.Keeps force record) {fieldCount : Number}
    (hresult : startTable fieldCount before = .ok () after) :
    after.Keeps force { record with opened := .table [] } := by
  obtain ⟨count, hcount, rfl⟩ := (startTable_writes fieldCount).ok hresult
  apply hkeeps.puts (.refl before) fun _ => id
  exact ⟨_, [], rfl, fills_nil before count _, rfl⟩

/-- While a table is open in the builder, its session has opened one that is filled the same. -/
theorem opened_of_table (hkeeps : before.Keeps force record) {opened : OpenTable}
    (hphase : before.phase = .table opened) : ∃ filled, opened.Fills before filled ∧
      record.opened = .table (filled.map FilledSlot.holding) := by
  have hmatches := hkeeps.opened
  cases hrecord : record.opened with
  | nothing =>
      rw [hrecord] at hmatches
      rcases hmatches with hidle | hfinished
      · cases hphase.symm.trans hidle
      · cases hphase.symm.trans hfinished
  | table slots =>
      rw [hrecord] at hmatches
      obtain ⟨other, filled, hother, hfills, rfl⟩ := hmatches
      obtain rfl : opened = other := Phase.table.inj (hphase.symm.trans hother)
      exact ⟨filled, hfills, rfl⟩
  | vector width contents =>
      rw [hrecord] at hmatches
      obtain ⟨other, gap, hother, -⟩ := hmatches
      cases hphase.symm.trans hother

theorem keeps_addField (hkeeps : before.Keeps force record) {slot : Number} {field : Field}
    (hresult : addField slot field before = .ok () after) :
    after.Keeps force
      { record with opened := record.opened.fill (slot.toNat?.getD 0) (field.kept force) } := by
  obtain ⟨opened, hphase⟩ := phase_of_addField hresult
  obtain ⟨filled, hfills, hrecord⟩ := opened_of_table hkeeps hphase
  obtain ⟨index, entries, front, hindex, -, hafter, hfilled, hputs, hmodest⟩ :=
    (addField_writes hkeeps.sound hphase hfills slot field).ok hresult
  rw [hkeeps.forceDefaults] at hfilled
  apply hkeeps.puts hputs (fun least => hmodest (by decide)) after.phase
  rw [hrecord, hindex, Option.getD_some]
  cases hkept : field.kept force with
  | none =>
      rw [hkept] at hfilled
      exact ⟨_, _, hafter, hfilled, rfl⟩
  | some content =>
      rw [hkept] at hfilled
      exact ⟨_, _, hafter, hfilled, rfl⟩

theorem keeps_endTable (hkeeps : before.Keeps force record) {offset : ℕ}
    (hresult : endTable before = .ok offset after) :
    after.Keeps force (record.close offset) := by
  obtain ⟨opened, hphase⟩ := phase_of_endTable hresult
  obtain ⟨filled, hfills, hrecord⟩ := opened_of_table hkeeps hphase
  obtain ⟨hadds, htable⟩ := (endTable_writes hkeeps.sound hphase hfills).ok hresult
  have hclose : record.close offset
      = record.add offset (.table (filled.map FilledSlot.holding)) := by
    simp only [Record.close, hrecord, Opened.item?]
  rw [hclose]
  exact hkeeps.add hadds htable

/-! ## Vectors and strings -/

theorem keeps_startVector (hkeeps : before.Keeps force record) {width exponent : ℕ}
    {count : Number} (hpositive : 0 < width)
    (hresult : startVector width count (2 ^ exponent : ℕ) before = .ok () after) :
    after.Keeps force { record with opened := .vector width [] } := by
  obtain ⟨number, zeros, padded, hcount, -, hputs, rfl, hwhole, hmodest⟩ :=
    (startVector_writes hkeeps.sound exponent
      (fun _ => Number.mul_atLeast_zero width) 0).ok hresult
  apply hkeeps.puts hputs hmodest
  refine ⟨_, 0, rfl, hpositive, ⟨number, hcount, rfl⟩, hwhole, ?_, hpositive, fun _ => rfl, ?_,
    ContentsAt.nil⟩
  · simp
  · simp

/-- While a vector is open in the builder, its session has opened one that is filled the same. -/
theorem opened_of_vector (hkeeps : before.Keeps force record) {opened : OpenVector}
    (hphase : before.phase = .vector opened) : ∃ width gap contents,
      opened.Fills before width gap contents ∧ record.opened = .vector width contents := by
  have hmatches := hkeeps.opened
  cases hrecord : record.opened with
  | nothing =>
      rw [hrecord] at hmatches
      rcases hmatches with hidle | hfinished
      · cases hphase.symm.trans hidle
      · cases hphase.symm.trans hfinished
  | table slots =>
      rw [hrecord] at hmatches
      obtain ⟨other, filled, hother, -⟩ := hmatches
      cases hphase.symm.trans hother
  | vector width contents =>
      rw [hrecord] at hmatches
      obtain ⟨other, gap, hother, hfills⟩ := hmatches
      obtain rfl : opened = other := Phase.vector.inj (hphase.symm.trans hother)
      exact ⟨width, gap, contents, hfills, rfl⟩

theorem keeps_endVector (hkeeps : before.Keeps force record) {offset : ℕ}
    (hresult : endVector before = .ok offset after) :
    after.Keeps force (record.close offset) := by
  obtain ⟨opened, hphase⟩ := phase_of_endVector hresult
  obtain ⟨width, gap, contents, hfills, hrecord⟩ := opened_of_vector hkeeps hphase
  obtain ⟨hadds, hvector⟩ := (endVector_adds hkeeps.sound hphase hfills 0).ok hresult
  have hclose : record.close offset = record.add offset (.vector width contents) := by
    simp only [Record.close, hrecord, Opened.item?]
  rw [hclose]
  exact hkeeps.add hadds hvector

theorem keeps_scalars (hkeeps : before.Keeps force record) {type : Scalar}
    {values : List type.Value} {offset : ℕ}
    (hresult : scalars type values before = .ok offset after) :
    after.Keeps force (record.add offset (.vector type.width (values.map (.scalar type)))) := by
  obtain ⟨hadds, hvector⟩ :=
    ((scalarElement type).vector_writes values hkeeps.sound).ok hresult
  exact hkeeps.add hadds hvector

theorem keeps_offsets (hkeeps : before.Keeps force record) {targets : List Number} {offset : ℕ}
    (hresult : offsets targets before = .ok offset after) :
    after.Keeps force (record.add offset
      (.vector 4 (targets.map fun target => .reference (target.toNat?.getD 0)))) := by
  obtain ⟨hadds, hvector⟩ := (offsetElement.vector_writes targets hkeeps.sound).ok hresult
  exact hkeeps.add hadds hvector

theorem keeps_string (hkeeps : before.Keeps force record) {text : List UInt8} {offset : ℕ}
    (hresult : stringBytes text before = .ok offset after) :
    after.Keeps force (record.add offset (.string text)) := by
  obtain ⟨hadds, hstring⟩ := (stringBytes_writes hkeeps.sound text).ok hresult
  exact hkeeps.add hadds hstring

/-! ## The ends of a buffer -/

theorem keeps_finish (hkeeps : before.Keeps force record) {root : Number} {options : FinishOptions}
    (hresult : finish root options before = .ok () after) :
    after.Keeps force { record with opened := .nothing } := by
  obtain ⟨offset, -, -, hfinishes⟩ := (finish_writes hkeeps.sound root options).ok hresult
  obtain ⟨front, hputs⟩ := hfinishes.puts
  exact hkeeps.puts hputs (fun _ hmodest => hfinishes.modest hmodest) after.phase
    (Or.inr hfinishes.finished)

theorem keeps_clear (hkeeps : before.Keeps force record) :
    before.cleared.Keeps force .empty where
  sound := ⟨hkeeps.sound.positive, hkeeps.sound.limited, by simp [Builder.cleared]⟩
  forceDefaults := hkeeps.forceDefaults
  opened := Or.inl rfl
  closed := by simp [Record.empty]
  modest := ⟨0, le_refl _, by decide, rfl⟩
  raised := fun hclosed => absurd rfl hclosed

end Build

/-! ## Calls -/

/-- A call that succeeds keeps a builder in agreement with its session. -/
theorem Builder.Keeps.perform {before after : Builder} {force : Bool} {record : Record}
    (hkeeps : before.Keeps force record) {call : Call} {answer : Answer}
    (hallowed : record.Allows call) (hresult : call.perform before = .ok answer after) :
    after.Keeps force (record.after force call answer) := by
  cases call with
  | prepare alignment additional =>
      obtain ⟨⟨exponent, rfl⟩, hadditional, hpadding⟩ := hallowed
      exact Build.keeps_prepare hkeeps (Call.of_perform_nothing hresult) hadditional hpadding
  | write type value =>
      exact Build.keeps_write hkeeps (Call.of_perform_nothing hresult) hallowed
  | writeOffset target =>
      exact Build.keeps_writeOffset hkeeps (Call.of_perform_nothing hresult) hallowed
  | addField slot field =>
      exact Build.keeps_addField hkeeps (Call.of_perform_nothing hresult)
  | startTable fieldCount =>
      exact Build.keeps_startTable hkeeps (Call.of_perform_nothing hresult)
  | endTable =>
      obtain ⟨offset, hdone, rfl⟩ := Call.of_perform_map hresult
      exact Build.keeps_endTable hkeeps hdone
  | startVector elementSize count alignment =>
      obtain ⟨⟨size, rfl⟩, exponent, rfl⟩ := hallowed
      have hstarted := Build.keeps_startVector hkeeps (Nat.two_pow_pos size)
        (Call.of_perform_nothing hresult)
      simpa only [Record.after, Number.toNat?_natCast, Option.getD_some] using hstarted
  | endVector =>
      obtain ⟨offset, hdone, rfl⟩ := Call.of_perform_map hresult
      exact Build.keeps_endVector hkeeps hdone
  | scalars type values =>
      obtain ⟨offset, hdone, rfl⟩ := Call.of_perform_map hresult
      exact Build.keeps_scalars hkeeps hdone
  | offsets targets =>
      obtain ⟨offset, hdone, rfl⟩ := Call.of_perform_map hresult
      exact Build.keeps_offsets hkeeps hdone
  | string bytes =>
      obtain ⟨offset, hdone, rfl⟩ := Call.of_perform_map hresult
      exact Build.keeps_string hkeeps hdone
  | attrs _ | payload _ | operator _ | constant _ | valueNode | node _ | graph _ | model _ =>
      exact hallowed.elim
  | finish root options =>
      exact Build.keeps_finish hkeeps (Call.of_perform_nothing hresult)
  | bytes =>
      obtain ⟨bytes, hdone, rfl⟩ := Call.of_perform_map hresult
      obtain ⟨rfl, -⟩ := Build.of_bytes hdone
      exact hkeeps
  | offset =>
      cases hresult
      exact hkeeps
  | clear =>
      have hdone := Call.of_perform_nothing hresult
      cases hdone
      exact Build.keeps_clear hkeeps

end GraphWire

import GraphWire.Proofs.Builder.Frame
import GraphWire.Proofs.Builder.OpenTable

/-!
# Writing tables

Closing an open table turns it into a layout in the buffer, with the vtable just written or with an
equal one that is there already.
-/

namespace GraphWire

/-- Where the open table of a builder will be once it is closed: behind its distance to the vtable,
which is aligned. -/
def Builder.tableEnd (builder : Builder) : ℕ :=
  builder.written.size + padding 4 builder.written.size + 4

theorem Builder.size_lt_tableEnd (builder : Builder) : builder.written.size < builder.tableEnd := by
  unfold tableEnd
  omega

/-- What has become of the bytes of a vtable: they are those of one that is remembered and shared,
or they are new and lie right in front of the table. -/
inductive Builder.Links (before after : Builder) (bytes : List UInt8) (vtable : ℕ) : Prop where
  | shared (sharing : before.dedupeVtables = true) (stored : ⟨bytes, vtable⟩ ∈ before.vtables)
      (vtables : after.vtables = before.vtables)
      (vtableCount : after.vtableCount = before.vtableCount)
  | fresh
      (unknown : before.dedupeVtables = true → ∀ stored ∈ before.vtables, stored.bytes ≠ bytes)
      (front : before.tableEnd + bytes.length = vtable)
      (vtables : after.vtables = if before.dedupeVtables then ⟨bytes, vtable⟩ :: before.vtables
        else before.vtables)
      (vtableCount : after.vtableCount = before.vtableCount + 1)

/-- A builder that has listed a vtable in front of the body of a table, with room between them for
the distance. -/
structure Builder.Lists (before : Builder) (body : Region) (words : List UInt8)
    (listed : Builder) : Prop where
  puts : ∃ front, before.Puts front listed
  same : before.Extends listed
  modest : before.RaisesModest listed
  behind : before.written.bytes <:+ body.bytes
  table_eq : body.size + 4 = before.tableEnd
  taken : listed.written.bytes.take words.length = words
  size : listed.written.size = words.length + 4 + body.size
  limited : listed.written.size ≤ Layout.maxBufferSize

/-- A builder that has closed a table with a vtable: the distance between them is at the table. -/
structure Builder.Joins (before : Builder) (table : ℕ) (words : List UInt8) (after : Builder) :
    Prop where
  adds : before.Adds table after
  place : ∃ vtable ≤ Layout.maxBufferSize,
    Placed after.written.bytes (Build.vtableDistance vtable table) table ∧
      Placed after.written.bytes words vtable ∧ before.Links after words vtable

namespace Build

variable {before : Builder} {opened : OpenTable} {filled : List FilledSlot}

/-! ## Closing a table -/

/-- The words of a vtable are written with nothing between them. -/
theorem writeEntries_writes (words : List ℕ) (hsound : before.Sound)
    (haligned : 2 ∣ before.written.size) :
    Writes (writeAll (fun entry : ℕ => write .uint16 (entry : Number)) words) before
      (before.phase ≠ .finished) (∀ word ∈ words, word ≤ Layout.maxEntry)
      (before.written.size + 2 * words.length)
      fun _ after => before.Puts (LittleEndian.splitAll 2 words) after ∧
        (before.written.size ≤ Layout.maxBufferSize →
          after.written.size ≤ Layout.maxBufferSize) ∧
        before.KeepsModest after := by
  induction words with
  | nil =>
      apply (Writes.pure ⟨.refl before, id, fun _ _ _ => id⟩ _).of_fits
      · simp
      · simp
  | cons word words ih =>
      rw [List.length_cons, List.forall_mem_cons]
      unfold writeAll
      apply (ih.bind (by omega) _).of_fits and_comm
      rintro _ middle ⟨hputs, hlimited, hmodest⟩ hbound
      have hmiddle := hputs.size
      rw [LittleEndian.length_splitAll] at hmiddle
      have hnone : padding 2 middle.written.size = 0 := by
        apply isWidth_two.padding_eq_zero
        rw [hmiddle]
        exact Nat.dvd_add (Nat.dvd_mul_right _ _) haligned
      have hfits : Scalar.uint16.Fits (word : Number) ↔ word ≤ Layout.maxEntry :=
        (Scalar.fits_natCast rfl).trans Layout.le_maxEntry_iff.symm
      have hone := write_writes (hputs.sound hsound) .uint16 (word : Number)
      apply (((hone.of_legal (by rw [hputs.phase]; exact id)).of_bound _).mono id hfits
        (le_refl _))
      · rintro _ after ⟨stored, hstored, hword⟩
        obtain rfl := Scalar.eq_of_word rfl (Number.toNat?_natCast word) hstored
        have hall := hputs.trans hword.puts
        have hwidth : Scalar.uint16.width = 2 := rfl
        rw [hwidth, hnone, List.replicate_zero, List.append_nil] at hall
        exact ⟨hall, fun _ => hword.limited, hmodest.trans (hword.modest isWidth_two)⟩
      · change middle.written.size + padding 2 middle.written.size + 2 ≤ _
        omega

/-- Every word of the vtable of an open table is an entry if the sizes of the table and the vtable
are. -/
theorem vtableWords_small_iff (hfills : opened.Fills before filled) {table : ℕ}
    (hsize : table - opened.start ≤ Layout.maxEntry) :
    (∀ word ∈ vtableWords table opened.start opened.entries, word ≤ Layout.maxEntry)
      ↔ 2 * (vtableWords table opened.start opened.entries).length ≤ Layout.maxEntry := by
  have hlength : 2 * (vtableWords table opened.start opened.entries).length
      = ((slotEntries table 0 opened.entries).length + Layout.vtableHeaderEntries)
        * Layout.entryWidth := by
    simp only [vtableWords, List.length_cons, Layout.vtableHeaderEntries, Layout.entryWidth]
    omega
  rw [hlength]
  constructor
  · intro hsmall
    exact hsmall _ List.mem_cons_self
  · intro hvtable word hword
    simp only [vtableWords, List.mem_cons] at hword
    rcases hword with rfl | rfl | hword
    · exact hvtable
    · exact hsize
    · rcases mem_slotEntries hword with rfl | ⟨entry, hentry, rfl⟩
      · omega
      · rw [hfills.entries] at hentry
        obtain ⟨value, hvalue, rfl⟩ := List.mem_map.mp hentry
        obtain ⟨hstart, -⟩ := hfills.values value hvalue
        simp only [FilledSlot.entry]
        omega

theorem length_vtableWords_le (hfills : opened.Fills before filled) (table : ℕ) :
    (vtableWords table opened.start opened.entries).length ≤ opened.fieldCount + 2 := by
  have hbelow : ∀ entry ∈ opened.entries, entry.1 < opened.fieldCount := by
    rw [hfills.entries]
    intro entry hentry
    obtain ⟨value, hvalue, rfl⟩ := List.mem_map.mp hentry
    exact hfills.below value hvalue
  have hcount := slotCount_le_iff.mpr hbelow
  have hlength := length_slotEntries table (hfills.ascending.mono (Nat.zero_le _))
  simp only [vtableWords, List.length_cons]
  omega

/-- An open table becomes a table of the buffer when its distance leads to its vtable. -/
theorem layout_of_fills (hfills : opened.Fills before filled) {bytes : List UInt8}
    {table vtable : ℕ} (hsuffix : before.written.bytes <:+ bytes)
    (htable : before.written.size < table) (htable_le : table ≤ Layout.maxBufferSize)
    (hvtable_le : vtable ≤ Layout.maxBufferSize)
    (hdistance : Placed bytes (vtableDistance vtable table) table)
    (hwords : Placed bytes
      (LittleEndian.splitAll 2 (vtableWords table opened.start opened.entries)) vtable)
    (hsmall : ∀ word ∈ vtableWords table opened.start opened.entries, word ≤ Layout.maxEntry) :
    TableLayout bytes table opened.start vtable filled := by
  have hascending := hfills.ascending.mono (Nat.zero_le _)
  rw [hfills.entries] at hwords hsmall hascending
  refine ⟨hdistance, hwords, hsmall, htable_le, hvtable_le, hascending, ?_⟩
  intro value hvalue
  obtain ⟨hstart, hwithin, hplaced⟩ := hfills.values value hvalue
  exact ⟨hstart, by omega, hplaced.mono hsuffix⟩

theorem sharedVtable?_eq_some {builder : Builder} {bytes : List UInt8} {stored : StoredVtable}
    (hshared : sharedVtable? builder bytes = some stored) :
    builder.dedupeVtables = true ∧ stored ∈ builder.vtables ∧ stored.bytes = bytes := by
  unfold sharedVtable? at hshared
  split at hshared
  · next hsharing =>
      have hsame := List.find?_some hshared
      exact ⟨hsharing, List.mem_of_find?_eq_some hshared, by simpa using hsame⟩
  · cases hshared

theorem ne_of_sharedVtable?_eq_none {builder : Builder} {bytes : List UInt8}
    (hshared : sharedVtable? builder bytes = none) (hsharing : builder.dedupeVtables = true) :
    ∀ stored ∈ builder.vtables, stored.bytes ≠ bytes := by
  rw [sharedVtable?, if_pos hsharing, List.find?_eq_none] at hshared
  intro stored hstored
  simpa using hshared stored hstored

theorem vtableDistance_placed (body : Region) (vtable : ℕ) :
    Placed (body.push (vtableDistance vtable (body.size + 4))).bytes
      (vtableDistance vtable (body.size + 4)) (body.size + 4) := by
  have hfront := Placed.front (vtableDistance vtable (body.size + 4)) body.bytes
  rwa [length_vtableDistance, ← body.size_eq, Nat.add_comm 4] at hfront

end Build

namespace Builder.Lists

open Build

variable {before listed : Builder} {body : Region} {words : List UInt8}

/-- What was written before the table is still there, and the vtables that are remembered are in the
buffer. -/
theorem adds (hlists : before.Lists body words listed) (hsound : before.Sound) {written : Region}
    {vtables : List StoredVtable} {vtableCount : ℕ} (hsuffix : body.bytes <:+ written.bytes)
    (hvtables : ∀ stored ∈ vtables, stored ∈ listed.vtables ∨
      Placed written.bytes stored.bytes stored.offset)
    (hwithin : body.size + 4 ≤ written.size) :
    before.Adds (body.size + 4)
      { listed with written, phase := .idle, vtables, vtableCount } where
  suffix := hlists.behind.trans hsuffix
  idle := rfl
  forceDefaults := hlists.puts.choose_spec.forceDefaults
  sound := by
    obtain ⟨front, hputs⟩ := hlists.puts
    have hlisted := hputs.sound hsound
    refine ⟨hlisted.positive, hlisted.limited, ?_⟩
    intro stored hstored
    rcases hvtables stored hstored with hearlier | hplaced
    · rw [hputs.vtables] at hearlier
      exact (hsound.shared stored hearlier).mono (hlists.behind.trans hsuffix)
    · exact hplaced
  modest := hlists.modest
  positive := Nat.succ_pos _
  within := hwithin

/-- An equal vtable that is remembered is the one that the table is joined with. -/
theorem share (hlists : before.Lists body words listed) (hsound : before.Sound)
    {stored : StoredVtable} (hshared : sharedVtable? listed words = some stored) :
    before.Joins (body.size + 4) words
      { listed with
        written := body.push (vtableDistance stored.offset (body.size + 4)), phase := .idle } := by
  obtain ⟨hsharing, hstored, rfl⟩ := sharedVtable?_eq_some hshared
  rw [hlists.same.vtables] at hstored
  rw [hlists.same.dedupeVtables] at hsharing
  have hplaced := hsound.shared stored hstored
  have hoffset := hplaced.le_length.trans hlists.behind.length_le
  have hsize := hlists.size
  have hlimited := hlists.limited
  rw [← body.size_eq] at hoffset
  have hsuffix : body.bytes <:+ (body.push _).bytes :=
    List.suffix_append (vtableDistance stored.offset (body.size + 4)) body.bytes
  refine ⟨hlists.adds hsound hsuffix (fun _ => Or.inl) ?_, stored.offset, by omega,
    vtableDistance_placed body _, hplaced.mono (hlists.behind.trans hsuffix),
    .shared hsharing hstored hlists.same.vtables hlists.same.vtableCount⟩
  rw [Region.size_push, length_vtableDistance, Nat.add_comm]

/-- A vtable of its own lies right in front of the table. -/
theorem fresh (hlists : before.Lists body words listed) (hsound : before.Sound)
    (hshared : sharedVtable? listed words = none) :
    before.Joins (body.size + 4) words
      { listed with
        written := (body.push (vtableDistance listed.written.size (body.size + 4))).push words
        phase := .idle
        vtables :=
          if listed.dedupeVtables then ⟨words, listed.written.size⟩ :: listed.vtables
          else listed.vtables
        vtableCount := listed.vtableCount + 1 } := by
  have hunknown := ne_of_sharedVtable?_eq_none hshared
  rw [hlists.same.dedupeVtables, hlists.same.vtables] at hunknown
  have hsize := hlists.size
  have hend := hlists.table_eq
  have hheaded : (body.push (vtableDistance listed.written.size (body.size + 4))).size
      = 4 + body.size := by rw [Region.size_push, length_vtableDistance]
  have hvtable : Placed ((body.push (vtableDistance listed.written.size (body.size + 4))).push
      words).bytes words listed.written.size := by
    have hfront := Placed.front words
      (body.push (vtableDistance listed.written.size (body.size + 4))).bytes
    rw [← Region.size_eq, hheaded, ← Nat.add_assoc, ← hsize] at hfront
    exact hfront
  have hinner := List.suffix_append words
    (body.push (vtableDistance listed.written.size (body.size + 4))).bytes
  have hsuffix := (List.suffix_append
    (vtableDistance listed.written.size (body.size + 4)) body.bytes).trans hinner
  refine ⟨hlists.adds hsound hsuffix ?_ ?_, listed.written.size, hlists.limited,
    (vtableDistance_placed body _).mono hinner, hvtable, .fresh hunknown (by omega) ?_ ?_⟩
  · intro stored hstored
    split at hstored
    · rcases List.mem_cons.mp hstored with rfl | hearlier
      · exact Or.inr hvtable
      · exact Or.inl hearlier
    · exact Or.inl hstored
  · rw [Region.size_push, hheaded]
    omega
  · simp only [hlists.same.dedupeVtables, hlists.same.vtables]
  · simp only [hlists.same.vtableCount]

end Builder.Lists

namespace Build

variable {before : Builder} {opened : OpenTable} {filled : List FilledSlot}

/-- Linking a table to its vtable leaves the distance at the table and the vtable somewhere. -/
theorem linkBody_writes {body : Region} {listed : Builder} {words : List UInt8}
    (hsound : before.Sound) (hlists : before.Lists body words listed) :
    Writes (linkBody body (body.size + 4) words.length) listed True True listed.written.size
      fun _ after => before.Joins (body.size + 4) words after := by
  have hsize := hlists.size
  unfold linkBody
  apply Writes.get_bind
  rw [hlists.taken]
  dsimp only
  cases hshared : sharedVtable? listed words with
  | some stored =>
      apply Writes.set (hlists.share hsound hshared)
      intro _
      simp only [Region.size_push, length_vtableDistance]
      omega
  | none =>
      apply Writes.set (hlists.fresh hsound hshared)
      intro _
      simp only [Region.size_push, length_vtableDistance]
      omega

/-- The words of a vtable are written in front of a table and linked to it. -/
theorem linkWords_writes {body : Region} {headed : Builder} {front : List UInt8} {table : ℕ}
    (hsound : before.Sound) (hputs : before.Puts front headed) (hextends : before.Extends headed)
    (hmodest : before.RaisesModest headed) (hbody : before.written.bytes <:+ body.bytes)
    (htable : body.size + Layout.offsetWidth = table) (hend : table = before.tableEnd)
    (hsize : headed.written.size = table)
    (haligned : 2 ∣ table) (hroom : table ≤ Layout.maxBufferSize) (words : List ℕ) :
    Writes (do
        writeAll (fun entry : ℕ => write .uint16 (entry : Number)) words
        linkBody body table (words.length * 2)) headed
      (headed.phase ≠ .finished) (∀ word ∈ words, word ≤ Layout.maxEntry)
      (table + 2 * words.length)
      fun _ after => (∀ word ∈ words, word ≤ Layout.maxEntry) ∧
        table + 2 * words.length ≤ Layout.maxBufferSize ∧
        before.Joins table (LittleEndian.splitAll 2 words) after := by
  obtain rfl : body.size + 4 = table := htable
  have hentries := (writeEntries_writes words (hputs.sound hsound) (hsize ▸ haligned)).extending
    (extending_operates.writeAll (fun _ => extending_operates.write _ _) _)
  rw [hsize] at hentries
  apply (hentries.fitted.bind (le_refl _) _).of_fits (Iff.of_eq (and_true _))
  rintro _ listed ⟨hsmall, hextends', hlisted, hfit, hmodest'⟩ hbound
  have hlength := LittleEndian.length_splitAll 2 words
  have hlistedSize := hlisted.size
  have htake : listed.written.bytes.take (LittleEndian.splitAll 2 words).length
      = LittleEndian.splitAll 2 words := by
    rw [hlisted.bytes]
    exact List.take_left
  have hlimited := hfit hroom
  have hlists : before.Lists body (LittleEndian.splitAll 2 words) listed :=
    ⟨⟨_, hputs.trans hlisted⟩, hextends.trans hextends', hmodest.trans_keeps hmodest', hbody, hend,
      htake, by omega, hlimited⟩
  have hlink := linkBody_writes hsound hlists
  rw [hlength, Nat.mul_comm 2] at hlink
  apply ((hlink.of_legal fun _ => trivial).of_legal_bound hbound).imp
  intro _ after hjoins
  exact ⟨hsmall, by omega, hjoins⟩

/-- What closing a table leaves: the table right in front of its fields, and its vtable. -/
structure Closes (before : Builder) (opened : OpenTable) (filled : List FilledSlot) (table : ℕ)
    (after : Builder) : Prop where
  table_eq : table = before.tableEnd
  adds : before.Adds table after
  room : table + 2 * (vtableWords table opened.start opened.entries).length ≤ Layout.maxBufferSize
  linked : ∃ vtable, TableLayout after.written.bytes table opened.start vtable filled ∧
    before.Links after
      (LittleEndian.splitAll 2 (vtableWords table opened.start opened.entries)) vtable

/-- Room for the distance of a table is made where the table will end. -/
theorem reserveDistance_writes (hsound : before.Sound) :
    Writes (reserve Layout.offsetWidth 0) before (before.phase ≠ .finished) True before.tableEnd
      fun _ padded => before.Extends padded ∧
        (∃ zeros, before.Puts (List.replicate zeros 0) padded) ∧ before.RaisesModest padded ∧
        padded.written.size + Layout.offsetWidth = before.tableEnd ∧
        before.tableEnd ≤ Layout.maxBufferSize ∧ 4 ∣ padded.written.size := by
  have hreserve := (reserve_writes hsound 4 0).extending (extending_operates.reserve 4 0)
  simp only [Nat.add_zero] at hreserve
  apply hreserve.imp
  rintro _ padded ⟨hextends, hputs, hroom, halignment⟩
  have hsize := hputs.size
  rw [List.length_replicate] at hsize
  refine ⟨hextends, ⟨_, hputs⟩, .of_offset halignment, ?_, hroom, ?_⟩
  · simp only [Builder.tableEnd, Layout.offsetWidth]
    omega
  · rw [hsize, Nat.add_comm]
    exact isWidth_four.dvd_add_padding _

/-- Closing a table that is not too large joins it with its vtable, whatever is open in it. -/
theorem endTable_joins (hsound : before.Sound) (hphase : before.phase = .table opened) :
    Writes endTable before (before.tableEnd - opened.start ≤ Layout.maxEntry)
      (∀ word ∈ vtableWords before.tableEnd opened.start opened.entries, word ≤ Layout.maxEntry)
      (before.tableEnd + 2 * (vtableWords before.tableEnd opened.start opened.entries).length)
      fun table after => table = before.tableEnd ∧
        (∀ word ∈ vtableWords before.tableEnd opened.start opened.entries,
          word ≤ Layout.maxEntry) ∧
        before.tableEnd + 2 * (vtableWords before.tableEnd opened.start opened.entries).length
          ≤ Layout.maxBufferSize ∧
        before.Joins before.tableEnd
          (LittleEndian.splitAll 2 (vtableWords before.tableEnd opened.start opened.entries))
          after := by
  have hwritable : before.phase ≠ .finished := by simp [hphase]
  rw [endTable_eq]
  apply Writes.get_bind
  rw [hphase]
  simp only [closeTable]
  apply ((reserveDistance_writes hsound).of_legal fun _ => hwritable).bind_true
    (Nat.le_add_right _ _)
  rintro _ padded ⟨hextends, ⟨zeros, hputs⟩, hmodest, hend, hroom, haligned⟩ -
  apply Writes.get_bind
  apply Writes.modify_bind
  rw [hend]
  by_cases hlarge : Layout.maxEntry < before.tableEnd - opened.start
  · rw [if_pos hlarge]
    apply Writes.throw
    intro hsmall
    omega
  rw [if_neg hlarge]
  have hpushed : padded.Puts (List.replicate 4 0)
      { padded with written := padded.written.push (List.replicate 4 0) } :=
    ⟨rfl, rfl, rfl, rfl, le_refl _, id⟩
  have hheaded := hpushed.size
  rw [List.length_replicate] at hheaded
  have hwidth : Layout.offsetWidth = 4 := rfl
  have hlinked := linkWords_writes hsound (hputs.trans hpushed)
    (hextends.trans ⟨hpushed.suffix, rfl, rfl, rfl⟩) hmodest hextends.suffix hend rfl (by omega)
    (by omega) hroom (vtableWords before.tableEnd opened.start opened.entries)
  rw [← bind_assoc]
  apply (hlinked.of_legal _).bind_pure
  · intro _ after hjoins
    exact ⟨rfl, hjoins⟩
  · change _ → padded.phase ≠ .finished
    rw [hputs.phase]
    exact fun _ => hwritable

/-- A table that is too large is refused as soon as there is room for its distance. -/
theorem endTable_tooLarge (hsound : before.Sound) (hphase : before.phase = .table opened)
    (hlarge : Layout.maxEntry < before.tableEnd - opened.start) :
    ∃ error after, endTable before = .error error after ∧
      (error = .tableTooLarge (before.tableEnd - opened.start) ∨
        error = .capacityLimit ∧ Layout.maxBufferSize < before.tableEnd) := by
  have hwritable : before.phase ≠ .finished := by simp [hphase]
  have hreserve := reserveDistance_writes hsound
  simp only [Writes] at hreserve
  rw [endTable_eq, get_bind_apply, hphase]
  cases hpadded : reserve Layout.offsetWidth 0 before with
  | error error padded =>
      rw [hpadded] at hreserve
      have hrefuses := hreserve hwritable
      refine ⟨error, padded, bind_of_error hpadded, .inr ?_⟩
      cases error with
      | capacityLimit => exact ⟨rfl, hrefuses⟩
      | unrepresentable refused => exact absurd trivial hrefuses
      | _ => exact hrefuses.elim
  | ok _ padded =>
      rw [hpadded] at hreserve
      obtain ⟨-, -, -, -, -, hend, -⟩ := hreserve
      let headed : Builder :=
        { padded with written := padded.written.push (List.replicate Layout.offsetWidth 0) }
      refine ⟨.tableTooLarge (before.tableEnd - opened.start), headed, ?_, .inl rfl⟩
      refine (bind_of_ok hpadded).trans ?_
      rw [get_bind_apply, hend, if_pos hlarge]
      rfl

/-- Closing a table leaves a layout of it in the buffer.  It fails for a table or a vtable whose
size is no entry, and else for want of room alone. -/
theorem endTable_closes (hsound : before.Sound) (hphase : before.phase = .table opened)
    (hfills : opened.Fills before filled) :
    Writes endTable before (before.tableEnd - opened.start ≤ Layout.maxEntry)
      (2 * (vtableWords before.tableEnd opened.start opened.entries).length ≤ Layout.maxEntry)
      (before.tableEnd + 2 * (vtableWords before.tableEnd opened.start opened.entries).length)
      fun table after => Closes before opened filled table after := by
  rcases Nat.lt_or_ge Layout.maxEntry (before.tableEnd - opened.start) with hlarge | hsmall
  · obtain ⟨error, after, hresult, -⟩ := endTable_tooLarge hsound hphase hlarge
    rw [Writes, hresult]
    exact fun hlegal => absurd hlarge (Nat.not_lt.mpr hlegal)
  · apply ((endTable_joins hsound hphase).of_fits (vtableWords_small_iff hfills hsmall)).imp
    rintro _ after ⟨rfl, hwords, hlimited, hjoins⟩
    have hbefore := before.size_lt_tableEnd
    obtain ⟨vtable, hvtable, hdistance, hplaced, hlinks⟩ := hjoins.place
    refine ⟨rfl, hjoins.adds, hlimited, vtable, ?_, hlinks⟩
    exact layout_of_fills hfills hjoins.adds.suffix hbefore (by omega) hvtable hdistance hplaced
      hwords

/-- Closing a table either leaves it and its vtable or is refused: for the size of the table, for
that of the vtable, or for want of room. -/
theorem endTable_ends (hsound : before.Sound) (hphase : before.phase = .table opened)
    (hfills : opened.Fills before filled) :
    match endTable before with
    | .ok table after => Closes before opened filled table after ∧
        before.tableEnd - opened.start ≤ Layout.maxEntry ∧
        2 * (vtableWords before.tableEnd opened.start opened.entries).length ≤ Layout.maxEntry
    | .error error _ =>
        error = .tableTooLarge (before.tableEnd - opened.start) ∧
            Layout.maxEntry < before.tableEnd - opened.start ∨
          (∃ refused, error = .unrepresentable refused) ∧ Layout.maxEntry
            < 2 * (vtableWords before.tableEnd opened.start opened.entries).length ∨
          error = .capacityLimit ∧ Layout.maxBufferSize < before.tableEnd
            + 2 * (vtableWords before.tableEnd opened.start opened.entries).length := by
  have hcloses := endTable_closes hsound hphase hfills
  simp only [Writes] at hcloses
  by_cases hlarge : Layout.maxEntry < before.tableEnd - opened.start
  · obtain ⟨error, after, hresult, hrefused⟩ := endTable_tooLarge hsound hphase hlarge
    rw [hresult]
    rcases hrefused with herror | ⟨herror, hlimit⟩
    · exact .inl ⟨herror, hlarge⟩
    · exact .inr (.inr ⟨herror, by omega⟩)
  · cases hresult : endTable before with
    | ok table after =>
        rw [hresult] at hcloses
        exact ⟨hcloses.2.2, by omega, hcloses.1⟩
    | error error after =>
        rw [hresult] at hcloses
        have hrefuses := hcloses (by omega)
        cases error with
        | unrepresentable refused => exact .inr (.inl ⟨⟨refused, rfl⟩, Nat.not_le.mp hrefuses⟩)
        | capacityLimit => exact .inr (.inr ⟨rfl, hrefuses⟩)
        | _ => exact hrefuses.elim

/-- Closing a table leaves a layout of it in the buffer. -/
theorem endTable_writes (hsound : before.Sound) (hphase : before.phase = .table opened)
    (hfills : opened.Fills before filled) :
    Writes endTable before
      (before.written.size + 7 - opened.start ≤ Layout.maxEntry ∧
        2 * opened.fieldCount + 4 ≤ Layout.maxEntry)
      True (before.written.size + 2 * opened.fieldCount + 11)
      fun table after => before.Adds table after ∧
        TableAt after.written.bytes table (filled.map FilledSlot.holding) := by
  have hpadding := isWidth_four.padding_lt before.written.size
  have hend : before.tableEnd = before.written.size + padding 4 before.written.size + 4 := rfl
  have hcount := length_vtableWords_le hfills before.tableEnd
  apply ((((endTable_closes hsound hphase hfills).of_legal _).of_fitting _).of_bound _).imp
  · rintro table after ⟨-, hadds, -, vtable, hlayout, -⟩
    exact ⟨hadds, opened.start, vtable, filled, hlayout, rfl⟩
  · rintro ⟨hsmall, -⟩
    omega
  · rintro ⟨-, hfields⟩
    omega
  · omega

/-- A table that is written whole holds what is kept of its fields. -/
theorem table_writes (hsound : before.Sound) (fields : List Field) (hfew : fields.length ≤ 1000) :
    Writes (table fields) before
      (before.phase = .idle ∧ ∀ field ∈ fields, field.Ready before.written.size)
      (∀ field ∈ fields, field.Fits before.forceDefaults)
      (before.written.size + 17 * fields.length + 11)
      fun offset after => before.Adds offset after ∧
        TableAt after.written.bytes offset (Field.slots before.forceDefaults 0 fields) := by
  unfold table
  apply ((startTable_writes (fields.length : Number)).of_legal _).bind_true (by omega)
  · rintro _ _ ⟨count, hcount, rfl⟩ -
    obtain rfl : fields.length = count := by simpa using hcount
    have hopened := hsound.inPhase (.table ⟨fields.length, before.written.size, fields.length, []⟩)
    have hfields := addFields_writes hopened rfl (fills_nil before fields.length _) fields 0
      (Nat.zero_add _).symm
    apply ((hfields.of_legal And.right).bind (by simp only; omega) _).of_fits
      (Iff.of_eq (and_true _))
    rintro _ filled' ⟨opened, filled, front, hphase, hstart, hfieldCount, -, hfills, hslots, hputs,
      hmodest⟩ hbound
    have hsuffix := hputs.suffix
    have hsound' : filled'.Sound := (hputs.sound hopened).inPhase filled'.phase
    have hend := endTable_writes hsound' hphase hfills
    simp only at hstart hfieldCount hbound
    rw [hfieldCount, hstart] at hend
    apply ((hend.of_legal _).of_legal_bound _).imp
    · rintro offset after ⟨hadds, htable⟩
      rw [hslots] at htable
      refine ⟨⟨hsuffix.trans hadds.suffix, hadds.idle,
        hadds.forceDefaults.trans hputs.forceDefaults, hadds.sound,
        hmodest.trans_raises hadds.modest, hadds.positive, hadds.within⟩, htable⟩
    · intro hlegal
      have hbounded := hbound hlegal
      have hmaximum : Layout.maxEntry = 65535 := rfl
      omega
    · intro hlegal
      have hbounded := hbound hlegal
      omega
  · rintro ⟨hidle, -⟩
    have hmaximum : slotLimit = 4294967296 := rfl
    exact ⟨hidle, fields.length, Number.toNat?_natCast _, by omega⟩

end Build

end GraphWire

import GraphWire.Proofs.Builder.Finish
import GraphWire.Proofs.Builder.OpenVector
import GraphWire.Proofs.Builder.Scratch

/-!
# Builders over a scratch array

A builder over a scratch array stands for one over a region (`Builder.plain`).  Every operation, run
on the array, has the outcome that it has on the region, and leaves an array that stands for the
region it leaves (`Build.Refines`).  It is here that distances from the end are taken to indices:
zero bytes may be padded beyond the array, but bytes are only pushed, sliced, rolled back and patched
where room was made before, whether or not the array has been exchanged since.
-/

namespace GraphWire

namespace Builder

/-- The builder over the region that the scratch array stands for. -/
def plain (builder : Builder Scratch) : Builder :=
  { builder with written := builder.written.region }

/-- A builder whose array has the size that the builder takes it to have. -/
structure Fitted (builder : Builder Scratch) : Prop where
  spans : builder.written.Spans builder.capacity
  limited : builder.capacity ≤ Layout.maxBufferSize
  alignment : builder.alignment.AtLeast 1
  finished : builder.phase = .finished → 0 ≤ builder.written.space

variable {builder : Builder Scratch}

@[simp]
theorem plain_phase (builder : Builder Scratch) : builder.plain.phase = builder.phase := rfl

@[simp]
theorem plain_offset (builder : Builder Scratch) : builder.plain.offset = builder.offset := rfl

@[simp]
theorem plain_alignment (builder : Builder Scratch) :
    builder.plain.alignment = builder.alignment := rfl

@[simp]
theorem plain_forceDefaults (builder : Builder Scratch) :
    builder.plain.forceDefaults = builder.forceDefaults := rfl

@[simp]
theorem plain_log (builder : Builder Scratch) : builder.plain.log = builder.log := rfl

theorem Fitted.space_eq (hfitted : builder.Fitted) :
    builder.written.space = builder.plain.capacity - builder.plain.written.size := by
  obtain ⟨hsize, hspace⟩ := hfitted.spans
  have hwritten : builder.plain.written.size
      = (builder.written.array.size - builder.written.space).toNat := rfl
  have hcapacity : builder.plain.capacity = builder.capacity := rfl
  omega

theorem Fitted.note (hfitted : builder.Fitted) (alignment : Number) :
    Fitted { builder with alignment := max builder.alignment alignment } :=
  ⟨hfitted.spans, hfitted.limited, hfitted.alignment.max alignment, hfitted.finished⟩

theorem Fitted.inPhase (hfitted : builder.Fitted) {phase : Phase} (hphase : phase ≠ .finished) :
    Fitted { builder with phase } :=
  ⟨hfitted.spans, hfitted.limited, hfitted.alignment, fun hfinished => absurd hfinished hphase⟩

theorem plain_growTo (hfitted : builder.Fitted) (required : ℕ) :
    (builder.growTo required).plain = builder.plain.growTo required := by
  have hregion := Scratch.region_grow hfitted.spans required
  unfold plain growTo
  simp only [Region.store_grow]
  rw [← hregion]
  rfl

theorem Fitted.growTo (hfitted : builder.Fitted) (hwritable : builder.phase ≠ .finished)
    (required : ℕ) : (builder.growTo required).Fitted where
  spans := hfitted.spans.grow required
  limited := grownCapacity_le _ _ hfitted.limited
  alignment := hfitted.alignment
  finished := fun hfinished => absurd hfinished hwritable

end Builder

namespace Build

variable {α β : Type} {before : Builder Scratch}

/-- A computation on a scratch array does what another one does on the region that the array stands
for. -/
def RefinesAt (concrete : BuildOver Scratch α) (abstract : Build α) (before : Builder Scratch) :
    Prop :=
  match concrete before with
  | .ok value after => abstract before.plain = .ok value after.plain ∧ after.Fitted
  | .error error after => abstract before.plain = .error error after.plain ∧ after.Fitted

def Refines (concrete : BuildOver Scratch α) (abstract : Build α) : Prop :=
  ∀ before, before.Fitted → RefinesAt concrete abstract before

/-! ## Sequences -/

section

variable {concrete : BuildOver Scratch α} {abstract : Build α} {next : α → BuildOver Scratch β}
  {next' : α → Build β}

/-- The second step starts where the first one has ended, on the array and on the region. -/
theorem RefinesAt.bind (hfirst : RefinesAt concrete abstract before)
    (hnext : ∀ value after, abstract before.plain = .ok value after.plain → after.Fitted →
      RefinesAt (next value) (next' value) after) :
    RefinesAt (concrete >>= next) (abstract >>= next') before := by
  unfold RefinesAt at hfirst ⊢
  cases hresult : concrete before with
  | ok value after =>
      rw [hresult] at hfirst
      have hlater := hnext value after hfirst.1 hfirst.2
      unfold RefinesAt at hlater
      rw [bind_of_ok hresult, bind_of_ok hfirst.1]
      exact hlater
  | error error after =>
      rw [hresult] at hfirst
      rw [bind_of_error hresult]
      exact ⟨bind_of_error hfirst.1, hfirst.2⟩

theorem Refines.step (hfirst : Refines concrete abstract)
    (hnext : ∀ value before after, abstract (Builder.plain before) = .ok value after.plain →
      after.Fitted →
      RefinesAt (next value) (next' value) after) :
    Refines (concrete >>= next) (abstract >>= next') :=
  fun before hfitted => (hfirst before hfitted).bind fun value after => hnext value before after

theorem Refines.bind (hfirst : Refines concrete abstract)
    (hnext : ∀ value, Refines (next value) (next' value)) :
    Refines (concrete >>= next) (abstract >>= next') :=
  hfirst.step fun value _ after _ hfitted => hnext value after hfitted

end

theorem Refines.pure (value : α) : Refines (Pure.pure value) (Pure.pure value) :=
  fun _ hfitted => ⟨rfl, hfitted⟩

theorem Refines.throw (error : BuildError) :
    Refines (MonadExcept.throw error : BuildOver Scratch α) (MonadExcept.throw error) :=
  fun _ hfitted => ⟨rfl, hfitted⟩

theorem Refines.look {next : Builder Scratch → BuildOver Scratch α} {next' : Builder → Build α}
    (hnext : ∀ builder, Refines (next builder) (next' builder.plain)) :
    Refines (MonadState.get >>= next) (MonadState.get >>= next') :=
  fun before hfitted => hnext before before hfitted

theorem RefinesAt.look {next : Builder Scratch → BuildOver Scratch α} {next' : Builder → Build α}
    (hnext : RefinesAt (next before) (next' before.plain) before) :
    RefinesAt (MonadState.get >>= next) (MonadState.get >>= next') before :=
  hnext

theorem Refines.ite {condition : Prop} [Decidable condition] {concrete other : BuildOver Scratch α}
    {abstract other' : Build α} (hthen : Refines concrete abstract) (helse : Refines other other') :
    Refines (if condition then concrete else other) (if condition then abstract else other') := by
  split
  · exact hthen
  · exact helse

/-- A change that says the same of the array and of the region. -/
theorem Refines.change {change : Builder Scratch → Builder Scratch} {change' : Builder → Builder}
    (hchange : ∀ before, before.Fitted →
      change' before.plain = (change before).plain ∧ (change before).Fitted) :
    Refines (modify change) (modify change') :=
  fun before hfitted =>
    have hafter := hchange before hfitted
    ⟨congrArg (EStateM.Result.ok ()) hafter.1, hafter.2⟩

theorem requireWritable_refines : Refines requireWritable requireWritable :=
  .look fun _ => .ite (.throw _) (.pure ())

theorem requireIdle_refines (what : Opening) : Refines (requireIdle what) (requireIdle what) := by
  apply Refines.look
  intro builder
  rw [Builder.plain_phase]
  cases builder.phase with
  | idle | finished => exact .pure ()
  | table _ | vector _ => exact .throw _

theorem begins_refines {what : Opening} {concrete : BuildOver Scratch α} {abstract : Build α}
    (hnext : Refines concrete abstract) :
    Refines (do requireWritable; requireIdle what; concrete)
      (do requireWritable; requireIdle what; abstract) :=
  requireWritable_refines.bind fun _ => (requireIdle_refines what).bind fun _ => hnext

/-! ## Space -/

/-- Zero bytes may come to lie in front of the array. -/
theorem pad_refines (hfitted : before.Fitted) (hwritable : before.phase ≠ .finished)
    (zeros required : ℕ) : RefinesAt (pad zeros required) (pad zeros required) before := by
  have hgrown := hfitted.growTo hwritable required
  have hplain := Builder.plain_growTo hfitted required
  have hcapacity : (before.growTo required).plain.capacity = (before.growTo required).capacity :=
    rfl
  unfold RefinesAt
  rw [pad_eq, pad_eq, ← hplain, hcapacity]
  by_cases hshort : (before.growTo required).capacity < required
  · simp only [if_pos hshort]
    exact ⟨trivial, hgrown⟩
  · simp only [if_neg hshort]
    have hregion := Scratch.region_pad hgrown.spans zeros
    refine ⟨?_, hgrown.spans.pad zeros, hgrown.limited, hgrown.alignment, ?_⟩
    · exact congrArg (fun written : Region => EStateM.Result.ok ()
        { (before.growTo required).plain with written }) hregion.symm
    · exact fun hfinished => absurd hfinished hwritable

/-- A step that changes the written bytes and leaves them in the array. -/
theorem written_refines (hfitted : before.Fitted) {change : Scratch → Scratch}
    {change' : Region → Region} (hspans : (change before.written).Spans before.capacity)
    (hspace : 0 ≤ (change before.written).space)
    (hregion : (change before.written).region = change' before.written.region) :
    RefinesAt (modify fun builder => { builder with written := change builder.written })
      (modify fun builder => { builder with written := change' builder.written }) before := by
  refine ⟨?_, hspans, hfitted.limited, hfitted.alignment, fun _ => hspace⟩
  exact congrArg (fun written : Region => EStateM.Result.ok () { before.plain with written })
    hregion.symm

/-- Bytes are pushed where there is room for them. -/
theorem push_refines (hfitted : before.Fitted) {bytes : List UInt8}
    (hroom : before.plain.written.size + bytes.length ≤ before.plain.capacity) :
    RefinesAt (push bytes) (push bytes) before := by
  have hspace : 0 ≤ (before.written.push bytes).space := by
    have hfree := hfitted.space_eq
    change 0 ≤ before.written.space - bytes.length
    omega
  exact written_refines hfitted (hfitted.spans.push hroom) hspace
    (Scratch.region_push hfitted.spans hroom)

theorem pushZeros_refines (hfitted : before.Fitted) {count : ℕ}
    (hroom : before.plain.written.size + count ≤ before.plain.capacity) :
    RefinesAt (pushZeros count) (pushZeros count) before := by
  have hspace : 0 ≤ (before.written.pad count).space := by
    have hfree := hfitted.space_eq
    change 0 ≤ before.written.space - count
    omega
  exact written_refines hfitted (hfitted.spans.pad count) hspace
    (Scratch.region_pad hfitted.spans count)

/-- What makes room notes an alignment and pads. -/
theorem padded_refines (alignment : Number) (zeros required : ℕ → ℕ) :
    Refines
      (do
        requireWritable
        noteAlignment alignment
        let builder ← get
        pad (zeros builder.offset) (required builder.offset))
      (do
        requireWritable
        noteAlignment alignment
        let builder ← get
        pad (zeros builder.offset) (required builder.offset)) := by
  apply requireWritable_refines.step
  intro _ before writable hresult hfitted
  obtain ⟨hopen, hsame⟩ := of_requireWritable hresult
  have hwritable : writable.phase ≠ .finished := by
    rw [← Builder.plain_phase, hsame]
    exact hopen
  exact pad_refines (hfitted.note alignment) hwritable (zeros writable.offset)
    (required writable.offset)

theorem reserve_refines (alignment additional : ℕ) :
    Refines (reserve alignment additional) (reserve alignment additional) :=
  padded_refines alignment (fun size => padding alignment (size + additional))
    fun size => size + padding alignment (size + additional) + alignment + additional

theorem reserveWords_refines (alignment additional : Number) :
    Refines (reserveWords alignment additional) (reserveWords alignment additional) :=
  padded_refines alignment (fun size => (wordPadding alignment (size + additional)).toNat)
    fun size => capacityFor size
      (Number.ofInt (wordPadding alignment (size + additional)) + alignment + additional)

theorem prepare_refines (alignment additional : Number) :
    Refines (prepare alignment additional) (prepare alignment additional) := by
  unfold prepare
  split
  · exact .ite (reserve_refines _ _) (reserveWords_refines _ _)
  · exact reserveWords_refines _ _

/-- Bytes may be pushed for which a reservation has made room. -/
theorem reserve_push_refines {width additional : ℕ} {bytes : List UInt8}
    (hbytes : bytes.length ≤ width + additional) :
    Refines (do reserve width additional; push bytes) (do reserve width additional; push bytes) := by
  apply (reserve_refines width additional).step
  intro _ before after hreserved hfitted
  obtain ⟨hroom, -⟩ := of_reserve hreserved
  exact push_refines hfitted (by omega)

theorem write_refines (type : Scalar) (value : type.Value) :
    Refines (write type value) (write type value) := by
  unfold write
  cases type.word value with
  | error refused => exact .throw _
  | ok word =>
      apply reserve_push_refines
      rw [LittleEndian.length_split]
      omega

theorem writeOffset_refines (target : Number) : Refines (writeOffset target) (writeOffset target) := by
  apply (reserve_refines _ _).bind
  intro _
  apply Refines.look
  intro builder
  rw [Builder.plain_offset]
  dsimp only
  split
  · exact write_refines _ _
  · exact .throw _

theorem writeAll_refines {writeOne : α → BuildOver Scratch Unit} {writeOne' : α → Build Unit}
    (hwrite : ∀ item, Refines (writeOne item) (writeOne' item)) (items : List α) :
    Refines (writeAll writeOne items) (writeAll writeOne' items) := by
  induction items with
  | nil => exact .pure ()
  | cons item items ih => exact ih.bind fun _ => hwrite item

/-! ## Tables -/

theorem startTable_refines (fieldCount : Number) :
    Refines (startTable fieldCount) (startTable fieldCount) := by
  apply begins_refines
  split
  · exact .throw _
  · next count _ =>
      have hopen : Refines
          (modify fun builder => { builder with
            phase := .table ⟨count, builder.offset, count, []⟩ })
          (modify fun builder => { builder with
            phase := .table ⟨count, builder.offset, count, []⟩ }) :=
        .change fun _ hfitted => ⟨rfl, hfitted.inPhase nofun⟩
      exact .ite (.bind (.throw _) fun _ => hopen) hopen

theorem takeSlot_refines (slot : Number) : Refines (takeSlot slot) (takeSlot slot) := by
  apply Refines.look
  intro builder
  rw [Builder.plain_phase]
  cases builder.phase with
  | idle | vector _ | finished => exact .throw _
  | table opened =>
      dsimp only
      split
      · exact .throw _
      · next index _ =>
          have htake : Refines
              (do
                modify fun builder => { builder with
                  phase := .table { opened with limit := index } }
                return index)
              (do
                modify fun builder => { builder with
                  phase := .table { opened with limit := index } }
                return index) :=
            .bind (.change fun _ hfitted => ⟨rfl, hfitted.inPhase nofun⟩) fun _ => .pure index
          exact .ite (.bind (.throw _) fun _ => htake) htake

theorem noteEntry_refines (slot : ℕ) : Refines (noteEntry slot) (noteEntry slot) := by
  intro before hfitted
  unfold noteEntry RefinesAt
  simp only [get_bind_apply, Builder.plain_phase]
  cases before.phase with
  | idle | vector _ | finished => exact ⟨rfl, hfitted⟩
  | table opened => exact ⟨rfl, hfitted.inPhase nofun⟩

theorem addField_refines (slot : Number) (field : Field) :
    Refines (addField slot field) (addField slot field) := by
  apply (takeSlot_refines slot).bind
  intro index
  cases field with
  | scalar type value default =>
      apply Refines.look
      intro builder
      exact .ite ((write_refines type value).bind fun _ => noteEntry_refines index) (.pure ())
  | reference target =>
      exact .ite ((writeOffset_refines target).bind fun _ => noteEntry_refines index) (.pure ())

/-! ### Closing a table -/

/-- A word is written where there is room for it. -/
theorem within_of_write {before after : Builder} {type : Scalar} {value : type.Value}
    {result : Unit} (hresult : write type value before = .ok result after) :
    after.written.size ≤ after.capacity := by
  unfold write at hresult
  cases hword : type.word value with
  | error refused =>
      rw [hword] at hresult
      cases hresult
  | ok word =>
      rw [hword] at hresult
      obtain ⟨_, reserved, hreserved, hpush⟩ := of_bind_ok hresult
      obtain ⟨hroom, -⟩ := of_reserve hreserved
      cases hpush
      simp only [Region.store_push, Region.size_push, LittleEndian.length_split]
      omega

theorem within_of_writeAll {before after : Builder} {words : List ℕ} {result : Unit}
    (hwithin : before.written.size ≤ before.capacity)
    (hresult : writeAll (fun word : ℕ => write .uint16 (word : Number)) words before
      = .ok result after) : after.written.size ≤ after.capacity := by
  cases words with
  | nil =>
      cases hresult
      exact hwithin
  | cons word words =>
      obtain ⟨_, _, _, hlast⟩ := of_bind_ok hresult
      exact within_of_write hlast

/-- The distance is patched, and the vtable given up, at an offset that is in the buffer. -/
theorem linkVtable_refines (hfitted : before.Fitted) {table : ℕ} (vtableSize : ℕ)
    (hwithin : before.plain.written.size ≤ before.plain.capacity)
    (htable : table ≤ before.plain.written.size) (hfour : 4 ≤ table) :
    RefinesAt (linkVtable table vtableSize) (linkVtable table vtableSize) before := by
  have hspace : 0 ≤ before.written.space := by
    have hfree := hfitted.space_eq
    omega
  have hfront : Store.front vtableSize before.written
      = Store.front vtableSize before.plain.written := Scratch.front_eq hspace vtableSize
  have hshared (bytes : List UInt8) : sharedVtable? before.plain bytes
      = sharedVtable? before bytes := rfl
  have hdistance (vtable : ℕ) : (vtableDistance vtable table).length ≤ table :=
    (length_vtableDistance vtable table).le.trans hfour
  unfold linkVtable RefinesAt
  rw [get_bind_apply, get_bind_apply, ← hfront, hshared]
  cases sharedVtable? before (Store.front vtableSize before.written) with
  | some stored =>
      have hbody := hfitted.spans.rollback table
      have hstart : (before.written.rollback table).space = before.written.array.size - table := rfl
      have hsize : (before.written.rollback table).size
          = (before.written.array.size - (before.written.array.size - table : ℤ)).toNat := rfl
      have hcapacity : before.plain.capacity = before.written.array.size :=
        hfitted.spans.size_eq.symm
      have hregion : ((before.written.rollback table).patch table
            (vtableDistance stored.offset table)).region
          = (before.plain.written.behind table).overwritten table
            (vtableDistance stored.offset table) := by
        rw [Scratch.region_patch hbody (by omega) (by omega) _,
          Scratch.region_rollback hfitted.spans hspace htable]
        rfl
      refine ⟨?_, hbody.patch (htable.trans hwithin) (hdistance _), hfitted.limited,
        hfitted.alignment, nofun⟩
      exact congrArg (fun written : Region => EStateM.Result.ok () { before.plain with
        written
        phase := .idle }) hregion.symm
  | none =>
      have hregion := Scratch.region_patch hfitted.spans hspace htable
        (vtableDistance before.offset table)
      refine ⟨?_, hfitted.spans.patch (htable.trans hwithin) (hdistance _), hfitted.limited,
        hfitted.alignment, nofun⟩
      exact congrArg (fun written : Region => EStateM.Result.ok () { before.plain with
        written
        phase := .idle
        vtables :=
          if before.dedupeVtables then
            ⟨Store.front vtableSize before.written, before.offset⟩ :: before.vtables
          else before.vtables
        vtableCount := before.vtableCount + 1 }) hregion.symm

theorem endTable_refines : Refines endTable endTable := by
  apply Refines.look
  intro builder
  rw [Builder.plain_phase]
  cases builder.phase with
  | idle | vector _ | finished => exact .throw _
  | table opened =>
      apply (reserve_refines _ _).step
      intro _ before padded hpadded hfitted
      obtain ⟨hroom, -⟩ := of_reserve hpadded
      apply (pushZeros_refines hfitted hroom).bind
      intro _ headed hheaded hfitted
      have hafter := EStateM.Result.ok.inj hheaded
      have hsize : headed.plain.written.size = Layout.offsetWidth + padded.plain.written.size := by
        rw [← hafter.2]
        rfl
      have hcapacity : headed.plain.capacity = padded.plain.capacity := by
        rw [← hafter.2]
      have hwithin : headed.plain.written.size ≤ headed.plain.capacity := by omega
      apply RefinesAt.look
      rw [Builder.plain_offset]
      dsimp only
      by_cases hlarge : Layout.maxEntry < headed.offset - opened.start
      · simp only [if_pos hlarge]
        exact ⟨rfl, hfitted⟩
      · simp only [if_neg hlarge]
        apply (writeAll_refines (fun entry : ℕ => write_refines .uint16 (entry : Number)) _ headed
          hfitted).bind
        intro _ listed hlisted hfitted
        have hmore := size_le_of_writeEntries hlisted
        have htable : headed.offset = headed.plain.written.size := rfl
        have hfour : Layout.offsetWidth = 4 := rfl
        apply (linkVtable_refines hfitted _ (within_of_writeAll hwithin hlisted) (by omega)
          (by omega)).bind
        intro _ linked _ hfitted
        exact Refines.pure _ linked hfitted

theorem addFields_refines (slot : ℕ) (fields : List Field) :
    Refines (table.addFields slot fields) (table.addFields slot fields) := by
  induction fields generalizing slot with
  | nil => exact .pure ()
  | cons field fields ih => exact (ih (slot + 1)).bind fun _ => addField_refines _ field

theorem table_refines (fields : List Field) : Refines (table fields) (table fields) :=
  (startTable_refines _).bind fun _ => (addFields_refines 0 fields).bind fun _ => endTable_refines

/-! ## Vectors and strings -/

theorem openVector_refines (count byteLength alignment : Number) :
    Refines (openVector count byteLength alignment) (openVector count byteLength alignment) :=
  (prepare_refines _ _).bind fun _ => (prepare_refines _ _).bind fun _ =>
    .change fun _ hfitted => ⟨rfl, hfitted.inPhase nofun⟩

theorem startVector_refines (elementSize count alignment : Number) :
    Refines (startVector elementSize count alignment) (startVector elementSize count alignment) :=
  have hopen := openVector_refines count (elementSize * count) alignment
  begins_refines (.ite (.bind (.throw _) fun _ => hopen) hopen)

theorem endVector_refines : Refines endVector endVector := by
  intro before hfitted
  unfold endVector
  apply RefinesAt.look
  rw [Builder.plain_phase, Builder.plain_offset]
  cases before.phase with
  | idle | table _ | finished => exact ⟨rfl, hfitted⟩
  | vector opened =>
      have hcounted : Refines (do write .uint32 opened.count; return (← get).offset)
          (do write .uint32 opened.count; return (← get).offset) :=
        (write_refines _ _).bind fun _ => .look fun builder => .pure builder.offset
      dsimp only
      split
      · exact ⟨rfl, hfitted⟩
      · exact hcounted { before with phase := .idle } (hfitted.inPhase nofun)

theorem vectorOf_refines (width count : ℕ) {elements : BuildOver Scratch Unit}
    {elements' : Build Unit} (helements : Refines elements elements') :
    Refines (vectorOf width count elements) (vectorOf width count elements') :=
  begins_refines ((openVector_refines _ _ _).bind fun _ => helements.bind fun _ =>
    endVector_refines)

theorem scalars_refines (type : Scalar) (values : List type.Value) :
    Refines (scalars type values) (scalars type values) :=
  vectorOf_refines _ _ (writeAll_refines (write_refines type) values)

theorem offsets_refines (targets : List Number) : Refines (offsets targets) (offsets targets) :=
  vectorOf_refines _ _ (writeAll_refines writeOffset_refines targets)

/-- The bytes of a string are pushed where the vector was opened for them. -/
theorem stringBytes_refines (bytes : List UInt8) :
    Refines (stringBytes bytes) (stringBytes bytes) := by
  apply begins_refines
  apply (write_refines _ _).bind
  intro _
  apply begins_refines
  have hone {σ : Type} [Store σ] : prepare (σ := σ) (1 : ℕ) (1 * bytes.length : ℕ)
      = reserve 1 (1 * bytes.length) :=
    prepare_width ⟨0, by decide, rfl⟩ _
  unfold openVector
  rw [hone, hone]
  simp only [bind_assoc]
  apply (prepare_refines _ _).bind
  intro _
  apply (reserve_refines 1 _).step
  intro _ before reserved hreserved hfitted
  obtain ⟨hroom, -⟩ := of_reserve hreserved
  let opened : Builder Scratch := { reserved with
    phase := .vector ⟨bytes.length, (1 * bytes.length : ℕ), reserved.offset⟩ }
  have hopened : opened.Fitted := hfitted.inPhase nofun
  have hfree : opened.plain.written.size + bytes.length ≤ opened.plain.capacity := by
    change reserved.plain.written.size + bytes.length ≤ reserved.plain.capacity
    omega
  exact (push_refines hopened hfree).bind fun _ filled _ hfilled => endVector_refines filled hfilled

/-! ## Finishing -/

/-- Room is made for all the bytes that are asked for, at any alignment that is noted. -/
theorem within_of_prepare {before after : Builder} {alignment : Number}
    (halignment : alignment.AtLeast 1) {additional : ℕ} (hsmall : additional < 2 ^ 31)
    (hlimited : after.capacity ≤ Layout.maxBufferSize)
    (hresult : prepare alignment additional before = .ok () after) :
    after.written.size + additional ≤ after.capacity := by
  have hwords (hwords : reserveWords alignment additional before = .ok () after) :
      after.written.size + additional ≤ after.capacity := by
    unfold reserveWords at hwords
    obtain ⟨_, writable, hwritable, hreserved⟩ := of_bind_ok hwords
    obtain ⟨_, noted, hnoted, hpadded⟩ := of_bind_ok hreserved
    rw [get_bind_apply] at hpadded
    obtain ⟨hcapacity, hwritten⟩ := of_pad hpadded
    have hroom := le_capacityFor noted.offset
      (atLeast_wordRoom halignment (noted.offset + additional) additional hsmall)
    have hsize := congrArg Region.size hwritten
    rw [Region.size_push, List.length_replicate, ← Builder.offset_eq noted] at hsize
    omega
  unfold prepare at hresult
  rw [Number.toNat?_natCast] at hresult
  cases hwidth : alignment.toNat? with
  | none =>
      rw [hwidth] at hresult
      exact hwords hresult
  | some width =>
      rw [hwidth] at hresult
      dsimp only at hresult
      split at hresult
      · obtain ⟨hroom, -⟩ := of_reserve hresult
        omega
      · exact hwords hresult

/-- An identifier is pushed where room was made for the whole head. -/
theorem beginHead_refines (options : FinishOptions) :
    Refines (beginHead options) (beginHead options) := by
  intro before hfitted
  apply RefinesAt.look
  rw [Builder.plain_alignment]
  cases options.identifier with
  | none => exact prepare_refines _ _ before hfitted
  | some identifier =>
      dsimp only
      split
      · exact ⟨rfl, hfitted⟩
      · next hchecked =>
          apply (prepare_refines _ _ before hfitted).bind
          intro _ padded hpadded hpaddedFitted
          have hsmall : Layout.offsetWidth + Layout.identifierLength
              + (if options.sizePrefix then Layout.sizePrefixWidth else 0) < 2 ^ 31 := by
            split <;> decide
          have hroom := within_of_prepare hfitted.alignment hsmall hpaddedFitted.limited hpadded
          have hvalid : Identifier.valid identifier = true := by
            simpa [Identifier.check] using hchecked
          have hlength := Identifier.length_toBytes hvalid
          have hidentifier : Layout.identifierLength = 4 := rfl
          exact push_refines hpaddedFitted (by omega)

theorem writeSize_refines : Refines writeSize writeSize :=
  .look fun _ => write_refines _ _

theorem within_of_writeOffset {before after : Builder} {target : Number} {result : Unit}
    (hresult : writeOffset target before = .ok result after) :
    after.written.size ≤ after.capacity := by
  obtain ⟨_, padded, _, hresult⟩ := of_bind_ok hresult
  rw [get_bind_apply, Builder.offset_eq] at hresult
  cases hfound : target.toNat?.filter fun target => 0 < target ∧ target ≤ padded.written.size with
  | some offset =>
      rw [hfound] at hresult
      exact within_of_write hresult
  | none =>
      rw [hfound] at hresult
      cases hresult

/-- A buffer is sealed when all its bytes are in the array. -/
theorem markFinished_refines (hfitted : before.Fitted)
    (hwithin : before.plain.written.size ≤ before.plain.capacity) (identifier : Option String) :
    RefinesAt (markFinished identifier) (markFinished identifier) before := by
  have hspace : 0 ≤ before.written.space := by
    have hfree := hfitted.space_eq
    omega
  exact ⟨rfl, hfitted.spans, hfitted.limited, hfitted.alignment, fun _ => hspace⟩

theorem finish_refines (root : Number) (options : FinishOptions) :
    Refines (finish root options) (finish root options) := by
  apply begins_refines
  apply (beginHead_refines options).bind
  intro _
  apply (writeOffset_refines root).step
  intro _ before placed hplaced hfitted
  have hplacedWithin := within_of_writeOffset hplaced
  split
  · apply (writeSize_refines placed hfitted).bind
    intro _ sized hsized hsizedFitted
    exact markFinished_refines hsizedFitted (within_of_write hsized) _
  · exact markFinished_refines hfitted hplacedWithin _

theorem bytes_refines : Refines bytes bytes := by
  intro before hfitted
  apply RefinesAt.look
  rw [Builder.plain_phase]
  cases hphase : before.phase with
  | idle | table _ | vector _ => exact ⟨rfl, hfitted⟩
  | finished =>
      have hbytes : Store.bytes before.written = Store.bytes before.plain.written :=
        Scratch.bytes_eq (hfitted.finished hphase)
      rw [hbytes]
      exact ⟨rfl, hfitted⟩

theorem clear_refines : Refines clear clear := by
  apply Refines.change
  intro before hfitted
  have hsize := hfitted.spans.size_eq
  have hregion : (Store.erase before.written : Scratch).region = .empty :=
    Scratch.region_blank _
  refine ⟨?_, ?_, hfitted.limited, Number.atLeast_ofInt 1, nofun⟩
  · exact congrArg (fun written : Region => { before.plain.cleared with written }) hregion.symm
  · exact hsize ▸ Scratch.spans_blank _

end Build

end GraphWire

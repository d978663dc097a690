import GraphWire.Proofs.Builder.Finish
import GraphWire.Proofs.Builder.Frame
import GraphWire.Proofs.Builder.OpenTable
import GraphWire.Proofs.Builder.Progress

/-!
# What is written fits the buffer

A builder grows its buffer before it writes, so the written bytes never outgrow it
(`Builder.Contained`).  This holds after errors as well, as long as the sizes that callers reserve
are powers of two and what they reserve behind them is not negative.  An operation that succeeds
leaves the written bytes where they are (`Build.Appends`).
-/

namespace GraphWire

/-- A builder whose buffer holds what is written, and whose largest alignment is a power of two. -/
structure Builder.Contained (builder : Builder) : Prop where
  size_le : builder.written.size ≤ builder.capacity
  limited : builder.capacity ≤ Layout.maxBufferSize
  power : ∃ exponent : ℕ, builder.alignment = (2 ^ exponent : ℕ)

/-- A builder that holds what is written if it did so before. -/
def Builder.Stays (before after : Builder) : Prop :=
  before.Contained → after.Contained

instance : IsPreorder Builder Builder.Stays where
  refl _ := id
  trans _ _ _ hfirst hsecond := hsecond ∘ hfirst

namespace Builder.Contained

variable {builder : Builder}

/-- What is open and what is remembered makes no difference to the room. -/
theorem congr (hcontained : builder.Contained) {builder' : Builder}
    (hwritten : builder'.written.size ≤ builder.written.size)
    (hcapacity : builder'.capacity = builder.capacity)
    (halignment : builder'.alignment = builder.alignment) : builder'.Contained where
  size_le := by
    rw [hcapacity]
    exact hwritten.trans hcontained.size_le
  limited := hcapacity ▸ hcontained.limited
  power := halignment ▸ hcontained.power

theorem note (hcontained : builder.Contained) {exponent : ℕ} {alignment : Number}
    (hpower : alignment = (2 ^ exponent : ℕ)) :
    Builder.Contained { builder with alignment := max builder.alignment alignment } where
  size_le := hcontained.size_le
  limited := hcontained.limited
  power := by
    obtain ⟨exponent', hpower'⟩ := hcontained.power
    refine ⟨max exponent' exponent, ?_⟩
    rw [← max_two_pow, ← Number.max_natCast, ← hpower, ← hpower']

theorem growTo (hcontained : builder.Contained) (required : ℕ) :
    (builder.growTo required).Contained where
  size_le := hcontained.size_le.trans (le_grownCapacity builder.capacity required)
  limited := grownCapacity_le builder.capacity required hcontained.limited
  power := hcontained.power

/-- Bytes for which there is room are put in front. -/
theorem push (hcontained : builder.Contained) {bytes : List UInt8}
    (hroom : builder.written.size + bytes.length ≤ builder.capacity) :
    Builder.Contained { builder with written := builder.written.push bytes } where
  size_le := by
    simp only [Region.size_push]
    omega
  limited := hcontained.limited
  power := hcontained.power

end Builder.Contained

namespace Build

variable {α : Type} {before after : Builder}

theorem leaves_push_bind (bytes : List UInt8) (next : Unit → Build α) (before : Builder) :
    Build.leaves (push bytes >>= next) before
      = (next ()).leaves { before with written := before.written.push bytes } :=
  rfl

/-! ## Reservations -/

theorem noteAlignment_stays {alignment : Number}
    (hpower : ∃ exponent : ℕ, alignment = (2 ^ exponent : ℕ)) :
    Leads Builder.Stays (noteAlignment alignment) := by
  obtain ⟨exponent, hpower⟩ := hpower
  exact .change fun _ hcontained => hcontained.note hpower

/-- Bytes are padded for which room is required, unless there can be no such room. -/
theorem pad_stays {zeros required : ℕ} (hcontained : before.Contained)
    (hroom : zeros = 0 ∨ before.written.size + zeros ≤ required ∨
      Layout.maxBufferSize < required) :
    (Build.leaves (pad zeros required) before).Contained := by
  have hgrown := hcontained.growTo required
  rcases pad_cases zeros required before with herror | ⟨hcapacity, hdone⟩
  · rw [leaves_of_error herror]
    exact hgrown
  · rw [leaves_of_ok hdone]
    apply hgrown.push
    have hsize := hgrown.size_le
    have hlimited := hgrown.limited
    have hwritten : (before.growTo required).written = before.written := rfl
    rw [hwritten] at hsize ⊢
    rw [List.length_replicate]
    omega

theorem stays_sequences : Sequences (Leads Builder.Stays) :=
  Leads.sequences

/-- What makes room notes an alignment and pads. -/
theorem padded_stays {alignment : Number} (hpower : ∃ exponent : ℕ, alignment = (2 ^ exponent : ℕ))
    (zeros required : ℕ → ℕ)
    (hroom : ∀ size ≤ Layout.maxBufferSize, zeros size = 0 ∨ size + zeros size ≤ required size ∨
      Layout.maxBufferSize < required size) :
    Leads Builder.Stays (do
      requireWritable
      noteAlignment alignment
      let builder ← get
      pad (zeros builder.offset) (required builder.offset)) := by
  apply stays_sequences.requireWritable.bind
  intro _
  apply (noteAlignment_stays hpower).bind
  intro _ before hcontained
  rw [leaves_get_bind]
  exact pad_stays hcontained (hroom _ (hcontained.size_le.trans hcontained.limited))

theorem reserve_stays {width : ℕ} (hpower : ∃ exponent : ℕ, width = 2 ^ exponent) (additional : ℕ) :
    Leads Builder.Stays (reserve width additional) := by
  apply padded_stays ⟨_, congrArg Nat.cast hpower.choose_spec⟩
    (fun size => padding width (size + additional))
    (fun size => size + padding width (size + additional) + width + additional)
  intro size _
  omega

/-- Bytes are written for which room was made. -/
theorem reserve_push_stays {width : ℕ} (hpower : ∃ exponent : ℕ, width = 2 ^ exponent)
    {additional : ℕ} {bytes : List UInt8} (hbytes : bytes.length ≤ width + additional) :
    Leads Builder.Stays (do reserve width additional; push bytes) := by
  apply (reserve_stays hpower additional).step
  intro before _ middle hresult hcontained
  obtain ⟨hroom, -⟩ := of_reserve hresult
  exact hcontained.push (by omega)

/-! ### Reservations of a caller -/

theorem wordPadding_nan (alignment : Number) : wordPadding alignment .nan = 0 := by
  have hresidue : TwosComplement.word 4 (-Number.truncated .nan) = 0 := by decide
  unfold wordPadding
  rw [hresidue]
  dsimp only
  rw [Nat.zero_and]
  decide

/-- The padding of a reservation by words is among what it asks room for. -/
theorem words_room {alignment additional : Number}
    (hpower : ∃ exponent : ℕ, alignment = (2 ^ exponent : ℕ))
    (hadditional : additional = .nan ∨ additional.AtLeast 0) (size : ℕ) :
    let padding := wordPadding alignment (size + additional)
    let required := capacityFor size (Number.ofInt padding + alignment + additional)
    padding.toNat = 0 ∨ size + padding.toNat ≤ required ∨ Layout.maxBufferSize < required := by
  intro padding required
  rcases hadditional with rfl | hadditional
  · left
    have hsum : (size : Number) + .nan = .nan := rfl
    simp only [padding, hsum, wordPadding_nan, Int.toNat_zero]
  obtain ⟨exponent, rfl⟩ := hpower
  have hpower : Number.AtLeast 0 ((2 ^ exponent : ℕ) : Number) :=
    (Number.atLeast_ofInt _).mono (Int.natCast_nonneg _)
  have hpadding : padding.natAbs ≤ 2 ^ 31 := natAbs_wordPadding_le _ _
  have hpair := Number.add_atLeast (Number.atLeast_ofInt padding) hpower (by omega)
  have hroom := Number.add_atLeast hpair hadditional (by omega)
  rw [add_zero, add_zero] at hroom
  have hrequired := le_capacityFor size hroom
  change Layout.maxBufferSize < required ∨ size + padding ≤ required at hrequired
  omega

theorem prepare_stays {alignment additional : Number}
    (hpower : ∃ exponent : ℕ, alignment = (2 ^ exponent : ℕ))
    (hadditional : additional = .nan ∨ additional.AtLeast 0) :
    Leads Builder.Stays (prepare alignment additional) := by
  have hwords : Leads Builder.Stays (reserveWords alignment additional) :=
    padded_stays hpower (fun size => (wordPadding alignment (size + additional)).toNat)
      (fun size => capacityFor size
        (Number.ofInt (wordPadding alignment (size + additional)) + alignment + additional))
      fun size _ => words_room hpower hadditional size
  obtain ⟨exponent, rfl⟩ := hpower
  unfold prepare
  split
  · next hwidth _ =>
      obtain rfl := Option.some.inj (hwidth.symm.trans (Number.toNat?_natCast _))
      exact .ite (reserve_stays ⟨exponent, rfl⟩ _) hwords
  · exact hwords

/-- A reservation of a caller for some bytes that succeeds has made the room for them. -/
theorem prepare_room (hcontained : before.Contained) {exponent additional : ℕ} {result : Unit}
    (hresult : prepare (2 ^ exponent : ℕ) additional before = .ok result after) :
    after.written.size + 2 ^ exponent + additional ≤ after.capacity := by
  have hpositive : 0 < 2 ^ exponent := Nat.two_pow_pos _
  simp only [prepare, Number.toNat?_natCast] at hresult
  split at hresult
  · exact (of_reserve hresult).1
  · next hsmall =>
      have hlarge : 31 < exponent := by
        by_contra hbelow
        exact hsmall ⟨hpositive, Nat.pow_le_pow_right (by decide) (by omega)⟩
      obtain ⟨_, writable, hwritable, hresult⟩ := of_bind_ok hresult
      obtain ⟨_, noted, hnoted, hresult⟩ := of_bind_ok hresult
      have hlimited := ((noteAlignment_stays ⟨exponent, rfl⟩).ok hnoted
        (stays_sequences.requireWritable.ok hwritable hcontained)).growTo
      have hroom := capacityFor_gt noted.written.size (atLeast_powerRoom hlarge
        (noted.written.size + (additional : Number)) ((Number.atLeast_ofInt additional).mono
          (Int.natCast_nonneg additional)))
      rw [get_bind_apply] at hresult
      rcases pad_cases _ _ _ with herror | ⟨hcapacity, hdone⟩
      · rw [herror] at hresult
        cases hresult
      · exact absurd (hcapacity.trans (hlimited _).limited) (Nat.not_le.mpr hroom)

/-! ## Words and fields -/

theorem write_stays (type : Scalar) (value : type.Value) :
    Leads Builder.Stays (write type value) := by
  unfold write
  cases type.word value with
  | ok word =>
      have hwidth : ∃ exponent : ℕ, type.width = 2 ^ exponent := by
        obtain ⟨exponent, -, hpower⟩ := type.isWidth
        exact ⟨exponent, hpower⟩
      apply reserve_push_stays hwidth
      rw [LittleEndian.length_split]
      omega
  | error refused => exact .throw _

theorem writeOffset_stays (target : Number) : Leads Builder.Stays (writeOffset target) :=
  stays_sequences.writeOffset (reserve_stays ⟨2, rfl⟩ 0) write_stays target

theorem tabulates_stays : Tabulates (Leads Builder.Stays) :=
  fun _ _ => .change fun _ hcontained => hcontained.congr (le_refl _) rfl rfl

theorem addField_stays : ∀ slot field, Leads Builder.Stays (addField slot field) :=
  stays_sequences.addField write_stays writeOffset_stays tabulates_stays

/-! ## Tables -/

theorem startTable_stays : ∀ fieldCount, Leads Builder.Stays (startTable fieldCount) :=
  stays_sequences.startTable tabulates_stays fun _ => .throw _

/-- What linking a table to its vtable keeps takes no more bytes than what was written. -/
theorem linkBody_stays {body : Region} {listed : Builder} (hcontained : listed.Contained)
    {table vtableSize : ℕ} (hsize : vtableSize + 4 + body.size ≤ listed.written.size) :
    ((linkBody body table vtableSize).leaves listed).Contained := by
  obtain ⟨linked, hlinked, hrelinks⟩ := linkBody_relinks body table vtableSize listed
  rw [leaves_of_ok hlinked]
  exact hcontained.congr (hrelinks.size_le.trans hsize) hrelinks.capacity hrelinks.alignment

theorem endTable_stays : Leads Builder.Stays endTable := by
  have hlinked (body : Region) (table : ℕ) (words : List ℕ) {headed : Builder}
      (hcontained : headed.Contained) (hsize : body.size + 4 ≤ headed.written.size) :
      ((do
        writeAll (fun entry : ℕ => write .uint16 (entry : Number)) words
        linkBody body table (words.length * 2)
        return table : Build ℕ).leaves headed).Contained := by
    have hwritten := stays_sequences.writeAll
      (fun entry : ℕ => write_stays .uint16 (entry : Number)) words
      headed hcontained
    cases hresult : writeAll (fun entry : ℕ => write .uint16 (entry : Number)) words headed with
    | error error listed =>
        rw [leaves_bind_of_error hresult]
        rwa [leaves_of_error hresult] at hwritten
    | ok value listed =>
        rw [leaves_bind_of_ok hresult]
        rw [leaves_of_ok hresult] at hwritten
        have hlisted := size_le_of_writeEntries hresult
        rw [leaves_bind_pure]
        exact linkBody_stays hwritten (by omega)
  rw [endTable_eq]
  apply Leads.look
  intro builder
  cases builder.phase with
  | idle | vector _ | finished => exact .throw _
  | table opened =>
      apply (reserve_stays ⟨2, rfl⟩ 0).step
      intro before _ padded hpadded hcontained
      obtain ⟨hroom, -⟩ := of_reserve hpadded
      have hheaded : Builder.Contained
          { padded with written := padded.written.push (List.replicate 4 0) } :=
        hcontained.push hroom
      rw [leaves_get_bind, leaves_push_bind]
      by_cases hlarge : Layout.maxEntry < padded.written.size + Layout.offsetWidth - opened.start
      · rw [if_pos hlarge]
        exact hheaded
      · rw [if_neg hlarge]
        exact hlinked padded.written _ _ hheaded (Nat.add_comm padded.written.size 4).le

/-! ## Vectors and strings -/

section

variable {alignment : Number}

theorem openVector_stays (count : Number) {byteLength : Number}
    (hpower : ∃ exponent : ℕ, alignment = (2 ^ exponent : ℕ))
    (hbyteLength : byteLength = .nan ∨ byteLength.AtLeast 0) :
    Leads Builder.Stays (openVector count byteLength alignment) :=
  (prepare_stays ⟨2, rfl⟩ hbyteLength).bind fun _ =>
    (prepare_stays hpower hbyteLength).bind fun _ =>
      .change fun _ hcontained => hcontained.congr (le_refl _) rfl rfl

theorem startVector_stays {elementSize : Number} (count : Number)
    (helement : Number.atMost 0 elementSize = true)
    (hpower : ∃ exponent : ℕ, alignment = (2 ^ exponent : ℕ)) :
    Leads Builder.Stays (startVector elementSize count alignment) := by
  apply stays_sequences.begins
  cases hcount : count.toNat? with
  | none => exact .throw _
  | some number =>
      rw [if_neg (by simp)]
      have hproduct := Number.mul_nan_or_atLeast (Number.atLeast_of_atMost helement) hcount
      exact openVector_stays count hpower hproduct

end

theorem endVector_stays : Leads Builder.Stays endVector :=
  stays_sequences.endVector write_stays
    (.change fun _ hcontained => hcontained.congr (le_refl _) rfl rfl)

theorem vectorOf_stays {width : ℕ} (hwidth : IsWidth width) (count : ℕ) {elements : Build Unit}
    (helements : Leads Builder.Stays elements) :
    Leads Builder.Stays (vectorOf width count elements) := by
  obtain ⟨exponent, -, rfl⟩ := hwidth
  have hbytes := (Number.atLeast_ofInt (2 ^ exponent * count : ℕ)).mono (Int.natCast_nonneg _)
  have hopen := openVector_stays (count : Number) ⟨exponent, rfl⟩ (.inr hbytes)
  exact stays_sequences.vectorOf hopen helements endVector_stays

theorem scalars_stays (type : Scalar) (values : List type.Value) :
    Leads Builder.Stays (scalars type values) :=
  vectorOf_stays type.isWidth _ (stays_sequences.writeAll (write_stays type) values)

theorem offsets_stays (targets : List Number) : Leads Builder.Stays (offsets targets) :=
  vectorOf_stays isWidth_four _ (stays_sequences.writeAll writeOffset_stays targets)

/-- The bytes of a string are put where the vector was opened for them. -/
theorem stringBytes_stays (bytes : List UInt8) : Leads Builder.Stays (stringBytes bytes) := by
  have hfour : (prepare Layout.offsetWidth (1 * bytes.length : ℕ) : Build Unit)
      = reserve 4 (1 * bytes.length) :=
    prepare_width isWidth_four _
  have hone : (prepare (1 : ℕ) (1 * bytes.length : ℕ) : Build Unit)
      = reserve 1 (1 * bytes.length) :=
    prepare_width ⟨0, by decide, rfl⟩ _
  have hfill : Leads Builder.Stays (do
      openVector bytes.length (1 * bytes.length : ℕ) (1 : ℕ)
      push bytes
      endVector) := by
    unfold openVector
    rw [hfour, hone]
    simp only [bind_assoc]
    apply (reserve_stays ⟨2, rfl⟩ _).bind
    intro _
    apply (reserve_stays ⟨0, rfl⟩ _).step
    intro before _ middle hresult hcontained
    obtain ⟨hroom, -⟩ := of_reserve hresult
    let opened : Builder := { middle with
      phase := .vector ⟨bytes.length, (1 * bytes.length : ℕ), middle.written.size⟩ }
    have hopened : opened.Contained := hcontained.congr (le_refl _) rfl rfl
    have hfilled : Builder.Contained { opened with written := opened.written.push bytes } :=
      hopened.push (by simp only [opened]; omega)
    exact endVector_stays _ hfilled
  apply stays_sequences.begins
  apply (write_stays _ _).bind
  intro _
  exact stays_sequences.begins hfill

/-- Every writer of a part of a model stays within the buffer. -/
theorem stays_composes : Composes (Leads Builder.Stays) :=
  stays_sequences.composes
    (fun _ _ => stays_sequences.table (startTable_stays _) addField_stays endTable_stays)
    scalars_stays offsets_stays stringBytes_stays

/-! ## Finishing -/

/-- An identifier is put where room was made for the whole head. -/
theorem prepare_push_contained (hcontained : before.Contained) {total : ℕ} {bytes : List UInt8}
    (hbytes : bytes.length ≤ total) :
    ((do prepare before.alignment (total : ℕ); push bytes : Build Unit).leaves
      before).Contained := by
  obtain ⟨exponent, hpower⟩ := hcontained.power
  have hprepared := prepare_stays ⟨exponent, hpower⟩
    (.inr ((Number.atLeast_ofInt total).mono (Int.natCast_nonneg total))) before hcontained
  cases hresult : prepare before.alignment (total : ℕ) before with
  | error error middle =>
      rw [leaves_bind_of_error hresult]
      rwa [← leaves_of_error hresult]
  | ok value middle =>
      rw [leaves_bind_of_ok hresult]
      have hmiddle : middle.Contained := by rwa [← leaves_of_ok hresult]
      rw [hpower] at hresult
      have hroom := prepare_room hcontained hresult
      rw [Nat.add_right_comm] at hroom
      have hfits := Nat.le_of_add_right_le hroom
      exact hmiddle.push (by omega)

theorem beginHead_stays (options : FinishOptions) : Leads Builder.Stays (beginHead options) := by
  intro before hcontained
  rcases beginHead_cases options before with ⟨_, -, -, error, herror⟩ | ⟨hvalid, hbegin⟩
  · rwa [leaves_of_error herror]
  · have hwidth := FinishOptions.headWidth_eq hvalid
    rw [leaves_congr hbegin]
    exact prepare_push_contained hcontained (by omega)

theorem finish_stays (root : Number) (options : FinishOptions) :
    Leads Builder.Stays (finish root options) :=
  stays_sequences.finish write_stays writeOffset_stays (beginHead_stays options)
    (.change fun _ hcontained => hcontained.congr (le_refl _) rfl rfl)

theorem clear_stays : Leads Builder.Stays clear :=
  .change fun _ hcontained => ⟨Nat.zero_le _, hcontained.limited, 0, rfl⟩

/-! ## What is written stays -/

/-- An operation that leaves the written bytes in place whenever it succeeds. -/
def Appends (computation : Build α) : Prop :=
  ∀ ⦃before value after⦄, computation before = .ok value after →
    before.written.bytes <:+ after.written.bytes

theorem Extending.appends {computation : Build α} (hextending : Extending computation) :
    Appends computation :=
  fun _ _ _ hresult => (hextending hresult).suffix

theorem Appends.step {β : Type} {first : Build α} {next : α → Build β} (hfirst : Appends first)
    (hnext : ∀ ⦃before value after⦄, first before = .ok value after → Appends (next value)) :
    Appends (first >>= next) := by
  intro before result after hresult
  obtain ⟨value, middle, hmiddle, hlast⟩ := of_bind_ok hresult
  exact (hfirst hmiddle).trans (hnext hmiddle hlast)

/-- Written bytes that each step leaves in place are left in place by all of them. -/
theorem appends_sequences : Sequences @Appends where
  pure := fun value => (Extending.pure value).appends
  throw := fun _ => (Extending.throw _).appends
  step := Appends.step
  look := fun _ hnext before _ _ hresult => hnext before hresult

theorem endTable_appends : Appends endTable := by
  intro before offset after hresult
  obtain ⟨opened, padded, _, listed, -, hpadded, -, hrelinks⟩ := of_endTable hresult
  exact ((extending_operates.reserve _ _).appends hpadded).trans hrelinks.suffix

theorem startTable_appends (fieldCount : Number) : Appends (startTable fieldCount) := by
  intro before _ after hresult
  obtain ⟨count, -, rfl⟩ := (startTable_writes fieldCount).ok hresult
  exact List.suffix_refl _

/-- Every writer of a part of a model leaves the written bytes in place. -/
theorem appends_composes : Composes @Appends :=
  appends_sequences.composes
    (fun _ _ => appends_sequences.table (startTable_appends _)
      (fun slot field => (extending_operates.addField slot field).appends) endTable_appends)
    (fun type values => (extending_operates.scalars type values).appends)
    (fun targets => (extending_operates.offsets targets).appends)
    fun bytes => (extending_operates.stringBytes bytes).appends

end Build

end GraphWire

import GraphWire.Builder.Space
import GraphWire.Proofs.Builder.Outcome
import GraphWire.Proofs.Reader.Placement
import GraphWire.Proofs.Wire.Stored

/-!
# Writing in front

Every step that makes room or writes a value only puts bytes in front of what is there (`Puts`), so
all that was placed stays placed.  When such a step succeeds the written bytes fit the largest
capacity, which is what keeps offsets and distances within their words.
-/

namespace GraphWire

/-- A width is a power of two up to eight. -/
def IsWidth (width : ℕ) : Prop :=
  ∃ exponent ≤ 3, width = 2 ^ exponent

/-- The largest alignment asked for so far is a power of two between two others. -/
def Builder.Modest (builder : Builder) (least most : ℕ) : Prop :=
  ∃ exponent, least ≤ exponent ∧ exponent ≤ most ∧ builder.alignment = (2 ^ exponent : ℕ)

/-- What happened to a builder asked for no alignment past that of the widest scalar. -/
def Builder.KeepsModest (before after : Builder) : Prop :=
  ∀ ⦃least most⦄, 3 ≤ most → before.Modest least most → after.Modest least most

/-- What happened to a builder asked for the alignment of an offset as well. -/
def Builder.RaisesModest (before after : Builder) : Prop :=
  ∀ ⦃most⦄, 3 ≤ most → before.Modest 0 most → after.Modest 2 most

/-- What holds of every builder that is made with checked settings: its capacity is in range, and
the vtables that it remembers are in its buffer. -/
structure Builder.Sound (builder : Builder) : Prop where
  positive : 0 < builder.capacity
  limited : builder.capacity ≤ Layout.maxBufferSize
  shared : ∀ stored ∈ builder.vtables, Placed builder.written.bytes stored.bytes stored.offset

theorem Builder.Sound.inPhase {builder : Builder} (hsound : builder.Sound) (phase : Phase) :
    Builder.Sound { builder with phase } :=
  ⟨hsound.positive, hsound.limited, hsound.shared⟩

theorem BuilderOptions.settings_of_resolve {options : BuilderOptions}
    {settings : BuilderSettings} (hsettings : options.resolve = .ok settings) :
    (1 ≤ settings.initialSize ∧ settings.initialSize ≤ Layout.maxBufferSize) ∧
      settings.forceDefaults = options.forceDefaults.getD false := by
  unfold resolve at hsettings
  dsimp only at hsettings
  split at hsettings
  · split at hsettings
    · next hsize =>
        cases hsettings
        exact ⟨hsize, rfl⟩
    · cases hsettings
  · cases hsettings

/-- A new builder holds nothing that could be out of place. -/
theorem Builder.sound_new {options : BuilderOptions} {settings : BuilderSettings}
    (hsettings : options.resolve = .ok settings) : (Builder.new settings).Sound := by
  obtain ⟨⟨hpositive, hlimited⟩, -⟩ := options.settings_of_resolve hsettings
  exact ⟨hpositive, hlimited, by simp [new]⟩

/-- Nothing has been aligned in a new builder. -/
theorem Builder.modest_new (settings : BuilderSettings) (most : ℕ) :
    (Builder.new settings).Modest 0 most :=
  ⟨0, le_refl _, Nat.zero_le _, rfl⟩

theorem Builder.inPhase_self {builder : Builder} {phase : Phase} (hphase : builder.phase = phase) :
    { builder with phase } = builder := by
  rw [← hphase]

/-- A builder after bytes have been put in front, and nothing else that matters later. -/
structure Builder.Puts (before : Builder) (front : List UInt8) (after : Builder) : Prop where
  written : after.written = before.written.push front
  phase : after.phase = before.phase
  forceDefaults : after.forceDefaults = before.forceDefaults
  vtables : after.vtables = before.vtables
  capacity : before.capacity ≤ after.capacity
  limited : before.capacity ≤ Layout.maxBufferSize → after.capacity ≤ Layout.maxBufferSize

namespace Builder.Puts

variable {before middle after : Builder} {front later : List UInt8}

theorem refl (builder : Builder) : builder.Puts [] builder where
  written := by simp
  phase := rfl
  forceDefaults := rfl
  vtables := rfl
  capacity := le_refl _
  limited := id

theorem trans (hfirst : before.Puts front middle) (hsecond : middle.Puts later after) :
    before.Puts (later ++ front) after where
  written := by rw [hsecond.written, hfirst.written, Region.push_push]
  phase := hsecond.phase.trans hfirst.phase
  forceDefaults := hsecond.forceDefaults.trans hfirst.forceDefaults
  vtables := hsecond.vtables.trans hfirst.vtables
  capacity := hfirst.capacity.trans hsecond.capacity
  limited := fun hlimited => hsecond.limited (hfirst.limited hlimited)

theorem bytes (hputs : before.Puts front after) :
    after.written.bytes = front ++ before.written.bytes := by
  rw [hputs.written, Region.bytes_push]

theorem size (hputs : before.Puts front after) :
    after.written.size = front.length + before.written.size := by
  rw [hputs.written, Region.size_push]

theorem suffix (hputs : before.Puts front after) :
    before.written.bytes <:+ after.written.bytes := by
  rw [hputs.bytes]
  exact List.suffix_append _ _

/-- What is open makes no difference to what has been written. -/
theorem inPhase (hputs : before.Puts front after) (phase : Phase) :
    Builder.Puts { before with phase } front { after with phase } :=
  ⟨hputs.written, rfl, hputs.forceDefaults, hputs.vtables, hputs.capacity,
    hputs.limited⟩

theorem sound (hputs : before.Puts front after) (hsound : before.Sound) : after.Sound where
  positive := Nat.lt_of_lt_of_le hsound.positive hputs.capacity
  limited := hputs.limited hsound.limited
  shared := by
    intro stored hstored
    rw [hputs.vtables] at hstored
    exact (hsound.shared stored hstored).mono hputs.suffix

/-- What has just been put in front is at the offset that the buffer has now. -/
theorem placed {chunk rest : List UInt8} (hputs : before.Puts (chunk ++ rest) after) :
    Placed after.written.bytes chunk after.written.size := by
  have hfront := Placed.front chunk (rest ++ before.written.bytes)
  rw [← List.append_assoc, ← hputs.bytes] at hfront
  have hsize : after.written.size = chunk.length + (rest ++ before.written.bytes).length := by
    rw [hputs.size, before.written.size_eq]
    simp only [List.length_append]
    omega
  rwa [hsize]

end Builder.Puts

/-- A builder after a whole object has been added, and where it is. -/
structure Builder.Adds (before : Builder) (offset : ℕ) (after : Builder) : Prop where
  suffix : before.written.bytes <:+ after.written.bytes
  idle : after.phase = .idle
  forceDefaults : after.forceDefaults = before.forceDefaults
  sound : after.Sound
  modest : before.RaisesModest after
  positive : 0 < offset
  within : offset ≤ after.written.size

/-! ## Padding -/

/-- A size that is a multiple of its alignment needs no padding. -/
theorem padding_eq_zero {exponent size : ℕ} (hsmall : exponent ≤ 32)
    (haligned : 2 ^ exponent ∣ size) : padding (2 ^ exponent) size = 0 := by
  have hsum := dvd_add_padding hsmall size
  have hless := padding_lt exponent size
  have hdivides : 2 ^ exponent ∣ padding (2 ^ exponent) size := (Nat.dvd_add_right haligned).mp hsum
  exact Nat.eq_zero_of_dvd_of_lt hdivides hless

/-- Less is rounded up to less, also where it is rounded to a smaller power of two. -/
theorem add_padding_mono {exponent exponent' size size' : ℕ} (hle : exponent ≤ exponent')
    (hsmall : exponent' ≤ 32) (hsize : size ≤ size') :
    size + padding (2 ^ exponent) size ≤ size' + padding (2 ^ exponent') size' := by
  have hwhole := dvd_add_padding (hle.trans hsmall) size
  have hwhole' := (Nat.pow_dvd_pow 2 hle).trans (dvd_add_padding hsmall size')
  by_contra hmore
  have hbetween := Nat.dvd_sub hwhole hwhole'
  have hbelow := padding_lt exponent size
  have hleast := Nat.le_of_dvd (by omega) hbetween
  omega

/-- What is rounded up reaches the least multiple of the alignment. -/
theorem add_padding_le {exponent size aligned : ℕ} (hsmall : exponent ≤ 32) (hle : size ≤ aligned)
    (haligned : 2 ^ exponent ∣ aligned) : size + padding (2 ^ exponent) size ≤ aligned := by
  have hmono := add_padding_mono (le_refl exponent) hsmall hle
  rwa [padding_eq_zero hsmall haligned, Nat.add_zero] at hmono

/-- Padding for another alignment keeps a size that is a multiple of one. -/
theorem dvd_add_padding_of_dvd {exponent exponent' size : ℕ} (hsmall : exponent' ≤ 32)
    (haligned : 2 ^ exponent ∣ size) :
    2 ^ exponent ∣ size + padding (2 ^ exponent') size := by
  rcases Nat.le_total exponent exponent' with hle | hle
  · exact (Nat.pow_dvd_pow 2 hle).trans (dvd_add_padding hsmall size)
  · have hnone := padding_eq_zero hsmall ((Nat.pow_dvd_pow 2 hle).trans haligned)
    rwa [hnone, Nat.add_zero]

/-- What is padded for one alignment and then for another ends at a multiple of both. -/
theorem dvd_of_paddings {exponent exponent' size middle last length : ℕ} (hsmall : exponent ≤ 32)
    (hsmall' : exponent' ≤ 32) (hmiddle : middle = padding (2 ^ exponent) (size + length) + size)
    (hlast : last = padding (2 ^ exponent') (middle + length) + middle) :
    2 ^ exponent ∣ last + length ∧ 2 ^ exponent' ∣ last + length := by
  have hfirst := dvd_add_padding hsmall (size + length)
  have hsum : size + length + padding (2 ^ exponent) (size + length) = middle + length := by omega
  have hsum' : middle + length + padding (2 ^ exponent') (middle + length) = last + length := by
    omega
  rw [hsum] at hfirst
  rw [← hsum']
  exact ⟨dvd_add_padding_of_dvd hsmall' hfirst, dvd_add_padding hsmall' _⟩

namespace Build

variable {before : Builder}

/-- Growing either reaches what is required or stops at the limit. -/
theorem pad_writes (hsound : before.Sound) (zeros required : ℕ) :
    Writes (pad zeros required) before (before.written.size + zeros ≤ required) True required
      fun _ after =>
        before.Puts (List.replicate zeros 0) after ∧ required ≤ Layout.maxBufferSize ∧
          after.alignment = before.alignment := by
  have hgrown := le_grownCapacity before.capacity required
  have hlimited := grownCapacity_le before.capacity required hsound.limited
  have hreached := required_le_grownCapacity before.capacity required hsound.positive
  unfold pad ensureCapacity
  simp only [bind_assoc]
  apply Writes.modify_bind
  apply Writes.get_bind
  by_cases hshort : (before.growTo required).capacity < required
  · rw [if_pos hshort]
    apply Writes.throw
    intro _
    simp only [Builder.growTo] at hshort
    simp only [Refuses]
    omega
  · rw [if_neg hshort]
    simp only [Builder.growTo] at hshort
    refine ⟨trivial, ?_, ⟨rfl, rfl, rfl, rfl, hgrown, fun _ => hlimited⟩, by omega, rfl⟩
    intro hroom
    change (List.replicate zeros (0 : UInt8)).length + before.written.size ≤ required
    rw [List.length_replicate]
    omega

/-- A reservation pads up to the alignment, and when it succeeds the buffer holds what is to
come. -/
theorem reserve_writes (hsound : before.Sound) (alignment additional : ℕ) :
    let zeros := padding alignment (before.written.size + additional)
    let room := before.written.size + zeros + alignment + additional
    Writes (reserve alignment additional) before (before.phase ≠ .finished) True room
      fun _ after =>
        before.Puts (List.replicate zeros 0) after ∧ room ≤ Layout.maxBufferSize ∧
          after.alignment = max before.alignment alignment := by
  intro zeros room
  unfold reserve requireWritable
  simp only [bind_assoc]
  apply Writes.get_bind
  by_cases hfinished : before.phase = .finished
  · rw [if_pos hfinished]
    apply Writes.throw
    intro hwritable
    exact absurd hfinished hwritable
  · rw [if_neg hfinished]
    simp only [noteAlignment, pure_bind]
    apply Writes.modify_bind
    apply Writes.get_bind
    have hnoted : Builder.Sound { before with alignment := max before.alignment alignment } :=
      ⟨hsound.positive, hsound.limited, hsound.shared⟩
    apply (pad_writes hnoted zeros room).mono _ Iff.rfl (le_refl _)
    · rintro _ after ⟨hputs, hroom, halignment⟩
      exact ⟨⟨hputs.written, hputs.phase, hputs.forceDefaults, hputs.vtables,
        hputs.capacity, hputs.limited⟩, hroom, halignment⟩
    · intro _
      change before.written.size + zeros ≤ room
      omega

/-- A reservation by words puts zero bytes in front and has asked for no more room than there is. -/
theorem reserveWords_writes (hsound : before.Sound) (alignment additional : Number) (bound : ℕ) :
    let padding := wordPadding alignment (before.written.size + additional)
    Writes (reserveWords alignment additional) before False True bound
      fun _ after => (∃ zeros, before.Puts (List.replicate zeros 0) after) ∧
        capacityFor before.written.size (Number.ofInt padding + alignment + additional)
          ≤ Layout.maxBufferSize ∧
        after.alignment = max before.alignment alignment := by
  intro padding
  unfold reserveWords requireWritable
  simp only [bind_assoc]
  apply Writes.get_bind
  by_cases hfinished : before.phase = .finished
  · rw [if_pos hfinished]
    exact Writes.throw False.elim
  · rw [if_neg hfinished]
    simp only [noteAlignment, pure_bind]
    apply Writes.modify_bind
    apply Writes.get_bind
    have hnoted : Builder.Sound { before with alignment := max before.alignment alignment } :=
      ⟨hsound.positive, hsound.limited, hsound.shared⟩
    apply (pad_writes hnoted _ _).any
    rintro _ after ⟨hputs, hroom, halignment⟩
    exact ⟨⟨_, hputs.written, hputs.phase, hputs.forceDefaults, hputs.vtables, hputs.capacity,
      hputs.limited⟩, hroom, halignment⟩

/-- Whatever the arguments are, making room only puts zero bytes in front. -/
theorem prepare_writes (hsound : before.Sound) (alignment additional : Number) (bound : ℕ) :
    Writes (prepare alignment additional) before False True bound
      fun _ after => ∃ zeros, before.Puts (List.replicate zeros 0) after := by
  have hwords := (reserveWords_writes hsound alignment additional bound).imp
    fun _ _ hpost => hpost.1
  unfold prepare
  split
  · split
    · apply (reserve_writes hsound _ _).any
      rintro _ after ⟨hputs, -, -⟩
      exact ⟨_, hputs⟩
    · exact hwords
  · exact hwords

end Build

/-! ## Words -/

/-- A builder after a word has been written at its own alignment. -/
structure Builder.PutsWord (before : Builder) (width word : ℕ) (after : Builder) : Prop where
  puts : before.Puts
    (LittleEndian.split width word ++ List.replicate (padding width before.written.size) 0) after
  limited : after.written.size ≤ Layout.maxBufferSize
  aligned : width ∣ after.written.size
  alignment : after.alignment = max before.alignment width

namespace Builder.PutsWord

variable {before after : Builder} {width word : ℕ}

theorem size (hword : before.PutsWord width word after) :
    after.written.size = width + padding width before.written.size + before.written.size := by
  rw [hword.puts.size, List.length_append, LittleEndian.length_split, List.length_replicate]

theorem placed (hword : before.PutsWord width word after) :
    Placed after.written.bytes (LittleEndian.split width word) after.written.size :=
  hword.puts.placed

end Builder.PutsWord

theorem isWidth_two : IsWidth 2 := ⟨1, by decide, rfl⟩

theorem isWidth_four : IsWidth 4 := ⟨2, by decide, rfl⟩

theorem Scalar.isWidth (type : Scalar) : IsWidth type.width := by
  cases type with
  | integer type =>
      cases type <;> first
        | exact ⟨0, by decide, rfl⟩
        | exact isWidth_two
        | exact isWidth_four
  | flag => exact ⟨0, by decide, rfl⟩
  | long signed => exact ⟨3, by decide, rfl⟩
  | float format => cases format <;> first | exact isWidth_four | exact ⟨3, by decide, rfl⟩

theorem IsWidth.padding_lt {width : ℕ} (hwidth : IsWidth width) (size : ℕ) :
    padding width size < width := by
  obtain ⟨exponent, -, rfl⟩ := hwidth
  exact GraphWire.padding_lt exponent size

theorem IsWidth.dvd_add_padding {width : ℕ} (hwidth : IsWidth width) (size : ℕ) :
    width ∣ size + padding width size := by
  obtain ⟨exponent, hsmall, rfl⟩ := hwidth
  exact GraphWire.dvd_add_padding (by omega) size

theorem IsWidth.padding_eq_zero {width size : ℕ} (hwidth : IsWidth width)
    (haligned : width ∣ size) : padding width size = 0 := by
  obtain ⟨exponent, hsmall, rfl⟩ := hwidth
  exact GraphWire.padding_eq_zero (by omega) haligned

theorem IsWidth.pos {width : ℕ} (hwidth : IsWidth width) : 0 < width := by
  obtain ⟨exponent, -, rfl⟩ := hwidth
  exact Nat.two_pow_pos exponent

theorem IsWidth.le_eight {width : ℕ} (hwidth : IsWidth width) : width ≤ 8 := by
  obtain ⟨exponent, hsmall, rfl⟩ := hwidth
  exact Nat.pow_le_pow_right (by decide) hsmall

theorem max_two_pow (first second : ℕ) : max (2 ^ first) (2 ^ second) = 2 ^ max first second := by
  rcases Nat.le_total first second with hle | hle
  · rw [Nat.max_eq_right hle, Nat.max_eq_right (Nat.pow_le_pow_right (by decide) hle)]
  · rw [Nat.max_eq_left hle, Nat.max_eq_left (Nat.pow_le_pow_right (by decide) hle)]

section

variable {before after : Builder}

/-- Noting a power of two leaves the largest alignment one. -/
theorem Builder.Modest.note {least most exponent : ℕ} (hmodest : before.Modest least most)
    (hexponent : exponent ≤ most)
    (halignment : after.alignment = max before.alignment (2 ^ exponent : ℕ)) :
    after.Modest (max least exponent) most := by
  obtain ⟨largest, hleast, hmost, hlargest⟩ := hmodest
  refine ⟨max largest exponent, by omega, by omega, ?_⟩
  rw [halignment, hlargest, Number.max_natCast, max_two_pow]

theorem Builder.Modest.mono {least least' most : ℕ} (hmodest : before.Modest least most)
    (hleast : least' ≤ least) : before.Modest least' most := by
  obtain ⟨exponent, hexponent, hrest⟩ := hmodest
  exact ⟨exponent, hleast.trans hexponent, hrest⟩

theorem Builder.Modest.widen {least most most' : ℕ} (hmodest : before.Modest least most)
    (hmost : most ≤ most') : before.Modest least most' := by
  obtain ⟨exponent, hexponent, hsmall, halignment⟩ := hmodest
  exact ⟨exponent, hexponent, hsmall.trans hmost, halignment⟩

theorem Builder.Modest.keep {least most exponent : ℕ} (hmodest : before.Modest least most)
    (hexponent : exponent ≤ most)
    (halignment : after.alignment = max before.alignment (2 ^ exponent : ℕ)) :
    after.Modest least most :=
  (hmodest.note hexponent halignment).mono (Nat.le_max_left _ _)

theorem Builder.KeepsModest.of_width {width : ℕ} (hwidth : IsWidth width)
    (halignment : after.alignment = max before.alignment (width : Number)) :
    before.KeepsModest after := by
  obtain ⟨exponent, hexponent, rfl⟩ := hwidth
  intro least most hmost hmodest
  exact hmodest.keep (by omega) halignment

theorem Builder.RaisesModest.of_offset
    (halignment : after.alignment = max before.alignment ((4 : ℕ) : Number)) :
    before.RaisesModest after := by
  intro most hmost hmodest
  have hnoted := hmodest.note (show 2 ≤ most by omega) halignment
  exact hnoted.mono (Nat.le_max_right 0 2)

theorem Builder.KeepsModest.trans {middle : Builder} (hfirst : before.KeepsModest middle)
    (hsecond : middle.KeepsModest after) : before.KeepsModest after := by
  intro least most hmost hmodest
  exact hsecond hmost (hfirst hmost hmodest)

theorem Builder.RaisesModest.trans_keeps {middle : Builder} (hfirst : before.RaisesModest middle)
    (hsecond : middle.KeepsModest after) : before.RaisesModest after := by
  intro most hmost hmodest
  exact hsecond hmost (hfirst hmost hmodest)

theorem Builder.KeepsModest.trans_raises {middle : Builder} (hfirst : before.KeepsModest middle)
    (hsecond : middle.RaisesModest after) : before.RaisesModest after := by
  intro most hmost hmodest
  exact hsecond hmost (hfirst hmost hmodest)

theorem Builder.PutsWord.modest {width word : ℕ} (hword : before.PutsWord width word after)
    (hwidth : IsWidth width) : before.KeepsModest after :=
  .of_width hwidth hword.alignment

end

namespace Build

variable {before : Builder}

/-- Room for later bytes is made so that the end of the bytes will be aligned. -/
theorem reserve_width (hsound : before.Sound) {width : ℕ} (hwidth : IsWidth width)
    (additional : ℕ) :
    Writes (reserve width additional) before (before.phase ≠ .finished) True
      (before.written.size + 2 * width + additional)
      fun _ after => ∃ zeros < width, before.Puts (List.replicate zeros 0) after ∧
        after.written.size + width + additional ≤ Layout.maxBufferSize ∧
        width ∣ after.written.size + additional ∧
        after.alignment = max before.alignment (width : Number) := by
  have hzeros := hwidth.padding_lt (before.written.size + additional)
  have hdivides := hwidth.dvd_add_padding (before.written.size + additional)
  apply ((reserve_writes hsound width additional).of_bound (by omega)).imp
  rintro _ after ⟨hputs, hroom, halignment⟩
  have hsize := hputs.size
  rw [List.length_replicate] at hsize
  have hsum : after.written.size + additional
      = before.written.size + additional + padding width (before.written.size + additional) := by
    omega
  exact ⟨_, hzeros, hputs, by omega, by rwa [hsum], halignment⟩

/-- A caller's widths are reserved as they are. -/
theorem prepare_width {σ : Type} [Store σ] {width : ℕ} (hwidth : IsWidth width) (additional : ℕ) :
    prepare (σ := σ) width additional = reserve width additional :=
  prepare_natCast hwidth.pos (hwidth.le_eight.trans (by decide)) additional

theorem writeWord_writes (hsound : before.Sound) {width : ℕ} (hwidth : IsWidth width)
    (word : ℕ) :
    Writes (writeWord width word) before (before.phase ≠ .finished) True
      (before.written.size + padding width before.written.size + width)
      fun _ after => before.PutsWord width word after := by
  unfold writeWord
  apply (reserve_writes hsound width 0).bind_true (by simp)
  rintro _ middle ⟨hputs, hroom, halignment⟩ hsize
  simp only [Nat.add_zero] at hputs hroom
  have hpushed : middle.Puts (LittleEndian.split width word)
      { middle with written := middle.written.push (LittleEndian.split width word) } :=
    ⟨rfl, rfl, rfl, rfl, le_refl _, id⟩
  have hword := hputs.trans hpushed
  have hlength := hword.size
  simp only [List.length_append, LittleEndian.length_split, List.length_replicate] at hlength
  apply Writes.change
  · refine ⟨hword, ?_, ?_, halignment⟩
    · simp only [Region.store_push, hlength]
      omega
    · have hdivides := hwidth.dvd_add_padding before.written.size
      rw [Region.store_push, hlength, Nat.add_assoc, Nat.add_comm (padding _ _)]
      exact Nat.dvd_add (Nat.dvd_refl width) hdivides
  · intro _
    simp only [Region.store_push, hlength]
    omega

/-- A scalar is written as its word, unless its type cannot hold it. -/
theorem write_writes (hsound : before.Sound) (type : Scalar) (value : type.Value) :
    Writes (write type value) before (before.phase ≠ .finished) (type.Fits value)
      (before.written.size + padding type.width before.written.size + type.width)
      fun _ after => ∃ word, type.word value = .ok word ∧
        before.PutsWord type.width word after := by
  unfold write
  cases hword : type.word value with
  | ok word =>
      have hfits : type.Fits value := Scalar.fits_iff.mpr ⟨word, hword⟩
      apply (writeWord_writes hsound type.isWidth word).mono id (iff_of_true trivial hfits)
        (le_refl _)
      intro _ after hputs
      exact ⟨word, rfl, hputs⟩
  | error refused =>
      apply Writes.throw
      intro _
      exact Scalar.not_fits_of_error hword

/-- A target that a reference can be written to: an offset in a buffer of some size. -/
def Reaches (size : ℕ) (target : Number) : Prop :=
  ∃ offset, target.toNat? = some offset ∧ 0 < offset ∧ offset ≤ size

theorem Reaches.mono {size size' : ℕ} {target : Number} (hreaches : Reaches size target)
    (hsize : size ≤ size') : Reaches size' target := by
  obtain ⟨offset, htarget, hpositive, hbelow⟩ := hreaches
  exact ⟨offset, htarget, hpositive, hbelow.trans hsize⟩

/-- A reference is written as the distance from itself to its target. -/
theorem writeOffset_writes (hsound : before.Sound) (target : Number) :
    Writes (writeOffset target) before
      (before.phase ≠ .finished ∧ Reaches before.written.size target) True
      (before.written.size + padding 4 before.written.size + 4)
      fun _ after => ∃ offset, target.toNat? = some offset ∧ 0 < offset ∧
        offset < after.written.size ∧
        before.PutsWord 4 (after.written.size - offset) after := by
  unfold writeOffset
  apply ((reserve_writes hsound 4 0).mono And.left Iff.rfl (le_refl _) fun _ _ => id).bind_true
    (by simp)
  rintro _ middle ⟨hputs, hroom, halignment⟩ hsize
  simp only [Nat.add_zero] at hputs hroom
  apply Writes.get_bind
  rw [Builder.offset_eq]
  dsimp only
  have hmiddle := hputs.size
  rw [List.length_replicate] at hmiddle
  cases hfound : target.toNat?.filter fun target => 0 < target ∧ target ≤ middle.written.size with
  | none =>
      apply Writes.throw
      rintro ⟨-, offset, htarget, hpositive, hbelow⟩
      rw [htarget, Option.filter_some] at hfound
      simp only [hpositive, true_and, decide_eq_true_eq, ite_eq_right_iff, reduceCtorEq,
        imp_false] at hfound
      omega
  | some offset =>
      obtain ⟨htarget, hrange⟩ := Option.filter_eq_some_iff.mp hfound
      rw [decide_eq_true_eq] at hrange
      have haligned : 4 ∣ middle.written.size := by
        rw [hmiddle, Nat.add_comm]
        exact isWidth_four.dvd_add_padding _
      have hnone := isWidth_four.padding_eq_zero haligned
      have hsmall : middle.written.size - offset + 4 < 256 ^ 4 := by
        have hlimit := Layout.maxBufferSize_lt
        omega
      apply (write_writes (hputs.sound hsound) .uint32 _).mono _
        (iff_of_true ((Scalar.fits_natCast rfl).mpr hsmall) trivial) _
      · rintro _ after ⟨word, hword, hlast⟩
        obtain rfl := Scalar.eq_of_word rfl (Number.toNat?_natCast _) hword
        have hwidth : Scalar.uint32.width = 4 := rfl
        rw [hwidth] at hlast
        have hafter := hlast.size
        rw [hnone] at hafter
        have hdistance : after.written.size - offset = middle.written.size - offset + 4 := by omega
        refine ⟨offset, htarget, hrange.1, by omega, ?_, hlast.limited, hlast.aligned, ?_⟩
        · have hall := hputs.trans hlast.puts
          rw [hnone, List.replicate_zero, List.append_nil] at hall
          rwa [hdistance]
        · rw [hlast.alignment, halignment, Number.max_max_natCast]
      · rintro ⟨hwritable, -⟩
        rwa [hputs.phase]
      · change middle.written.size + padding 4 middle.written.size + 4 ≤ _
        omega

end Build

end GraphWire

import GraphWire.Builder.Finish
import GraphWire.Proofs.Builder.Vector

/-!
# The head of a buffer

Finishing puts the head in front of everything.  The padding for it comes first, so the parts of the
head lie next to each other and are found from the front.
-/

namespace GraphWire

/-- The bytes of the head. -/
def FinishOptions.headWidth (options : FinishOptions) : ℕ :=
  Layout.offsetWidth + (if options.identifier.isSome then Layout.identifierLength else 0)
    + Window.rootOffsetPosition options.sizePrefix

/-- The bytes of the identifier, if there is one. -/
def FinishOptions.identifierBytes (options : FinishOptions) : List UInt8 :=
  (options.identifier.map Identifier.toBytes).getD []

theorem FinishOptions.identifierBytes_none {options : FinishOptions}
    (hnone : options.identifier = none) : options.identifierBytes = [] := by
  simp [identifierBytes, hnone]

theorem FinishOptions.identifierBytes_some {options : FinishOptions} {identifier : String}
    (hsome : options.identifier = some identifier) :
    options.identifierBytes = Identifier.toBytes identifier := by
  simp [identifierBytes, hsome]

/-- The size of the buffer when the head is in front, at a multiple of the largest alignment. -/
def Builder.finishedSize (builder : Builder) (options : FinishOptions) : ℕ :=
  let size := builder.written.size + options.headWidth
  size + padding (builder.alignment.toNat?.getD 0) size

/-- The bytes that finishing makes room for. -/
def Builder.finishRoom (builder : Builder) (options : FinishOptions) : ℕ :=
  builder.finishedSize options + builder.alignment.toNat?.getD 0

/-- A builder that has sealed its buffer: its root offset is at the front or behind the size prefix,
and the identifier follows. -/
structure Builder.Finishes (before : Builder) (root : ℕ) (options : FinishOptions)
    (after : Builder) : Prop where
  finished : after.phase = .finished
  puts : ∃ front, before.Puts front { after with phase := before.phase }
  modest : ∀ ⦃least⦄, before.Modest least 31 → after.Modest least 31
  limited : after.written.size ≤ Layout.maxBufferSize
  exact : before.Modest 2 31 → after.written.size = before.finishedSize options ∧
    before.finishRoom options ≤ Layout.maxBufferSize
  root : (Content.reference root).PlacedAt after.written.bytes
    (after.written.size - Window.rootOffsetPosition options.sizePrefix)
  sizePrefix : options.sizePrefix = true →
    Placed after.written.bytes (LittleEndian.split 4 (after.written.size - 4)) after.written.size
  identifier : ∀ identifier ∈ options.identifier, Identifier.valid identifier = true ∧
    ∀ most ≤ 31, before.Modest 2 most → Placed after.written.bytes (Identifier.toBytes identifier)
      (after.written.size - Window.rootOffsetPosition options.sizePrefix - Layout.offsetWidth)

/-- A builder that has written the root offset of its head, in front of the identifier. -/
structure Builder.Roots (before : Builder) (root : ℕ) (options : FinishOptions)
    (after : Builder) : Prop where
  puts : ∃ front, before.Puts front after
  modest : ∀ ⦃least⦄, before.Modest least 31 → after.Modest least 31
  aligned : 4 ∣ after.written.size
  limited : after.written.size ≤ Layout.maxBufferSize
  exact : before.Modest 2 31 → after.written.size + Window.rootOffsetPosition options.sizePrefix
    = before.finishedSize options ∧ before.finishRoom options ≤ Layout.maxBufferSize
  root : (Content.reference root).PlacedAt after.written.bytes after.written.size
  identifier : ∀ identifier ∈ options.identifier, Identifier.valid identifier = true ∧
    ∀ most ≤ 31, before.Modest 2 most → Placed after.written.bytes (Identifier.toBytes identifier)
      (after.written.size - Layout.offsetWidth)

namespace Builder.Roots

variable {before rooted last : Builder} {root : ℕ} {options : FinishOptions}

/-- A buffer without a size prefix is sealed behind its root offset. -/
theorem finishes (hroots : before.Roots root options rooted) (hsized : options.sizePrefix = false)
    (log : List Event) : before.Finishes root options { rooted with phase := .finished, log } := by
  obtain ⟨front, hputs⟩ := hroots.puts
  refine ⟨rfl, ⟨front, hputs.written, rfl, hputs.forceDefaults, hputs.vtables, hputs.capacity,
    hputs.limited⟩, hroots.modest, hroots.limited, ?_, ?_, by simp [hsized], ?_⟩
  · intro hbetween
    have hexact := hroots.exact hbetween
    rwa [hsized] at hexact
  · rw [hsized]
    exact hroots.root
  · intro identifier hidentifier
    rw [hsized]
    exact hroots.identifier identifier hidentifier

/-- A buffer with a size prefix is sealed behind that. -/
theorem finishes_sized (hroots : before.Roots root options rooted)
    (hsized : options.sizePrefix = true) (hword : rooted.PutsWord 4 rooted.written.size last)
    (log : List Event) : before.Finishes root options { last with phase := .finished, log } := by
  obtain ⟨front, hputs⟩ := hroots.puts
  have hboth := hputs.trans hword.puts
  have hsize := hword.size
  rw [isWidth_four.padding_eq_zero hroots.aligned] at hsize
  have hbehind : last.written.size - 4 = rooted.written.size := by omega
  refine ⟨rfl, ⟨_, hboth.written, rfl, hboth.forceDefaults, hboth.vtables, hboth.capacity,
    hboth.limited⟩, fun least hbetween => hword.modest isWidth_four (by decide)
      (hroots.modest hbetween), hword.limited, ?_, ?_, ?_, ?_⟩
  · intro hbetween
    obtain ⟨hexact, hroom⟩ := hroots.exact hbetween
    rw [hsized] at hexact
    change rooted.written.size + 4 = _ at hexact
    exact ⟨by simp only; omega, hroom⟩
  · rw [hsized]
    change (Content.reference root).PlacedAt last.written.bytes (last.written.size - 4)
    rw [hbehind]
    exact hroots.root.mono hword.puts.suffix
  · intro _
    change Placed last.written.bytes (LittleEndian.split 4 (last.written.size - 4))
      last.written.size
    rw [hbehind]
    exact hword.placed
  · intro identifier hidentifier
    obtain ⟨hvalid, hplaced⟩ := hroots.identifier identifier hidentifier
    rw [hsized]
    refine ⟨hvalid, fun most hmost hbetween => ?_⟩
    change Placed last.written.bytes _ (last.written.size - 4 - Layout.offsetWidth)
    rw [hbehind]
    exact (hplaced most hmost hbetween).mono hword.puts.suffix

end Builder.Roots

theorem Identifier.length_toBytes {text : String} (hvalid : Identifier.valid text = true) :
    (Identifier.toBytes text).length = 4 := by
  simp only [valid, Bool.and_eq_true, beq_iff_eq, Layout.identifierLength] at hvalid
  rw [toBytes, List.length_map, String.length_toList]
  exact hvalid.1

/-- Beside the identifier there is room for the root offset and the size prefix. -/
theorem FinishOptions.headWidth_eq {options : FinishOptions}
    (hvalid : ∀ identifier ∈ options.identifier, Identifier.valid identifier = true) :
    options.identifierBytes.length + Layout.offsetWidth
      + Window.rootOffsetPosition options.sizePrefix = options.headWidth := by
  cases hidentifier : options.identifier with
  | none => simp [identifierBytes_none hidentifier, headWidth, hidentifier]
  | some identifier =>
      have hlength := Identifier.length_toBytes (hvalid identifier hidentifier)
      simp [identifierBytes_some hidentifier, headWidth, hidentifier, hlength,
        Layout.identifierLength, Nat.add_comm 4]

namespace Build

variable {before : Builder}

/-- What is no identifier is refused before anything happens.  Else room is made for the whole head,
and the identifier is its last part. -/
theorem beginHead_cases (options : FinishOptions) (before : Builder) :
    (∃ identifier ∈ options.identifier, Identifier.valid identifier ≠ true ∧
      ∃ error, beginHead options before = .error error before) ∨
    (∀ identifier ∈ options.identifier, Identifier.valid identifier = true) ∧
      beginHead options before = (do
        prepare before.alignment (options.headWidth : ℕ)
        push options.identifierBytes : Build Unit) before := by
  simp only [beginHead, get_bind_apply]
  cases hidentifier : options.identifier with
  | none =>
      have hwidth : Layout.offsetWidth + Window.rootOffsetPosition options.sizePrefix
          = options.headWidth := by simp [FinishOptions.headWidth, hidentifier]
      change _ ∨ _ ∧ prepare before.alignment (Layout.offsetWidth
        + Window.rootOffsetPosition options.sizePrefix : ℕ) before = _
      rw [hwidth]
      refine .inr ⟨nofun, ?_⟩
      cases hprepare : prepare before.alignment (options.headWidth : ℕ) before with
      | error error after => rw [bind_of_error hprepare]
      | ok value after =>
          rw [bind_of_ok hprepare, FinishOptions.identifierBytes_none hidentifier]
          change EStateM.Result.ok () after
            = .ok () { after with written := after.written.push [] }
          rw [Region.push_nil]
  | some identifier =>
      have hwidth : Layout.offsetWidth + Layout.identifierLength
          + Window.rootOffsetPosition options.sizePrefix = options.headWidth := by
        simp [FinishOptions.headWidth, hidentifier]
      rw [FinishOptions.identifierBytes_some hidentifier, ← hwidth]
      dsimp only
      by_cases hvalid : Identifier.valid identifier = true
      · simp only [Identifier.check, if_pos hvalid]
        exact .inr ⟨by simpa using hvalid, rfl⟩
      · simp only [Identifier.check, if_neg hvalid]
        exact .inl ⟨identifier, rfl, hvalid, _, rfl⟩

/-- Room for the head is made at the largest alignment, so the head ends where a word may start. -/
theorem prepareHead_writes (hsound : before.Sound) (total : ℕ) :
    let alignment := before.alignment.toNat?.getD 0
    let zeros := padding alignment (before.written.size + total)
    let room := before.written.size + total + zeros + alignment
    Writes (prepare before.alignment (total : ℕ)) before
      (before.phase ≠ .finished ∧ before.Modest 0 31) True room
      fun _ after => (∃ zeros', before.Puts (List.replicate zeros' 0) after ∧
          (before.Modest 0 31 → zeros' = zeros ∧ room ≤ Layout.maxBufferSize)) ∧
        ∀ ⦃least⦄, before.Modest least 31 → after.Modest least 31 := by
  intro alignment zeros room
  by_cases hmodest : before.Modest 0 31
  · obtain ⟨exponent, -, hexponent, halignment⟩ := hmodest
    have hsmall : 2 ^ exponent ≤ maxAlignment := Nat.pow_le_pow_right (by decide) hexponent
    have hnumber : alignment = 2 ^ exponent := by
      simp only [alignment, halignment, Number.toNat?_natCast, Option.getD_some]
    have hroom : before.written.size + zeros + 2 ^ exponent + total = room := by
      simp only [room, hnumber]
      omega
    rw [halignment, prepare_natCast (Nat.two_pow_pos exponent) hsmall]
    have hreserve := reserve_writes hsound (2 ^ exponent) total
    rw [← hnumber] at hreserve hroom ⊢
    apply ((hreserve.of_legal And.left).of_bound hroom.le).imp
    rintro _ after ⟨hputs, hlimited, halignment'⟩
    rw [hnumber] at halignment'
    exact ⟨⟨zeros, hputs, fun _ => ⟨rfl, hroom ▸ hlimited⟩⟩,
      fun least hbetween => hbetween.keep hexponent halignment'⟩
  · apply ((prepare_writes hsound before.alignment total _).of_legal
      fun hlegal => hmodest hlegal.2).imp
    rintro _ after ⟨zeros', hputs⟩
    exact ⟨⟨zeros', hputs, fun hbetween => absurd hbetween hmodest⟩,
      fun least hbetween => absurd (hbetween.mono (Nat.zero_le least)) hmodest⟩

/-- A size that is padded for the largest alignment is a multiple of it. -/
theorem dvd_finishedSize {least : ℕ} (hmodest : before.Modest least 31) (options : FinishOptions) :
    2 ^ least ∣ before.finishedSize options := by
  obtain ⟨exponent, hleast, hexponent, halignment⟩ := hmodest
  unfold Builder.finishedSize
  rw [halignment, Number.toNat?_natCast, Option.getD_some]
  exact (Nat.pow_dvd_pow 2 hleast).trans (dvd_add_padding (by omega) _)

/-- The identifier is put behind the place of the root offset. -/
theorem beginHead_writes (hsound : before.Sound) (options : FinishOptions) :
    Writes (beginHead options) before
      (before.phase ≠ .finished ∧ before.Modest 0 31 ∧
        ∀ identifier ∈ options.identifier, Identifier.valid identifier = true)
      True (before.finishRoom options)
      fun _ after => (∀ identifier ∈ options.identifier, Identifier.valid identifier = true) ∧
        (∃ zeros, before.Puts (options.identifierBytes ++ List.replicate zeros 0) after) ∧
        (∀ ⦃least⦄, before.Modest least 31 → after.Modest least 31) ∧
        (before.Modest 0 31 → after.written.size + Layout.offsetWidth
          + Window.rootOffsetPosition options.sizePrefix = before.finishedSize options ∧
          before.finishRoom options ≤ Layout.maxBufferSize) := by
  have hprepare := prepareHead_writes hsound options.headWidth
  rcases beginHead_cases options before with
    ⟨identifier, hidentifier, hinvalid, error, herror⟩ | ⟨hvalid, hbegin⟩
  · simp only [Writes, herror]
    rintro ⟨-, -, hall⟩
    exact absurd (hall identifier hidentifier) hinvalid
  apply Writes.congr _ hbegin
  apply (hprepare.of_legal fun hlegal => ⟨hlegal.1, hlegal.2.1⟩).bind_true (le_refl _)
  rintro _ padded ⟨⟨zeros, hputs, hexact⟩, hkept⟩ -
  have hpushed : padded.Puts options.identifierBytes
      { padded with written := padded.written.push options.identifierBytes } :=
    ⟨rfl, rfl, rfl, rfl, le_refl _, id⟩
  have hsize (hbetween : before.Modest 0 31) :
      (padded.written.push options.identifierBytes).size + Layout.offsetWidth
        + Window.rootOffsetPosition options.sizePrefix = before.finishedSize options := by
    obtain ⟨rfl, -⟩ := hexact hbetween
    have hpadded := hputs.size
    have hwidth := FinishOptions.headWidth_eq hvalid
    rw [List.length_replicate] at hpadded
    rw [Region.size_push]
    simp only [Builder.finishedSize]
    omega
  apply Writes.change
  · exact ⟨hvalid, ⟨zeros, hputs.trans hpushed⟩, hkept,
      fun hbetween => ⟨hsize hbetween, (hexact hbetween).2⟩⟩
  · rintro ⟨-, hbetween, -⟩
    have hall := hsize hbetween
    change (padded.written.push options.identifierBytes).size
      ≤ before.finishedSize options + before.alignment.toNat?.getD 0
    omega

/-- The root offset is put in front of the identifier. -/
theorem writeRoot_writes (hsound : before.Sound) (root : Number) (options : FinishOptions) :
    Writes (do beginHead options; writeOffset root) before
      (before.phase ≠ .finished ∧ before.Modest 2 31 ∧ Reaches before.written.size root ∧
        ∀ identifier ∈ options.identifier, Identifier.valid identifier = true)
      True (before.finishRoom options)
      fun _ after => ∃ offset, root.toNat? = some offset ∧ before.Roots offset options after := by
  apply ((beginHead_writes hsound options).of_legal fun hlegal =>
    ⟨hlegal.1, hlegal.2.1.mono (Nat.zero_le 2), hlegal.2.2.2⟩).bind_true (le_refl _)
  rintro _ headed ⟨hvalid, ⟨zeros, hputs⟩, hkept, hexact⟩ -
  have hheaded := hputs.size
  -- The whole head is a multiple of four, and so is what stands in front of the identifier.
  have hnone (hbetween : before.Modest 2 31) : padding 4 headed.written.size = 0 := by
    have hwhole := dvd_finishedSize hbetween options
    rw [← (hexact (hbetween.mono (Nat.zero_le 2))).1] at hwhole
    apply isWidth_four.padding_eq_zero
    simp only [Layout.offsetWidth, Window.rootOffsetPosition, Layout.sizePrefixWidth] at hwhole
    split at hwhole <;> omega
  apply (((writeOffset_content (hputs.sound hsound) root).of_legal _).of_legal_bound _).imp
  · rintro _ rooted ⟨offset, htarget, hcontent⟩
    have hrooted := hcontent.size
    simp only [Content.width] at hrooted
    obtain ⟨front, hputs'⟩ := hcontent.puts
    refine ⟨offset, htarget, ⟨_, hputs.trans hputs'⟩,
      fun least hbetween => hcontent.modest (by decide) (hkept hbetween), hcontent.aligned,
      hcontent.limited, fun hbetween => ?_, hcontent.placed, ?_⟩
    · obtain ⟨hall, hroom⟩ := hexact (hbetween.mono (Nat.zero_le 2))
      have hzero := hnone hbetween
      simp only [Layout.offsetWidth] at hall
      exact ⟨by omega, hroom⟩
    · intro identifier hidentifier
      refine ⟨hvalid identifier hidentifier, fun most hmost hbetween => ?_⟩
      have hzero := hnone (hbetween.widen hmost)
      have hbehind : rooted.written.size - Layout.offsetWidth = headed.written.size := by
        simp only [Layout.offsetWidth]
        omega
      rw [FinishOptions.identifierBytes_some hidentifier] at hputs
      rw [hbehind]
      exact hputs.placed.mono hputs'.suffix
  · rintro ⟨hwritable, -, hreaches, -⟩
    rw [hputs.phase]
    exact ⟨hwritable, hreaches.mono (by omega)⟩
  · rintro ⟨-, hbetween, -⟩
    obtain ⟨hall, -⟩ := hexact (hbetween.mono (Nat.zero_le 2))
    have hzero := hnone hbetween
    simp only [Builder.finishRoom, Layout.offsetWidth] at hall ⊢
    omega

/-- The size of everything so far is put in front of it. -/
theorem writeSize_writes (hsound : before.Sound) (haligned : 4 ∣ before.written.size)
    (hlimited : before.written.size ≤ Layout.maxBufferSize) :
    Writes writeSize before (before.phase ≠ .finished) True (before.written.size + 4)
      fun _ after => before.PutsWord 4 before.written.size after := by
  have hsmall : before.written.size < 256 ^ 4 := hlimited.trans_lt Layout.maxBufferSize_lt
  have hnone := isWidth_four.padding_eq_zero haligned
  unfold writeSize
  apply Writes.get_bind
  apply ((write_writes hsound .uint32 (before.written.size : Number)).of_bound _).mono id
    (iff_of_true ((Scalar.fits_natCast rfl).mpr hsmall) trivial) (le_refl _)
  · rintro _ after ⟨word, hword, hlast⟩
    obtain rfl := Scalar.eq_of_word rfl (Number.toNat?_natCast _) hword
    exact hlast
  · change before.written.size + padding 4 before.written.size + 4 ≤ _
    omega

/-- Finishing refers to the root and seals the buffer, if there is room for the head at the largest
alignment. -/
theorem finish_room_writes (hsound : before.Sound) (root : Number) (options : FinishOptions) :
    Writes (finish root options) before
      (before.phase = .idle ∧ before.Modest 2 31 ∧ Reaches before.written.size root ∧
        ∀ identifier ∈ options.identifier, Identifier.valid identifier = true)
      True (before.finishRoom options)
      fun _ after => ∃ offset, root.toNat? = some offset ∧ before.phase = .idle ∧
        before.Finishes offset options after := by
  unfold finish
  apply begin_writes
  intro hidle
  have hwritable : before.phase ≠ .finished := by simp [hidle]
  rw [← bind_assoc]
  apply ((writeRoot_writes hsound root options).of_legal fun hlegal =>
    ⟨hwritable, hlegal⟩).bind_true (le_refl _)
  rintro _ rooted ⟨offset, htarget, hroots⟩ hbound
  obtain ⟨front, hputs⟩ := hroots.puts
  cases hsized : options.sizePrefix with
  | false =>
      rw [if_neg Bool.false_ne_true]
      apply Writes.change
      · exact ⟨offset, htarget, hidle, hroots.finishes hsized _⟩
      · exact hbound
  | true =>
      rw [if_pos rfl]
      apply (((writeSize_writes (hputs.sound hsound) hroots.aligned hroots.limited).of_legal
        _).of_legal_bound _).bind_true (le_refl _)
      · rintro _ last hword hlast
        exact Writes.change ⟨offset, htarget, hidle, hroots.finishes_sized hsized hword _⟩ hlast
      · rw [hputs.phase]
        exact fun _ => hwritable
      · rintro ⟨hbetween, -⟩
        obtain ⟨hexact, -⟩ := hroots.exact hbetween
        rw [hsized] at hexact
        change rooted.written.size + 4 = _ at hexact
        simp only [Builder.finishRoom]
        omega

/-- With alignments of scalars only, finishing takes few bytes. -/
theorem finish_writes (hsound : before.Sound) (root : Number) (options : FinishOptions) :
    Writes (finish root options) before
      (before.phase = .idle ∧ before.Modest 2 3 ∧ Reaches before.written.size root ∧
        ∀ identifier ∈ options.identifier, Identifier.valid identifier = true)
      True (before.written.size + 48)
      fun _ after => ∃ offset, root.toNat? = some offset ∧ before.phase = .idle ∧
        before.Finishes offset options after := by
  apply ((finish_room_writes hsound root options).of_legal fun hlegal =>
    ⟨hlegal.1, hlegal.2.1.widen (by decide), hlegal.2.2⟩).of_legal_bound
  rintro ⟨-, ⟨exponent, -, hexponent, halignment⟩, -⟩
  have hhead : options.headWidth ≤ 12 := by
    simp only [FinishOptions.headWidth, Window.rootOffsetPosition]
    split <;> split <;> decide
  have height : 2 ^ exponent ≤ 2 ^ 3 := Nat.pow_le_pow_right (by decide) hexponent
  have hzeros := padding_lt exponent (before.written.size + options.headWidth)
  simp only [Builder.finishRoom, Builder.finishedSize, halignment, Number.toNat?_natCast,
    Option.getD_some]
  omega

end Build

/-! ## Reading the head -/

/-- The characters of an identifier are found again in its bytes. -/
theorem Identifier.ofBytes_toBytes {text : String} (hvalid : valid text = true) :
    ofBytes (toBytes text) = text := by
  simp only [valid, Bool.and_eq_true, List.all_eq_true, decide_eq_true_eq] at hvalid
  have hsame : (text.toList.map fun character => UInt8.ofNat character.toNat).map
      (fun byte => Char.ofNat byte.toNat) = text.toList := by
    rw [List.map_map]
    refine (List.map_congr_left ?_).trans (List.map_id _)
    intro character hcharacter
    have hascii := hvalid.2 character hcharacter
    have hsmall : character.toNat < 256 :=
      (UInt32.lt_iff_toNat_lt.mp hascii).trans (show 128 < 256 by decide)
    simp [Nat.mod_eq_of_lt hsmall]
  rw [ofBytes, toBytes, hsame, String.ofList_toList]

/-- The head of a buffer as a reader finds it: the size of the rest, the root offset and the
identifier, each right behind the one before. -/
structure Window.HasHead (window : Window) (options : FinishOptions) (root : ℕ) : Prop where
  sizePrefix : options.sizePrefix = true →
    window.read .uint32 0 = .ok ((window.length - 4 : ℕ) : Number)
  rootOffset : window.read .uint32 (rootOffsetPosition options.sizePrefix : ℕ)
    = .ok ((window.length - rootOffsetPosition options.sizePrefix - root : ℕ) : Number)
  rootTable : window.rootTable options.sizePrefix = .ok (window.length - root)
  identifier : ∀ identifier ∈ options.identifier,
    window.slice (rootOffsetPosition options.sizePrefix + Layout.offsetWidth)
      Layout.identifierLength = Identifier.toBytes identifier ∧
    window.identifier? options.sizePrefix = some identifier

/-- A word is an unsigned integer of its width. -/
theorem Scalar.ofWord_uint32 (word : ℕ) : ofWord .uint32 word = (word : Number) := by
  simp only [ofWord, TwosComplement.ofWord, IntegerType.signed, Bool.false_eq_true, false_and,
    if_false]
  rfl

theorem Window.read_uint32_placed {window : Window} {word offset : ℕ}
    (hplaced : Placed window.toList (LittleEndian.split 4 word) offset) (hword : word < 256 ^ 4) :
    window.read .uint32 (window.length - offset : ℕ) = .ok (word : Number) := by
  have hread := read_placed (show Placed _ (LittleEndian.split Scalar.uint32.width word) _
    from hplaced) hword
  rwa [Scalar.ofWord_uint32] at hread

namespace Builder.Finishes

variable {before after : Builder} {root : ℕ} {options : FinishOptions} {window : Window}

theorem suffix (hfinishes : before.Finishes root options after) :
    before.written.bytes <:+ after.written.bytes := by
  obtain ⟨front, hputs⟩ := hfinishes.puts
  exact hputs.suffix

theorem length_eq (hwindow : window.toList = after.written.bytes) :
    window.length = after.written.size := by
  rw [after.written.size_eq, ← hwindow, Window.length_toList]

theorem rootOffsetPosition_le (hfinishes : before.Finishes root options after) :
    Window.rootOffsetPosition options.sizePrefix ≤ after.written.size := by
  unfold Window.rootOffsetPosition
  split
  · next hsized =>
      have hlength := (hfinishes.sizePrefix hsized).length_le
      rwa [LittleEndian.length_split] at hlength
  · exact Nat.zero_le _

/-- The size prefix is at the front and counts everything behind it. -/
theorem read_sizePrefix (hfinishes : before.Finishes root options after)
    (hsized : options.sizePrefix = true) (hwindow : window.toList = after.written.bytes) :
    window.read .uint32 0 = .ok ((window.length - 4 : ℕ) : Number) := by
  have hlength := length_eq hwindow
  have hplaced := hfinishes.sizePrefix hsized
  rw [← hwindow, ← hlength] at hplaced
  have hlimit := hfinishes.limited
  have hmaximum := Layout.maxBufferSize_lt
  have hread := Window.read_uint32_placed hplaced (by omega)
  rwa [Nat.sub_self] at hread

/-- The root offset is at the front or behind the size prefix. -/
theorem read_rootOffset (hfinishes : before.Finishes root options after)
    (hwindow : window.toList = after.written.bytes) :
    window.read .uint32 (Window.rootOffsetPosition options.sizePrefix : ℕ)
      = .ok ((window.length - Window.rootOffsetPosition options.sizePrefix - root : ℕ) : Number)
        := by
  have hlength := length_eq hwindow
  have hposition := hfinishes.rootOffsetPosition_le
  obtain ⟨-, -, hlimit, hplaced⟩ := hfinishes.root
  rw [← hwindow, ← hlength] at hplaced
  have hmaximum := Layout.maxBufferSize_lt
  have hread := Window.read_uint32_placed hplaced (by omega)
  have hplace : window.length - (window.length - Window.rootOffsetPosition options.sizePrefix)
      = Window.rootOffsetPosition options.sizePrefix := by omega
  rwa [hplace] at hread

/-- The declared size is that of everything behind it. -/
theorem frame_eq (hfinishes : before.Finishes root options after)
    (hsized : options.sizePrefix = true) (hwindow : window.toList = after.written.bytes) :
    ∃ framed, window.frame = .ok framed ∧ framed.toList = window.toList := by
  have hlength := length_eq hwindow
  have hplaced := hfinishes.sizePrefix hsized
  have hwidth := hplaced.length_le
  rw [LittleEndian.length_split] at hwidth
  rw [← hwindow] at hplaced
  have hlimit := hfinishes.limited
  have hmaximum := Layout.maxBufferSize_lt
  have hzero : window.length - after.written.size = 0 := by omega
  have hload : window.load 0 Layout.sizePrefixWidth = .ok (after.written.size - 4) := by
    have hword : after.written.size - 4 < 256 ^ 4 := by omega
    rw [← hzero]
    exact Window.load_placed hplaced hword
  have hclaim : window.claim 0 Layout.sizePrefixWidth = .ok 0 :=
    Window.claim_natCast (show 0 + 4 ≤ window.length by omega)
  have hinside : ¬window.length - Layout.sizePrefixWidth < after.written.size - 4 := by
    simp only [Layout.sizePrefixWidth]
    omega
  refine ⟨window.take (Layout.sizePrefixWidth + (after.written.size - 4)), ?_, ?_⟩
  · unfold Window.frame
    simp only [hclaim, hload, bind, Except.bind, if_neg hinside]
    rfl
  · rw [Window.toList_take]
    apply List.take_of_length_le
    rw [Window.length_toList]
    simp only [Layout.sizePrefixWidth]
    omega

/-- The root is found where it was written. -/
theorem rootTable_eq (hfinishes : before.Finishes root options after)
    (hwindow : window.toList = after.written.bytes) :
    window.rootTable options.sizePrefix = .ok (window.length - root) := by
  have hlength := length_eq hwindow
  have hposition := hfinishes.rootOffsetPosition_le
  have hplaced := hfinishes.root
  rw [← hwindow] at hplaced
  have hread := hplaced.readAt
  have hplace : window.length
      - (after.written.size - Window.rootOffsetPosition options.sizePrefix)
      = Window.rootOffsetPosition options.sizePrefix := by omega
  rw [hplace] at hread
  exact hread

/-- The identifier is right behind the root offset. -/
theorem slice_identifier (hfinishes : before.Finishes root options after) {most : ℕ}
    (hmost : most ≤ 31) (hmodest : before.Modest 2 most) {identifier : String}
    (hsome : identifier ∈ options.identifier) (hwindow : window.toList = after.written.bytes) :
    window.slice (Window.rootOffsetPosition options.sizePrefix + Layout.offsetWidth)
      Layout.identifierLength = Identifier.toBytes identifier ∧
    Window.rootOffsetPosition options.sizePrefix + Layout.offsetWidth + Layout.identifierLength
      ≤ window.length := by
  have hlength := length_eq hwindow
  obtain ⟨hvalid, hall⟩ := hfinishes.identifier identifier hsome
  have hplaced := hall most hmost hmodest
  have hwidth := hplaced.length_le
  rw [Identifier.length_toBytes hvalid] at hwidth
  rw [← hwindow] at hplaced
  have hslice := Window.slice_placed hplaced
  rw [Identifier.length_toBytes hvalid] at hslice
  have hplace : window.length - (after.written.size
      - Window.rootOffsetPosition options.sizePrefix - Layout.offsetWidth)
      = Window.rootOffsetPosition options.sizePrefix + Layout.offsetWidth := by omega
  rw [hplace] at hslice
  simp only [Layout.identifierLength]
  exact ⟨hslice, by omega⟩

/-- The identifier is found behind the root offset. -/
theorem identifier_eq (hfinishes : before.Finishes root options after) {most : ℕ}
    (hmost : most ≤ 31) (hmodest : before.Modest 2 most) {identifier : String}
    (hsome : identifier ∈ options.identifier) (hwindow : window.toList = after.written.bytes) :
    window.identifier? options.sizePrefix = some identifier := by
  obtain ⟨hvalid, -⟩ := hfinishes.identifier identifier hsome
  obtain ⟨hslice, hinside⟩ := hfinishes.slice_identifier hmost hmodest hsome hwindow
  unfold Window.identifier?
  rw [if_pos hinside, hslice, Identifier.ofBytes_toBytes hvalid]

/-- The parts of the head lie next to each other at the front. -/
theorem hasHead (hfinishes : before.Finishes root options after) (hmodest : before.Modest 2 31)
    (hwindow : window.toList = after.written.bytes) : window.HasHead options root where
  sizePrefix := fun hsized => hfinishes.read_sizePrefix hsized hwindow
  rootOffset := hfinishes.read_rootOffset hwindow
  rootTable := hfinishes.rootTable_eq hwindow
  identifier := fun _ hsome => ⟨(hfinishes.slice_identifier (le_refl 31) hmodest hsome hwindow).1,
    hfinishes.identifier_eq (le_refl 31) hmodest hsome hwindow⟩

end Builder.Finishes

end GraphWire

import GraphWire.Builder.Vector
import GraphWire.Proofs.Builder.Content

/-!
# Vectors in a buffer

Opening a vector pads for all of it, so its elements follow each other without padding and its count
lies right in front of the first of them.  `VectorAt` says where all this is in the finished bytes.
-/

namespace GraphWire

/-- Contents of one width lie one after another from an offset on. -/
def ContentsAt (bytes : List UInt8) (offset width : ℕ) (contents : List Content) : Prop :=
  ∀ (index : ℕ) (content : Content), contents[index]? = some content →
    content.width = width ∧ content.PlacedAt bytes (offset - width * index)

namespace ContentsAt

variable {bytes : List UInt8} {offset width : ℕ} {contents : List Content}

theorem nil : ContentsAt bytes offset width [] := by
  intro index content hcontent
  simp at hcontent

theorem cons {content : Content} (hwidth : content.width = width)
    (hplaced : content.PlacedAt bytes offset)
    (hrest : ContentsAt bytes (offset - width) width contents) :
    ContentsAt bytes offset width (content :: contents) := by
  intro index later hlater
  cases index with
  | zero =>
      obtain rfl : content = later := by simpa using hlater
      exact ⟨hwidth, by simpa using hplaced⟩
  | succ index =>
      have hnext := hrest index later (by simpa using hlater)
      rwa [Nat.mul_succ, Nat.add_comm, Nat.sub_add_eq]

theorem mono {more : List UInt8} (hcontents : ContentsAt bytes offset width contents)
    (hsuffix : bytes <:+ more) : ContentsAt more offset width contents := by
  intro index content hcontent
  obtain ⟨hwidth, hplaced⟩ := hcontents index content hcontent
  exact ⟨hwidth, hplaced.mono hsuffix⟩

end ContentsAt

/-- A vector at an offset: its count and behind it the elements. -/
structure VectorAt (bytes : List UInt8) (offset width : ℕ) (contents : List Content) : Prop where
  count : Placed bytes (LittleEndian.split 4 contents.length) offset
  small : contents.length < 256 ^ 4
  room : 4 + width * contents.length ≤ offset
  elements : ContentsAt bytes (offset - 4) width contents

/-- A string at an offset: its byte count, its bytes and a zero byte. -/
structure StringAt (bytes : List UInt8) (offset : ℕ) (text : List UInt8) : Prop where
  placed : Placed bytes (LittleEndian.split 4 text.length ++ (text ++ [0])) offset
  small : text.length < 256 ^ 4

/-- A reference to a count leads to it when there is room for the counted elements. -/
theorem Window.vectorLength_placed {window : Window} {position : Number} {offset count : ℕ}
    (stride : ℕ) (hcount : Placed window.toList (LittleEndian.split 4 count) offset)
    (hsmall : count < 256 ^ 4) (hroom : 4 + count * stride ≤ offset)
    (hposition : window.indirect position = .ok (window.length - offset)) :
    window.vectorLength position stride = .ok count := by
  have hlength := hcount.le_length
  rw [length_toList] at hlength
  have hinside : ¬window.length - (window.length - offset + 4) < count * stride := by omega
  simp only [vectorLength, hposition, bind, Except.bind,
    claim_natCast (show window.length - offset + 4 ≤ window.length by omega),
    load_placed hcount hsmall, exceeds, Number.toNat?_natCast, hinside, decide_false]
  rfl

namespace VectorAt

variable {bytes : List UInt8} {offset width : ℕ} {contents : List Content}

theorem mono {more : List UInt8} (hvector : VectorAt bytes offset width contents)
    (hsuffix : bytes <:+ more) : VectorAt more offset width contents :=
  ⟨hvector.count.mono hsuffix, hvector.small, hvector.room, hvector.elements.mono hsuffix⟩

variable {window : Window} {position : Number}

/-- A reference to a vector leads to its count. -/
theorem vectorLength (hvector : VectorAt window.toList offset width contents)
    (hposition : window.indirect position = .ok (window.length - offset)) :
    window.vectorLength position width = .ok contents.length := by
  apply Window.vectorLength_placed width hvector.count hvector.small _ hposition
  rw [Nat.mul_comm]
  exact hvector.room

/-- The elements begin behind the count. -/
theorem vector (hposition : window.indirect position = .ok (window.length - offset)) :
    window.vector position = .ok (window.length - offset + 4) :=
  window.vector_eq hposition

/-- Each element is read at its place. -/
theorem readAt (hvector : VectorAt window.toList offset width contents) {index : ℕ}
    {content : Content} (hcontent : contents[index]? = some content) :
    content.ReadAt window (window.length - offset + 4 + width * index : ℕ) := by
  have hplaced := (hvector.elements index content hcontent).2
  have hlength := hvector.count.le_length
  rw [Window.length_toList] at hlength
  have hroom := hvector.room
  have hindex : index < contents.length := (List.getElem?_eq_some_iff.mp hcontent).1
  have hbelow : width * index ≤ width * contents.length := Nat.mul_le_mul_left _ (by omega)
  have hplace : window.length - offset + 4 + width * index
      = window.length - (offset - 4 - width * index) := by omega
  rw [hplace]
  exact hplaced.readAt

end VectorAt

namespace StringAt

variable {bytes text : List UInt8} {offset : ℕ}

theorem mono {more : List UInt8} (hstring : StringAt bytes offset text) (hsuffix : bytes <:+ more) :
    StringAt more offset text :=
  ⟨hstring.placed.mono hsuffix, hstring.small⟩

variable {window : Window} {position : Number}

/-- A reference to a string leads to its bytes. -/
theorem stringBytes (hstring : StringAt window.toList offset text)
    (hposition : window.indirect position = .ok (window.length - offset)) :
    window.stringBytes position = .ok text := by
  have hlength := hstring.placed.le_length
  have hwhole := hstring.placed.length_le
  rw [Window.length_toList] at hlength
  simp only [List.length_append, LittleEndian.length_split, List.length_singleton] at hwhole
  have hchars := hstring.placed.right.left
  rw [LittleEndian.length_split] at hchars
  have hslice := Window.slice_placed hchars
  have hplace : window.length - (offset - 4) = window.length - offset + 4 := by omega
  have hcover : window.length - offset + 4 + text.length ≤ window.length := by omega
  rw [hplace] at hslice
  have hcount : window.vectorLength position 1 = .ok text.length :=
    Window.vectorLength_placed 1 hstring.placed.left hstring.small (by omega) hposition
  simp only [Window.stringBytes, hcount, window.vector_eq hposition, bind, Except.bind,
    Window.bytesAt, Window.cover, hcover, if_true, hslice]
  rfl

/-- A zero byte follows the bytes of a string. -/
theorem terminated (hstring : StringAt window.toList offset text) :
    window.readWord 1 (window.length - offset + 4 + text.length : ℕ) = .ok 0 := by
  have hlength := hstring.placed.le_length
  have hwhole := hstring.placed.length_le
  rw [Window.length_toList] at hlength
  simp only [List.length_append, LittleEndian.length_split, List.length_singleton] at hwhole
  have hzero : Placed window.toList (LittleEndian.split 1 0) (offset - 4 - text.length) := by
    have hlast := hstring.placed.right.right
    rwa [LittleEndian.length_split] at hlast
  have hplace : window.length - offset + 4 + text.length
      = window.length - (offset - 4 - text.length) := by omega
  rw [hplace]
  exact Window.readWord_placed hzero (by decide)

end StringAt

namespace Build

variable {before : Builder}

/-! ## Elements -/

/-- How items are written whose contents have one width.  Whether an item can be written depends on
the size of the buffer at most, and a larger buffer is as good. -/
structure Element (α : Type) where
  writeOne : α → Build Unit
  content : α → Content
  width : ℕ
  fits : α → Prop
  ready : ℕ → α → Prop
  isWidth : IsWidth width
  width_eq : ∀ item, (content item).width = width
  ready_mono : ∀ {size size' item}, ready size item → size ≤ size' → ready size' item
  writes : ∀ item {before : Builder}, before.Sound →
    Writes (writeOne item) before (before.phase ≠ .finished ∧ ready before.written.size item)
      (fits item) (before.written.size + padding width before.written.size + width)
      fun _ after => before.PutsContent (content item) after

/-- The elements of a vector of scalars. -/
def scalarElement (type : Scalar) : Element type.Value where
  writeOne := write type
  content := .scalar type
  width := type.width
  fits := type.Fits
  ready := fun _ _ => True
  isWidth := type.isWidth
  width_eq := fun _ => rfl
  ready_mono := fun _ _ => trivial
  writes := by
    intro value before hsound
    exact (write_content hsound type value).of_legal And.left

/-- The elements of a vector of references. -/
def offsetElement : Element Number where
  writeOne := writeOffset
  content := fun target => .reference (target.toNat?.getD 0)
  width := 4
  fits := fun _ => True
  ready := Reaches
  isWidth := isWidth_four
  width_eq := fun _ => rfl
  ready_mono := Reaches.mono
  writes := by
    intro target before hsound
    apply (writeOffset_content hsound target).imp
    rintro _ after ⟨offset, htarget, hcontent⟩
    rwa [htarget, Option.getD_some]

/-- Elements are written one in front of the other, with nothing between them. -/
theorem Element.writeAll_writes {α : Type} (element : Element α) (items : List α)
    (hsound : before.Sound) (haligned : element.width ∣ before.written.size) :
    Writes (writeAll element.writeOne items) before
      (before.phase ≠ .finished ∧ ∀ item ∈ items, element.ready before.written.size item)
      (∀ item ∈ items, element.fits item)
      (before.written.size + element.width * items.length)
      fun _ after => (∃ front, before.Puts front after ∧
          front.length = element.width * items.length) ∧
        ContentsAt after.written.bytes after.written.size element.width
          (items.map element.content) ∧
        before.KeepsModest after := by
  induction items with
  | nil =>
      apply (Writes.pure ⟨⟨[], .refl before, rfl⟩, ContentsAt.nil, fun _ _ _ => id⟩ _).of_fits
      · simp
      · simp
  | cons item items ih =>
      have hproduct : element.width * (items.length + 1)
        = element.width * items.length + element.width := Nat.mul_succ _ _
      rw [List.length_cons, hproduct, List.forall_mem_cons, List.forall_mem_cons]
      unfold writeAll
      apply ((ih.of_legal fun hlegal => ⟨hlegal.1, hlegal.2.2⟩).bind (by omega) _).of_fits and_comm
      rintro _ middle ⟨⟨front, hputs, hlength⟩, hcontents, hmodest⟩ hbound
      have hmiddle := hputs.size
      have hmultiple : element.width ∣ middle.written.size := by
        rw [hmiddle, hlength]
        exact Nat.dvd_add (Nat.dvd_mul_right _ _) haligned
      have hnone := element.isWidth.padding_eq_zero hmultiple
      have hone := element.writes item (hputs.sound hsound)
      rw [hnone] at hone
      apply ((hone.of_legal _).of_bound _).imp
      · intro _ after hcontent
        have hwidth := element.width_eq item
        have hafter := hcontent.size
        rw [hwidth, hnone] at hafter
        obtain ⟨front', hputs'⟩ := hcontent.puts
        have hlength' := hputs'.size
        refine ⟨⟨front' ++ front, hputs.trans hputs', ?_⟩, ?_, ?_⟩
        · rw [List.length_append]
          omega
        · apply ContentsAt.cons hwidth hcontent.placed
          have hbehind : after.written.size - element.width = middle.written.size := by omega
          rw [hbehind]
          exact hcontents.mono hputs'.suffix
        · exact hmodest.trans hcontent.modest
      · rintro ⟨hwritable, hready, -⟩
        rw [hputs.phase]
        exact ⟨hwritable, element.ready_mono hready (by omega)⟩
      · omega

/-! ## Opening and closing -/

/-- Nothing begins where something is open, or in a finished buffer. -/
theorem begin_writes {α : Type} {what : Opening} {next : Build α} (legal : Prop) {fits : Prop}
    {bound : ℕ} {post : α → Builder → Prop}
    (hnext : before.phase = .idle → Writes next before legal fits bound post) :
    Writes (do requireWritable; requireIdle what; next) before (before.phase = .idle ∧ legal) fits
      bound post := by
  unfold requireWritable requireIdle
  simp only [bind_assoc]
  apply Writes.get_bind
  cases hphase : before.phase with
  | finished =>
      rw [if_pos rfl]
      apply Writes.throw
      rintro ⟨hidle, -⟩
      cases hidle
  | table opened =>
      rw [if_neg (by simp), pure_bind]
      apply Writes.get_bind
      rw [hphase]
      apply Writes.throw
      rintro ⟨hidle, -⟩
      cases hidle
  | vector opened =>
      rw [if_neg (by simp), pure_bind]
      apply Writes.get_bind
      rw [hphase]
      apply Writes.throw
      rintro ⟨hidle, -⟩
      cases hidle
  | idle =>
      rw [if_neg (by simp), pure_bind]
      apply Writes.get_bind
      rw [hphase]
      simp only [pure_bind]
      exact (hnext hphase).of_legal And.right

/-- What begins an object has found nothing open. -/
theorem idle_of_begin {α : Type} {what : Opening} {next : Build α} {value : α} {after : Builder}
    (hresult : (do requireWritable; requireIdle what; next) before = .ok value after) :
    before.phase = .idle := by
  have hnext (hidle : before.phase = .idle) :
      Writes next before False True 0 fun _ _ => before.phase = .idle := by
    unfold Writes
    cases next before with
    | ok value after => exact ⟨trivial, False.elim, hidle⟩
    | error error after => exact False.elim
  exact (begin_writes False hnext).ok hresult

/-- Where nothing is open, what begins an object goes on with it. -/
theorem begin_eq {α : Type} {what : Opening} {next : Build α} (hidle : before.phase = .idle) :
    (do requireWritable; requireIdle what; next) before = next before := by
  simp only [requireWritable, requireIdle, bind_assoc, get_bind_apply, hidle]
  rw [if_neg (by simp), pure_bind, get_bind_apply, hidle]
  rfl

/-- Opening a vector pads so that its elements and its count will need no padding. -/
theorem openVector_writes (hsound : before.Sound) (count : Number) (byteLength : ℕ) {width : ℕ}
    (hwidth : IsWidth width) :
    Writes (openVector count byteLength width) before (before.phase ≠ .finished) True
      (before.written.size + byteLength + 20)
      fun _ after => ∃ zeros padded, before.Puts (List.replicate zeros 0) padded ∧ zeros ≤ 10 ∧
        after = { padded with phase := .vector ⟨count, byteLength, padded.written.size⟩ } ∧
        byteLength ≤ Layout.maxBufferSize ∧ 4 ∣ padded.written.size + byteLength ∧
        width ∣ padded.written.size + byteLength ∧ before.RaisesModest padded := by
  unfold openVector
  have hoffset : ((Layout.offsetWidth : ℕ) : Number) = ((4 : ℕ) : Number) := rfl
  have height := hwidth.le_eight
  rw [hoffset, prepare_width isWidth_four, prepare_width hwidth]
  apply (reserve_width hsound isWidth_four byteLength).bind_true (by omega)
  rintro _ counted ⟨zeros, hzeros, hputs, hroom, hcount, halignment⟩ -
  have hcounted := hputs.size
  rw [List.length_replicate] at hcounted
  apply ((reserve_width (hputs.sound hsound) hwidth byteLength).of_legal
    (by rw [hputs.phase]; exact id)).bind_true (by omega)
  rintro _ padded ⟨zeros', hzeros', hputs', -, helements, halignment'⟩ -
  have hpadded := hputs'.size
  rw [List.length_replicate] at hpadded
  have hall := hputs.trans hputs'
  rw [List.replicate_append_replicate] at hall
  -- Behind the count's alignment only that of wider elements asks for more bytes, in whole words.
  have hwhole : 4 ∣ padded.written.size + byteLength := by
    obtain ⟨exponent, hexponent, rfl⟩ := hwidth
    obtain rfl | rfl | rfl | rfl : exponent = 0 ∨ exponent = 1 ∨ exponent = 2 ∨ exponent = 3 := by
      omega
    all_goals omega
  apply Writes.change
  · exact ⟨zeros' + zeros, padded, hall, by omega, rfl, by omega, hwhole, helements,
      (Builder.RaisesModest.of_offset halignment).trans_keeps (.of_width hwidth halignment')⟩
  · intro _
    simp only
    omega

/-- Closing a vector puts its count in front, which needs the declared bytes to be there. -/
theorem endVector_writes (hsound : before.Sound) :
    Writes endVector before
      (∃ opened, before.phase = .vector opened ∧
        opened.byteLength.toNat? = some (before.written.size - opened.start) ∧
        Scalar.uint32.Fits opened.count)
      True (before.written.size + padding 4 before.written.size + 4)
      fun offset after => offset = after.written.size ∧ ∃ opened word,
        before.phase = .vector opened ∧
        opened.byteLength.toNat? = some (before.written.size - opened.start) ∧
        Scalar.uint32.word opened.count = .ok word ∧
        Builder.PutsWord { before with phase := .idle } 4 word after := by
  unfold endVector
  apply Writes.get_bind
  cases hphase : before.phase with
  | vector opened =>
      dsimp only
      rw [Builder.offset_eq]
      by_cases hlength : opened.byteLength.toNat? = some (before.written.size - opened.start)
      · rw [if_neg (not_not.mpr hlength)]
        apply Writes.set_bind
        have hcount := write_writes (hsound.inPhase .idle) .uint32 opened.count
        apply ((hcount.of_legal _).of_fitting _).bind_true (le_refl _)
        · rintro _ after ⟨word, hword, hputs⟩ hbound
          apply Writes.get_bind
          exact Writes.pure ⟨rfl, opened, word, rfl, hlength, hword, hputs⟩ hbound
        · exact fun _ => Phase.noConfusion
        · rintro ⟨other, hother, -, hfits⟩
          obtain rfl : opened = other := by simpa using hother
          exact hfits
      · rw [if_pos hlength]
        apply Writes.throw
        rintro ⟨other, hother, hdeclared, -⟩
        obtain rfl : opened = other := by simpa using hother
        exact absurd hdeclared hlength
  | idle | table _ | finished =>
      apply Writes.throw
      rintro ⟨opened, hopened, -⟩
      cases hopened

/-- A vector is written between its count and some zero bytes, which pad behind its elements. -/
theorem vectorOf_writes (hsound : before.Sound) {width : ℕ} (hwidth : IsWidth width) (count : ℕ)
    {elements : Build Unit} {legal fits : Prop} (result : List UInt8 → Builder → Prop)
    (helements : ∀ middle : Builder, middle.Sound → before.written.size ≤ middle.written.size →
      width ∣ middle.written.size →
      Writes elements middle (middle.phase ≠ .finished ∧ legal) fits
        (middle.written.size + width * count)
        fun _ after => ∃ front, middle.Puts front after ∧ front.length = width * count ∧
          result front after ∧ middle.KeepsModest after) :
    Writes (vectorOf width count elements) before (before.phase = .idle ∧ legal) fits
      (before.written.size + width * count + 20)
      fun offset after => before.phase = .idle ∧ ∃ front zeros filled, result front filled ∧
        filled.written.bytes = front ++ (List.replicate zeros 0 ++ before.written.bytes) ∧
        before.Puts (LittleEndian.split 4 count ++ (front ++ List.replicate zeros 0)) after ∧
        offset = after.written.size ∧ front.length = width * count ∧ count < 256 ^ 4 ∧
        before.RaisesModest after := by
  unfold vectorOf
  apply begin_writes
  intro hidle
  have hwritable : before.phase ≠ .finished := by simp [hidle]
  apply ((openVector_writes hsound count (width * count) hwidth).of_legal
    fun _ => hwritable).bind_true (le_refl _)
  rintro _ _ ⟨zeros, padded, hputs, hzeros, rfl, hlimit, hwhole, hdivides, hmodest⟩ -
  have hpadded := hputs.size
  rw [List.length_replicate] at hpadded
  have haligned : width ∣ padded.written.size :=
    (Nat.dvd_add_left (Nat.dvd_mul_right width count)).mp hdivides
  have hopened := (hputs.sound hsound).inPhase
    (.vector ⟨count, (width * count : ℕ), padded.written.size⟩)
  have hfill := helements _ hopened (by simp only; omega) haligned
  apply ((hfill.of_legal fun hlegal => ⟨Phase.noConfusion, hlegal⟩).bind (by simp only; omega)
    _).of_fits (Iff.of_eq (and_true fits))
  rintro _ filled ⟨front, hfront, hlength, hresult, hmodest'⟩ -
  have hfilled : filled.written.size = width * count + padded.written.size := by
    have hsize := hfront.size
    simp only at hsize
    omega
  have hcount : count < 256 ^ 4 := by
    have hproduct : 1 * count ≤ width * count := Nat.mul_le_mul_right count hwidth.pos
    have hmaximum := Layout.maxBufferSize_lt
    omega
  have hnone : padding 4 filled.written.size = 0 := by
    apply isWidth_four.padding_eq_zero
    rwa [hfilled, Nat.add_comm]
  have hdeclared : Number.toNat? ((width * count : ℕ) : Number)
      = some (filled.written.size - padded.written.size) := by
    rw [Number.toNat?_natCast, hfilled, Nat.add_sub_cancel]
  apply (((endVector_writes (hfront.sound hopened)).of_legal fun _ =>
    ⟨_, hfront.phase, hdeclared, (Scalar.fits_natCast rfl).mpr hcount⟩).of_bound (by omega)).imp
  rintro _ after ⟨rfl, opened, word, hphase, -, hword, hlast⟩
  obtain rfl : _ = opened := Phase.vector.inj (hfront.phase.symm.trans hphase)
  obtain rfl := Scalar.eq_of_word rfl (Number.toNat?_natCast count) hword
  have hinside := (((hputs.inPhase _).trans hfront).inPhase .idle).trans hlast.puts
  rw [Builder.inPhase_self hidle] at hinside
  simp only [hnone, List.replicate_zero, List.append_nil] at hinside
  refine ⟨hidle, front, zeros, filled, hresult, ?_, hinside, rfl, hlength, hcount, ?_⟩
  · rw [hfront.bytes, ← hputs.bytes]
  · exact (hmodest.trans_keeps hmodest').trans_keeps (hlast.modest isWidth_four)

/-! ## Whole vectors and strings -/

/-- What is added in front of everything is an object at the offset that the buffer has then. -/
theorem adds_of_puts {front : List UInt8} {after : Builder} (hidle : before.phase = .idle)
    (hsound : before.Sound) (hputs : before.Puts front after) (hsize : 0 < after.written.size)
    (hmodest : before.RaisesModest after) : before.Adds after.written.size after where
  suffix := hputs.suffix
  idle := hputs.phase.trans hidle
  forceDefaults := hputs.forceDefaults
  sound := hputs.sound hsound
  modest := hmodest
  positive := hsize
  within := le_refl _

/-- A vector of elements holds their contents in order. -/
theorem Element.vector_writes {α : Type} (element : Element α) (items : List α)
    (hsound : before.Sound) :
    Writes (vectorOf element.width items.length (writeAll element.writeOne items)) before
      (before.phase = .idle ∧ ∀ item ∈ items, element.ready before.written.size item)
      (∀ item ∈ items, element.fits item)
      (before.written.size + element.width * items.length + 20)
      fun offset after => before.Adds offset after ∧
        VectorAt after.written.bytes offset element.width (items.map element.content) := by
  have helements (middle : Builder) (hmiddle : middle.Sound)
      (hsize : before.written.size ≤ middle.written.size)
      (haligned : element.width ∣ middle.written.size) :
      Writes (writeAll element.writeOne items) middle
        (middle.phase ≠ .finished ∧ ∀ item ∈ items, element.ready before.written.size item)
        (∀ item ∈ items, element.fits item)
        (middle.written.size + element.width * items.length)
        fun _ after => ∃ front, middle.Puts front after ∧
          front.length = element.width * items.length ∧
          ContentsAt after.written.bytes after.written.size element.width
            (items.map element.content) ∧
          middle.KeepsModest after := by
    apply ((element.writeAll_writes items hmiddle haligned).of_legal _).imp
    · rintro _ after ⟨⟨front, hputs, hlength⟩, hcontents, hmodest⟩
      exact ⟨front, hputs, hlength, hcontents, hmodest⟩
    · rintro ⟨hwritable, hready⟩
      exact ⟨hwritable, fun item hitem => element.ready_mono (hready item hitem) hsize⟩
  apply (vectorOf_writes hsound element.isWidth items.length
    (fun _ filled => ContentsAt filled.written.bytes filled.written.size element.width
      (items.map element.content)) helements).imp
  rintro offset after
    ⟨hidle, front, zeros, filled, hcontents, hfilled, hputs, rfl, hlength, hcount, hmodest⟩
  have hafter := hputs.size
  simp only [List.length_append, LittleEndian.length_split, List.length_replicate] at hafter
  have hsize : filled.written.size = after.written.size - 4 := by
    rw [filled.written.size_eq, hfilled, hafter]
    simp only [List.length_append, List.length_replicate, before.written.size_eq]
    omega
  have hsuffix : filled.written.bytes <:+ after.written.bytes := by
    rw [hfilled, hputs.bytes]
    simp only [List.append_assoc]
    exact List.suffix_append _ _
  refine ⟨adds_of_puts hidle hsound hputs (by omega) hmodest, ?_, ?_, ?_, ?_⟩
  · rw [List.length_map]
    exact hputs.placed
  · rwa [List.length_map]
  · rw [List.length_map]
    omega
  · rw [← hsize]
    exact hcontents.mono hsuffix

/-- A string holds its bytes. -/
theorem stringBytes_writes (hsound : before.Sound) (text : List UInt8) :
    Writes (stringBytes text) before (before.phase = .idle) True
      (before.written.size + text.length + 22)
      fun offset after => before.Adds offset after ∧ StringAt after.written.bytes offset text := by
  unfold stringBytes
  apply Writes.of_legal (begin_writes True _) fun hidle => ⟨hidle, trivial⟩
  intro hidle
  have hwritable : before.phase ≠ .finished := by simp [hidle]
  have hfits : Scalar.int8.Fits (0 : Number) := by decide
  have hnone : padding 1 before.written.size = 0 := Nat.lt_one_iff.mp (padding_lt 0 _)
  have hwidth : Scalar.int8.width = 1 := rfl
  have hzero := write_writes hsound .int8 (0 : Number)
  rw [hwidth, hnone] at hzero
  apply ((hzero.of_legal fun _ => hwritable).of_fits (iff_of_true hfits trivial)).bind_true
    (by omega)
  rintro _ ended ⟨word, hword, hend⟩ -
  obtain rfl : 0 = word := by
    have hstored : Scalar.int8.word (0 : Number) = .ok 0 := by decide
    simpa [hstored] using hword
  have hended := hend.size
  have hbytes := hend.puts.bytes
  rw [hnone] at hended hbytes
  have helements (middle : Builder) (_ : middle.Sound)
      (_ : ended.written.size ≤ middle.written.size) (_ : 1 ∣ middle.written.size) :
      Writes (push text) middle (middle.phase ≠ .finished ∧ True) True
        (middle.written.size + 1 * text.length)
        fun _ after => ∃ front, middle.Puts front after ∧ front.length = 1 * text.length ∧
          front = text ∧ middle.KeepsModest after := by
    apply Writes.change
    · exact ⟨text, ⟨rfl, rfl, rfl, rfl, le_refl _, id⟩, by simp, rfl, fun _ _ _ => id⟩
    · intro _
      simp only [Region.store_push, Region.size_push]
      omega
  have hall := vectorOf_writes (hend.puts.sound hsound) ⟨0, by decide, rfl⟩ text.length
    (fun front _ => front = text) helements
  apply ((hall.of_legal fun _ => ⟨by rw [hend.puts.phase, hidle], trivial⟩).of_bound
    (by omega)).imp
  rintro offset after ⟨-, front, zeros, filled, rfl, hfilled, hputs, rfl, -, hcount, hmodest⟩
  have hafter := hputs.size
  -- The padding lies between the bytes and the zero that ends them, and its bytes are zero as well.
  have hzeros : List.replicate zeros 0 ++ LittleEndian.split 1 0
      = [0] ++ List.replicate zeros 0 := by
    change List.replicate zeros 0 ++ [0] = 0 :: List.replicate zeros 0
    rw [← List.replicate_succ', List.replicate_succ]
  have hputs' := hend.puts.trans hputs
  refine ⟨adds_of_puts hidle hsound hputs' (by omega) ?_, ?_, hcount⟩
  · exact (hend.modest ⟨0, by decide, rfl⟩).trans_raises hmodest
  · rw [hnone, List.replicate_zero, List.append_nil, List.append_assoc, List.append_assoc, hzeros,
      ← List.append_assoc, ← List.append_assoc,
      List.append_assoc (LittleEndian.split 4 _)] at hputs'
    exact hputs'.placed

end Build

end GraphWire

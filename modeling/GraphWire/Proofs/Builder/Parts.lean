import GraphWire.Builder.Table
import GraphWire.Proofs.Builder.Content

/-!
# The parts of a buffer

What is written consists of parts with nothing but zero bytes between them (`Laid`): the contents
and texts that operations were given, the words of vtables and the distances to them.  Writing goes
on in front of the parts that are there (`Builder.Lays`), each new one at a multiple of its width.
-/

namespace GraphWire

theorem IsWidth.power {width : ℕ} (hwidth : IsWidth width) : ∃ power : ℕ, width = 2 ^ power := by
  obtain ⟨power, -, hpower⟩ := hwidth
  exact ⟨power, hpower⟩

/-! ## Parts -/

/-- Something that is written in one piece. -/
inductive Part where
  | content (content : Content)
  | text (bytes : List UInt8)
  | distance (vtable : ℕ)

namespace Part

/-- The bytes of a part that begins at an offset. -/
def bytes (offset : ℕ) : Part → List UInt8
  | content (.scalar type value) =>
      ((type.word value).toOption.map (LittleEndian.split type.width)).getD []
  | content (.reference target) => LittleEndian.split 4 (offset - target)
  | text bytes => bytes
  | distance vtable => Build.vtableDistance vtable offset

/-- Parts begin at multiples of their widths. -/
def width : Part → ℕ
  | content held => held.width
  | text _ => 1
  | distance _ => 4

/-- Parts that follow each other, the first of which begins at an offset. -/
def stack : ℕ → List Part → List (ℕ × Part)
  | _, [] => []
  | offset, part :: rest => (offset, part) :: stack (offset - part.width) rest

/-- A word of a vtable. -/
def entry (word : ℕ) : Part :=
  content (.scalar .uint16 (word : Number))

theorem isWidth (part : Part) : IsWidth part.width := by
  cases part with
  | content held => exact held.isWidth
  | text _ => exact ⟨0, by decide, rfl⟩
  | distance _ => exact isWidth_four

theorem bytes_scalar {type : Scalar} {value : type.Value} {word : ℕ}
    (hword : type.word value = .ok word) (offset : ℕ) :
    bytes offset (content (.scalar type value)) = LittleEndian.split type.width word := by
  simp only [bytes, hword, Except.toOption, Option.map_some, Option.getD_some]

/-- A natural number that has been written fits, and is its own word if the type is unsigned. -/
theorem of_length_natCast {type : IntegerType} (hunsigned : type.signed = false)
    {number offset : ℕ}
    (hlength : (bytes offset (content (.scalar (.integer type) (number : Number)))).length
      = (content (.scalar (.integer type) (number : Number))).width) :
    number < 256 ^ type.width ∧ bytes offset (content (.scalar (.integer type)
      (number : Number))) = LittleEndian.split type.width number := by
  cases hword : (Scalar.integer type).word (number : Number) with
  | ok word =>
      obtain rfl := Scalar.eq_of_word hunsigned (Number.toNat?_natCast number) hword
      have hfits := Scalar.fits_iff.mpr ⟨_, hword⟩
      exact ⟨(Scalar.fits_natCast hunsigned).mp hfits, bytes_scalar hword offset⟩
  | error refused =>
      simp only [bytes, hword, Except.toOption, Option.map_none, Option.getD_none,
        List.length_nil] at hlength
      exact absurd hlength.symm (isWidth _).pos.ne'

end Part

/-- Bytes that consist of parts at their offsets, the first ones first, and of zero bytes. -/
def Laid : List (ℕ × Part) → List UInt8 → Prop
  | [], bytes => ∀ byte ∈ bytes, byte = 0
  | (offset, part) :: behind, bytes => ∃ zeros rest,
      bytes = List.replicate zeros 0 ++ (part.bytes offset ++ rest) ∧
        offset = (part.bytes offset).length + rest.length ∧ Laid behind rest

namespace Laid

variable {parts behind : List (ℕ × Part)} {bytes : List UInt8}

/-- Zero bytes may stand in front of everything. -/
theorem pad (hlaid : Laid parts bytes) (zeros : ℕ) :
    Laid parts (List.replicate zeros 0 ++ bytes) := by
  cases parts with
  | nil =>
      intro byte hbyte
      rcases List.mem_append.mp hbyte with hzero | hrest
      · exact List.eq_of_mem_replicate hzero
      · exact hlaid byte hrest
  | cons entry behind =>
      obtain ⟨zeros', rest, rfl, hoffset, hrest⟩ := hlaid
      refine ⟨zeros + zeros', rest, ?_, hoffset, hrest⟩
      rw [← List.replicate_append_replicate, List.append_assoc]

/-- A part may stand in front of everything. -/
theorem cons (hlaid : Laid parts bytes) (part : Part) {offset : ℕ}
    (hoffset : offset = (part.bytes offset).length + bytes.length) :
    Laid ((offset, part) :: parts) (part.bytes offset ++ bytes) :=
  ⟨0, bytes, rfl, hoffset, hlaid⟩

/-- Each part is where its offset says. -/
theorem placed (hlaid : Laid parts bytes) {offset : ℕ} {part : Part}
    (hpart : (offset, part) ∈ parts) : Placed bytes (part.bytes offset) offset := by
  induction parts generalizing bytes with
  | nil => cases hpart
  | cons entry behind ih =>
      obtain ⟨zeros, rest, rfl, hoffset, hrest⟩ := hlaid
      have hsuffix := List.suffix_append (List.replicate zeros (0 : UInt8))
        (entry.2.bytes entry.1 ++ rest)
      rcases List.mem_cons.mp hpart with rfl | hlater
      · have hfront := Placed.front (part.bytes offset) rest
        rw [← hoffset] at hfront
        exact hfront.mono hsuffix
      · exact (ih hrest hlater).mono ((List.suffix_append _ _).trans hsuffix)

/-- The words of a vtable follow each other. -/
theorem words (hlaid : Laid parts bytes) {words : List ℕ}
    (hsmall : ∀ word ∈ words, word ≤ Layout.maxEntry) :
    Laid (Part.stack (2 * words.length + bytes.length) (words.map Part.entry) ++ parts)
      (LittleEndian.splitAll 2 words ++ bytes) := by
  induction words with
  | nil => exact hlaid
  | cons word words ih =>
      rw [List.forall_mem_cons] at hsmall
      have hword : Scalar.uint16.word (word : Number) = .ok word :=
        Scalar.word_natCast rfl (Layout.le_maxEntry_iff.mp hsmall.1)
      have hbytes := Part.bytes_scalar hword
      have hrest := ih hsmall.2
      rw [LittleEndian.splitAll_cons, List.append_assoc]
      have hbehind : 2 * (word :: words).length + bytes.length - (Part.entry word).width
          = 2 * words.length + bytes.length := by
        have hwidth : (Part.entry word).width = 2 := rfl
        rw [List.length_cons, hwidth]
        omega
      rw [List.map_cons, Part.stack, hbehind, List.cons_append]
      have hlength : 2 * (word :: words).length + bytes.length
          = ((Part.entry word).bytes (2 * (word :: words).length + bytes.length)).length
            + (LittleEndian.splitAll 2 words ++ bytes).length := by
        rw [Part.entry, hbytes, LittleEndian.length_split, List.length_append,
          LittleEndian.length_splitAll, List.length_cons]
        have hwidth : Scalar.uint16.width = 2 := rfl
        omega
      have hcons := hrest.cons (Part.entry word) hlength
      rw [Part.entry, hbytes] at hcons
      exact hcons

end Laid

theorem max_dvd {width width' number : ℕ} (hwidth : width ∣ number) (hwidth' : width' ∣ number) :
    max width width' ∣ number := by
  rcases Nat.le_total width width' with hle | hle
  · rwa [Nat.max_eq_right hle]
  · rwa [Nat.max_eq_left hle]

/-! ## Builders -/

/-- A builder after some parts have been written in front, with zero bytes between them.  When the
alignments asked for are powers of two, the largest of them is a multiple of the widths of the
parts. -/
structure Builder.Lays (before : Builder) (placed : List (ℕ × Part)) (after : Builder) : Prop where
  laid : ∀ ⦃behind⦄, Laid behind before.written.bytes → Laid (placed ++ behind) after.written.bytes
  aligned : ∀ entry ∈ placed, entry.2.width ∣ entry.1
  climbs : ∀ ⦃exponent : ℕ⦄, before.alignment = (2 ^ exponent : ℕ) →
    ∃ larger ≥ exponent, after.alignment = (2 ^ larger : ℕ) ∧
      ∀ entry ∈ placed, entry.2.width ∣ 2 ^ larger

/-- A builder after an alignment has been asked for, beside other powers of two. -/
def Builder.Climbs (before : Builder) (width : ℕ) (after : Builder) : Prop :=
  ∀ ⦃exponent : ℕ⦄, before.alignment = (2 ^ exponent : ℕ) →
    ∃ larger ≥ exponent, after.alignment = (2 ^ larger : ℕ) ∧ width ∣ 2 ^ larger

/-- A builder after some parts of a kind, at most, have been written. -/
def Builder.LaysOnly (before : Builder) (kind : Part → Prop) (after : Builder) : Prop :=
  ∃ placed, (∀ entry ∈ placed, kind entry.2) ∧ before.Lays placed after

/-- A builder after some zero bytes have been written and an alignment has been noted. -/
structure Builder.Pads (before : Builder) (zeros : ℕ) (alignment : Number) (after : Builder) :
    Prop where
  written : after.written = before.written.push (List.replicate zeros 0)
  alignment : after.alignment = max before.alignment alignment
  phase : after.phase = before.phase

/-- A builder after a part has been written at a multiple of its width. -/
structure Builder.Places (before : Builder) (part : Part) (after : Builder) : Prop where
  written : after.written = before.written.push (part.bytes after.written.size
    ++ List.replicate (padding part.width before.written.size) 0)
  length : (part.bytes after.written.size).length = part.width
  alignment : after.alignment = max before.alignment (part.width : ℕ)
  phase : after.phase = before.phase

namespace Builder

variable {before middle after : Builder} {first second : List (ℕ × Part)}

namespace Lays

/-- Nothing but zero bytes has been written. -/
theorem zeros (zeros : ℕ) (hwritten : after.written = before.written.push (List.replicate zeros 0))
    (halignment : after.alignment = before.alignment) : before.Lays [] after where
  laid := by
    intro behind hbehind
    rw [hwritten]
    exact hbehind.pad zeros
  aligned := List.forall_mem_nil _
  climbs := by
    rw [halignment]
    exact fun exponent hpower => ⟨exponent, le_refl _, hpower, List.forall_mem_nil _⟩

/-- Nothing has been written, whatever else has happened. -/
theorem same (hwritten : after.written = before.written)
    (halignment : after.alignment = before.alignment) : before.Lays [] after :=
  zeros 0 (hwritten.trans (Region.push_nil _).symm) halignment

theorem refl (builder : Builder) : builder.Lays [] builder :=
  same rfl rfl

/-- Some bytes have been written as they are. -/
theorem text {bytes : List UInt8} (hwritten : after.written = before.written.push bytes)
    (halignment : after.alignment = before.alignment) :
    before.Lays [(after.written.size, .text bytes)] after where
  laid := by
    intro behind hbehind
    have hlength : after.written.size = ((Part.text bytes).bytes after.written.size).length
        + before.written.bytes.length := by
      rw [hwritten, Region.size_push, before.written.size_eq]
      rfl
    have hcons := hbehind.cons (Part.text bytes) hlength
    rw [hwritten] at hcons ⊢
    exact hcons
  aligned := by
    rintro entry (_ | ⟨_, ⟨⟩⟩)
    exact Nat.one_dvd _
  climbs := by
    rw [halignment]
    intro exponent hpower
    refine ⟨exponent, le_refl _, hpower, ?_⟩
    rintro entry (_ | ⟨_, ⟨⟩⟩)
    exact Nat.one_dvd _

theorem trans (hfirst : before.Lays first middle) (hsecond : middle.Lays second after) :
    before.Lays (second ++ first) after where
  laid := by
    intro behind hbehind
    rw [List.append_assoc]
    exact hsecond.laid (hfirst.laid hbehind)
  aligned := by
    intro entry hentry
    rcases List.mem_append.mp hentry with hlater | hearlier
    · exact hsecond.aligned entry hlater
    · exact hfirst.aligned entry hearlier
  climbs := by
    intro exponent hpower
    obtain ⟨larger, hlarger, hmiddle, hwidths⟩ := hfirst.climbs hpower
    obtain ⟨largest, hlargest, hafter, hwidths'⟩ := hsecond.climbs hmiddle
    refine ⟨largest, hlarger.trans hlargest, hafter, ?_⟩
    intro entry hentry
    rcases List.mem_append.mp hentry with hlater | hearlier
    · exact hwidths' entry hlater
    · exact (hwidths entry hearlier).trans (Nat.pow_dvd_pow 2 hlargest)

end Lays

/-- Noting a power of two leaves one that is a multiple of it. -/
theorem climbs_of_max {width : ℕ} (hwidth : ∃ power : ℕ, width = 2 ^ power)
    (halignment : after.alignment = max before.alignment (width : ℕ)) :
    before.Climbs width after := by
  obtain ⟨power, rfl⟩ := hwidth
  intro exponent hpower
  refine ⟨max exponent power, Nat.le_max_left _ _, ?_, Nat.pow_dvd_pow 2 (Nat.le_max_right _ _)⟩
  rw [halignment, hpower, Number.max_natCast, max_two_pow]

namespace Climbs

variable {width : ℕ}

theorem before_lays (hclimbs : before.Climbs width middle) (hlays : middle.Lays first after) :
    before.Climbs width after := by
  intro exponent hpower
  obtain ⟨larger, hlarger, hmiddle, hwidth⟩ := hclimbs hpower
  obtain ⟨largest, hlargest, hafter, -⟩ := hlays.climbs hmiddle
  exact ⟨largest, hlarger.trans hlargest, hafter, hwidth.trans (Nat.pow_dvd_pow 2 hlargest)⟩

theorem after_lays (hclimbs : middle.Climbs width after) (hlays : before.Lays first middle) :
    before.Climbs width after := by
  intro exponent hpower
  obtain ⟨larger, hlarger, hmiddle, -⟩ := hlays.climbs hpower
  obtain ⟨largest, hlargest, hafter, hwidth⟩ := hclimbs hmiddle
  exact ⟨largest, hlarger.trans hlargest, hafter, hwidth⟩

theorem greater (hclimbs : before.Climbs width after) {width' : ℕ}
    (hclimbs' : before.Climbs width' after) : before.Climbs (max width width') after := by
  rcases Nat.le_total width width' with hle | hle
  · rwa [Nat.max_eq_right hle]
  · rwa [Nat.max_eq_left hle]

end Climbs

theorem Pads.size {zeros : ℕ} {alignment : Number} (hpads : before.Pads zeros alignment after) :
    after.written.size = zeros + before.written.size := by
  rw [hpads.written, Region.size_push, List.length_replicate]

theorem Pads.lays {zeros width : ℕ} (hpads : before.Pads zeros (width : ℕ) after)
    (hwidth : ∃ power : ℕ, width = 2 ^ power) : before.Lays [] after where
  laid := by
    intro behind hbehind
    rw [hpads.written]
    exact hbehind.pad zeros
  aligned := List.forall_mem_nil _
  climbs := by
    intro exponent hpower
    obtain ⟨larger, hlarger, hafter, -⟩ := climbs_of_max hwidth hpads.alignment hpower
    exact ⟨larger, hlarger, hafter, List.forall_mem_nil _⟩

namespace Places

variable {part : Part}

theorem size (hplaces : before.Places part after) : after.written.size
    = part.width + padding part.width before.written.size + before.written.size := by
  have hsize := congrArg Region.size hplaces.written
  rwa [Region.size_push, List.length_append, hplaces.length, List.length_replicate] at hsize

theorem aligned (hplaces : before.Places part after) : part.width ∣ after.written.size := by
  rw [hplaces.size, Nat.add_assoc, Nat.add_comm (padding _ _)]
  exact Nat.dvd_add (Nat.dvd_refl _) (part.isWidth.dvd_add_padding _)

theorem lays (hplaces : before.Places part after) :
    before.Lays [(after.written.size, part)] after where
  laid := by
    intro behind hbehind
    have hpadded := hbehind.pad (padding part.width before.written.size)
    have hbytes : after.written.bytes = part.bytes after.written.size
        ++ (List.replicate (padding part.width before.written.size) 0 ++ before.written.bytes) := by
      have hwritten := congrArg Region.bytes hplaces.written
      rwa [Region.bytes_push, List.append_assoc] at hwritten
    have hsize := after.written.size_eq
    rw [hbytes] at hsize ⊢
    rw [List.length_append] at hsize
    exact hpadded.cons part hsize
  aligned := by
    rintro entry (_ | ⟨_, ⟨⟩⟩)
    exact hplaces.aligned
  climbs := by
    obtain ⟨power, -, hwidth⟩ := part.isWidth
    intro exponent hpower
    obtain ⟨larger, hlarger, hafter, hdivides⟩ :=
      climbs_of_max ⟨power, hwidth⟩ hplaces.alignment hpower
    refine ⟨larger, hlarger, hafter, ?_⟩
    rintro entry (_ | ⟨_, ⟨⟩⟩)
    exact hdivides

end Places

/-- A builder after a vector has been closed at an offset: its count is right in front of its first
element, which is at a multiple of an alignment, and of that of the count. -/
structure Seats (before : Builder) (alignment offset : ℕ) (after : Builder) : Prop where
  four_le : 4 ≤ offset
  aligned : max alignment 4 ∣ offset - 4
  climbs : before.Climbs (max alignment 4) after

namespace LaysOnly

variable {kind kind' : Part → Prop}

theorem of_lays (hlays : before.Lays [] after) : before.LaysOnly kind after :=
  ⟨[], List.forall_mem_nil _, hlays⟩

theorem mono (hlays : before.LaysOnly kind after) (hkind : ∀ part, kind part → kind' part) :
    before.LaysOnly kind' after := by
  obtain ⟨placed, hplaced, hlays⟩ := hlays
  exact ⟨placed, fun entry hentry => hkind _ (hplaced entry hentry), hlays⟩

theorem after_lays (hlays : middle.LaysOnly kind after) (hearlier : before.Lays first middle)
    (hfirst : ∀ entry ∈ first, kind entry.2) : before.LaysOnly kind after := by
  obtain ⟨placed, hplaced, hlast⟩ := hlays
  refine ⟨placed ++ first, ?_, hearlier.trans hlast⟩
  intro entry hentry
  exact (List.mem_append.mp hentry).elim (hplaced entry) (hfirst entry)

end LaysOnly

end Builder

end GraphWire

import GraphWire.Proofs.Builder.OpenVector

/-!
# Vectors without gaps

A caller opens a vector, writes contents of one width and closes it.  Opening has made sure that the
whole of the declared vector ends at a multiple of its alignment and that its count will fit in
front of it.  Closing compares bytes only, and since what pads the first content is less than one of
them, it accepts exactly the vectors that hold the declared number of contents and nothing else.
This is for sound builders, and the builders of all sessions are sound (`Builder.sound_run`).
-/

namespace GraphWire

/-- Writes a content at its own alignment. -/
def Content.write : Content → Build Unit
  | scalar type value => Build.write type value
  | reference target => Build.writeOffset (target : ℕ)

/-! ## What opening reserves -/

/-- A builder after room has been made for some bytes that end at a multiple of a power of two. -/
structure Builder.Reserves (before : Builder) (exponent bytes : ℕ) (after : Builder) : Prop where
  sound : after.Sound
  exponent_le : exponent ≤ 31
  size : after.written.size
    = before.written.size + padding (2 ^ exponent) (before.written.size + bytes)
  room : after.written.size + 2 ^ exponent + bytes ≤ Layout.maxBufferSize

namespace Builder.Reserves

variable {before after : Builder} {exponent exponent' bytes : ℕ}

theorem size_add (hreserves : before.Reserves exponent bytes after) :
    after.written.size + bytes
      = before.written.size + bytes + padding (2 ^ exponent) (before.written.size + bytes) := by
  rw [hreserves.size, Nat.add_right_comm]

theorem aligned (hreserves : before.Reserves exponent bytes after) :
    2 ^ exponent ∣ after.written.size + bytes := by
  have hexponent := hreserves.exponent_le
  rw [hreserves.size_add]
  exact dvd_add_padding (by omega) _

/-- What was aligned otherwise stays so. -/
theorem keeps (hreserves : before.Reserves exponent bytes after)
    (haligned : 2 ^ exponent' ∣ before.written.size + bytes) :
    2 ^ exponent' ∣ after.written.size + bytes := by
  have hexponent := hreserves.exponent_le
  rw [hreserves.size_add]
  exact dvd_add_padding_of_dvd (by omega) haligned

/-- What was aligned to more is not padded. -/
theorem size_eq (hreserves : before.Reserves exponent bytes after) (hle : exponent ≤ exponent')
    (haligned : 2 ^ exponent' ∣ before.written.size + bytes) :
    after.written.size = before.written.size := by
  have hexponent := hreserves.exponent_le
  have hnone := padding_eq_zero (show exponent ≤ 32 by omega)
    ((Nat.pow_dvd_pow 2 hle).trans haligned)
  rw [hreserves.size, hnone, Nat.add_zero]

end Builder.Reserves

namespace Build

variable {before opened filled after : Builder} {width exponent : ℕ} {count : Number}

theorem prepare_power_reserves (hsound : before.Sound) {additional : Number} {bytes : ℕ}
    (hbytes : additional.toNat? = some bytes)
    (hresult : prepare (2 ^ exponent : ℕ) additional before = .ok () after) :
    before.Reserves exponent bytes after := by
  have hadditional : additional.AtLeast 0 :=
    .inr ⟨bytes, Number.toRat?_of_toNat? hbytes, by positivity⟩
  obtain ⟨-, -, hexponent, -⟩ := (prepare_power_writes hsound exponent hadditional 0).ok hresult
  have hsmall : 0 < 2 ^ exponent ∧ 2 ^ exponent ≤ maxAlignment :=
    ⟨Nat.two_pow_pos exponent, Nat.pow_le_pow_right (by decide) hexponent⟩
  simp only [prepare, Number.toNat?_natCast, hbytes, if_pos hsmall] at hresult
  obtain ⟨hputs, hroom, -⟩ := (reserve_writes hsound (2 ^ exponent) bytes).ok hresult
  have hsize := hputs.size
  rw [List.length_replicate, Nat.add_comm] at hsize
  exact ⟨hputs.sound hsound, hexponent, hsize, by omega⟩

/-- There is no room for more bytes than a word can count. -/
theorem prepare_power_large (hsound : before.Sound) {additional : Number}
    (hlarge : additional.AtLeast (2 ^ 33)) :
    prepare (2 ^ exponent : ℕ) additional before ≠ .ok () after := by
  intro hresult
  cases hbytes : additional.toNat? with
  | some bytes =>
      have hroom := (prepare_power_reserves hsound hbytes hresult).room
      have hpositive := Nat.two_pow_pos exponent
      have hlimit : Layout.maxBufferSize = 2147483647 := rfl
      rcases hlarge with rfl | ⟨value, hvalue, hbound⟩
      · cases hbytes
      · rw [Number.toRat?_of_toNat? hbytes, Option.some.injEq] at hvalue
        rw [← hvalue] at hbound
        have hbelow : (2 ^ 33 : ℤ) ≤ bytes := by exact_mod_cast hbound
        omega
  | none =>
      simp only [prepare, Number.toNat?_natCast, hbytes] at hresult
      obtain ⟨-, hcapacity, -⟩ := (reserveWords_writes hsound _ additional 0).ok hresult
      have hsigned := natAbs_wordPadding_le (2 ^ exponent : ℕ) (before.written.size + additional)
      have hpadding := Number.atLeast_ofInt
        (wordPadding (2 ^ exponent : ℕ) (before.written.size + additional))
      have hpower : Number.AtLeast 0 ((2 ^ exponent : ℕ) : Number) :=
        (Number.atLeast_ofInt _).mono (Int.natCast_nonneg _)
      have hroom := Number.add_atLeast (Number.add_atLeast hpadding hpower (by omega)) hlarge
        (by omega)
      exact absurd hcapacity (Nat.not_le.mpr (capacityFor_gt _ (hroom.mono (by omega))))

/-- The bytes that room has been made for are exactly those of the elements. -/
theorem product_of_prepare (hsound : before.Sound) {number : ℕ}
    (hnumber : count.toNat? = some number)
    (hresult : prepare (2 ^ exponent : ℕ) (width * count) before = .ok () after) :
    (width * count).toNat? = some (width * number) := by
  have hwidth := Number.toRat?_of_toNat? (Number.toNat?_natCast width)
  have hcount := Number.toRat?_of_toNat? hnumber
  rcases Nat.lt_or_ge (width * number) (2 ^ 53) with hsmall | hlarge
  · exact Number.mul_eq_natCast hwidth hcount (Nat.cast_mul width number).symm hsmall
  · have hmany : Number.AtLeast (2 ^ 33) (width * count) := by
      apply Number.mul_atLeast (FloatFormat.binary64.holds_ofInt (by decide)) hwidth hcount
      have hbytes : 2 ^ 33 ≤ width * number := le_trans (by decide) hlarge
      exact_mod_cast hbytes
    exact absurd hresult (prepare_power_large hsound hmany)

/-- The declared bytes of a vector that has been opened are exactly those of its elements.  With the
padding they end at a multiple of the alignment, and there is room for the count in front. -/
theorem startVector_reserves (hsound : before.Sound)
    (hresult : startVector width count (2 ^ exponent : ℕ) before = .ok () opened) :
    opened.Sound ∧ ∃ number, count.toNat? = some number ∧
      ((width : Number) * count).toNat? = some (width * number) ∧
      2 ^ max exponent 2 ∣ opened.written.size + width * number ∧
      opened.written.size + 4 + width * number ≤ Layout.maxBufferSize := by
  have hidle := idle_of_begin hresult
  obtain ⟨number, hnumber⟩ := count_of_startVector hresult
  simp only [startVector, begin_eq hidle, hnumber] at hresult
  obtain ⟨_, counted, hcounted, hresult⟩ := of_bind_ok hresult
  obtain ⟨_, padded, hpadded, hresult⟩ := of_bind_ok hresult
  cases hresult
  change prepare (2 ^ 2 : ℕ) _ _ = _ at hcounted
  have hproduct := product_of_prepare hsound hnumber hcounted
  have hcount := prepare_power_reserves hsound hproduct hcounted
  have helements := prepare_power_reserves hcount.sound hproduct hpadded
  refine ⟨helements.sound.inPhase _, number, hnumber, hproduct, ?_, ?_⟩
  · rcases Nat.le_total exponent 2 with hsmaller | hgreater
    · rw [Nat.max_eq_right hsmaller]
      exact helements.keeps hcount.aligned
    · rw [Nat.max_eq_left hgreater]
      exact helements.aligned
  · -- The greater of the two alignments makes the room for the count.
    rcases Nat.le_total exponent 2 with hsmaller | hgreater
    · change padded.written.size + 4 + _ ≤ _
      rw [helements.size_eq hsmaller hcount.aligned]
      exact hcount.room
    · have hfour : 2 ^ 2 ≤ 2 ^ exponent := Nat.pow_le_pow_right (by decide) hgreater
      have hroom := helements.room
      change padded.written.size + 4 + _ ≤ _
      omega

/-! ## What is written -/

theorem write_puts (hsound : before.Sound) {content : Content}
    (hresult : content.write before = .ok () after) : before.PutsContent content after := by
  cases content with
  | scalar type value => exact (write_content hsound type value).ok hresult
  | reference target =>
      obtain ⟨offset, htarget, hputs⟩ := (writeOffset_content hsound target).ok hresult
      rw [Number.toNat?_natCast, Option.some.injEq] at htarget
      rwa [htarget]

/-- Contents of the width of the elements fill the vector, the last that was written in front. -/
theorem writeAll_fills (hsound : before.Sound) {vector : OpenVector}
    (hopened : vector.Fills before width 0 []) {contents : List Content}
    (hwidth : ∀ content ∈ contents, content.width = width)
    (hresult : writeAll Content.write contents before = .ok () after) :
    (∃ front, before.Puts front after) ∧ ∃ gap, vector.Fills after width gap contents := by
  induction contents generalizing after with
  | nil =>
      cases hresult
      exact ⟨⟨[], .refl before⟩, 0, hopened⟩
  | cons content contents ih =>
      obtain ⟨_, middle, hmiddle, hresult⟩ := of_bind_ok hresult
      obtain ⟨hcontent, hcontents⟩ := List.forall_mem_cons.mp hwidth
      obtain ⟨⟨front, hputs⟩, gap, hfills⟩ := ih hcontents hmiddle
      have hwritten := write_puts (hputs.sound hsound) hresult
      obtain ⟨front', hputs'⟩ := hwritten.puts
      exact ⟨⟨_, hputs.trans hputs'⟩, hfills.cons hwritten hcontent⟩

/-! ## What closing accepts -/

/-- A vector with other bytes than were declared stays open. -/
theorem endVector_of_ne {vector : OpenVector} (hphase : before.phase = .vector vector)
    (hlength : vector.byteLength.toNat? ≠ some (before.written.size - vector.start)) :
    endVector before = .error (.vectorSize vector.count vector.byteLength
      (before.written.size - vector.start)) before := by
  simp only [endVector, get_bind_apply, hphase]
  exact congrFun (if_pos hlength) before

/-- A vector with the declared bytes is closed where there is room for its count. -/
theorem endVector_of_eq (hsound : before.Sound) {vector : OpenVector}
    (hphase : before.phase = .vector vector)
    (hlength : vector.byteLength.toNat? = some (before.written.size - vector.start))
    (hfits : Scalar.uint32.Fits vector.count)
    (hroom : before.written.size + padding 4 before.written.size + 4 ≤ Layout.maxBufferSize) :
    ∃ offset after, endVector before = .ok offset after := by
  cases hresult : endVector before with
  | ok offset after => exact ⟨offset, after, rfl⟩
  | error error after =>
      have hlegal := (endVector_writes hsound).error ⟨vector, hphase, hlength, hfits⟩ hresult
      exact absurd hroom (Nat.not_le.mpr hlegal.2)

end Build

/-- Contents fill the declared bytes exactly when they are as many as was declared and nothing pads
them: what pads the first of them is less than one. -/
theorem OpenVector.Fills.exact_iff {vector : OpenVector} {builder : Builder} {width gap : ℕ}
    {contents : List Content} (hfills : vector.Fills builder width gap contents) (number : ℕ) :
    width * number = builder.written.size - vector.start ↔ number = contents.length ∧ gap = 0 := by
  have hsize := hfills.size
  constructor
  · intro hdeclared
    have hsum : gap + width * contents.length = width * number := by omega
    have hgap : gap = 0 := by
      have hmod := congrArg (· % width) hsum
      simp only [Nat.add_mul_mod_self_left, Nat.mul_mod_right] at hmod
      rwa [Nat.mod_eq_of_lt hfills.gap_lt] at hmod
    rw [hgap, Nat.zero_add] at hsum
    exact ⟨(Nat.eq_of_mul_eq_mul_left hfills.positive hsum).symm, hgap⟩
  · rintro ⟨rfl, rfl⟩
    omega

namespace Builder

/-- Contents have been written with no padding before or between them: the buffer has grown by their
widths alone. -/
def Packs (opened : Builder) (contents : List Content) (filled : Builder) : Prop :=
  filled.written.size = opened.written.size + (contents.map Content.width).sum

/-- A vector that was opened for some number of elements, with the contents written since. -/
structure FillsVector (opened : Builder) (width exponent : ℕ) (count : Number) (number gap : ℕ)
    (contents : List Content) (filled : Builder) : Prop where
  counted : count.toNat? = some number
  declared : ((width : Number) * count).toNat? = some (width * number)
  aligned : 2 ^ max exponent 2 ∣ opened.written.size + width * number
  room : opened.written.size + 4 + width * number ≤ Layout.maxBufferSize
  isWidth : IsWidth width
  sound : filled.Sound
  phase : filled.phase = .vector ⟨count, width * count, opened.written.size⟩
  widths : ∀ content ∈ contents, content.width = width
  puts : ∃ front, opened.Puts front filled
  fills : OpenVector.Fills ⟨count, width * count, opened.written.size⟩ filled width gap contents

theorem fillsVector {before opened filled : Builder} {width exponent : ℕ} {count : Number}
    {contents : List Content} (hsound : before.Sound) (hisWidth : IsWidth width)
    (hopened : Build.startVector width count (2 ^ exponent : ℕ) before = .ok () opened)
    (hwidth : ∀ content ∈ contents, content.width = width)
    (hfilled : Build.writeAll Content.write contents opened = .ok () filled) :
    ∃ number gap, opened.FillsVector width exponent count number gap contents filled := by
  obtain ⟨hsound', number, hnumber, hproduct, haligned, hroom⟩ :=
    Build.startVector_reserves hsound hopened
  have hempty : OpenVector.Fills ⟨count, width * count, opened.written.size⟩ opened width 0 [] := by
    refine ⟨hisWidth.pos, ⟨number, hnumber, rfl⟩, ?_, by simp, hisWidth.pos, fun _ => rfl, by simp,
      ContentsAt.nil⟩
    intro bytes hbytes
    obtain rfl : width * number = bytes := Option.some.inj (hproduct.symm.trans hbytes)
    exact (Nat.pow_dvd_pow 2 (Nat.le_max_right exponent 2)).trans haligned
  obtain ⟨⟨front, hputs⟩, gap, hfills⟩ := Build.writeAll_fills hsound' hempty hwidth hfilled
  have hphase := hputs.phase.trans (Build.phase_of_startVector hopened)
  exact ⟨number, gap, hnumber, hproduct, haligned, hroom, hisWidth, hputs.sound hsound', hphase,
    hwidth, ⟨front, hputs⟩, hfills⟩

namespace FillsVector

variable {opened filled after : Builder} {width exponent number gap : ℕ} {count : Number}
  {contents : List Content}

theorem packs_iff
    (hfilled : opened.FillsVector width exponent count number gap contents filled) :
    opened.Packs contents filled ↔ gap = 0 := by
  have hsize := hfilled.fills.size
  have hsum : (contents.map Content.width).sum = width * contents.length := by
    rw [List.map_congr_left hfilled.widths, List.map_const', List.sum_replicate_nat,
      Nat.mul_comm]
  unfold Packs
  rw [hsum]
  simp only at hsize
  omega

/-- A gap is possible only where the elements are wider than their alignment. -/
theorem gap_eq_zero
    (hfilled : opened.FillsVector width exponent count number gap contents filled)
    (hgreater : width ≤ 2 ^ exponent) : gap = 0 := by
  by_cases hempty : contents = []
  · exact hfilled.fills.empty hempty
  obtain ⟨power, hpower, rfl⟩ := hfilled.isWidth
  have hle : power ≤ max exponent 2 :=
    ((Nat.pow_le_pow_iff_right (by decide)).mp hgreater).trans (Nat.le_max_left _ _)
  have hwhole := (Nat.pow_dvd_pow 2 hle).trans hfilled.aligned
  have hopened := (Nat.dvd_add_left (Nat.dvd_mul_right (2 ^ power) number)).mp hwhole
  have hlast := hfilled.fills.aligned hempty
  rw [hfilled.fills.size, Nat.add_assoc] at hlast
  have hsum := (Nat.dvd_add_right hopened).mp hlast
  have hgap := (Nat.dvd_add_left (Nat.dvd_mul_right (2 ^ power) contents.length)).mp hsum
  exact Nat.eq_zero_of_dvd_of_lt hgap hfilled.fills.gap_lt

/-- A vector with a gap or another number of contents than was declared is refused. -/
theorem refuses
    (hfilled : opened.FillsVector width exponent count number gap contents filled)
    (hother : ¬(number = contents.length ∧ gap = 0)) :
    Build.endVector filled = .error (.vectorSize count (width * count)
      (filled.written.size - opened.written.size)) filled := by
  apply Build.endVector_of_ne hfilled.phase
  intro hlength
  have hdeclared := Option.some.inj (hfilled.declared.symm.trans hlength)
  exact hother ((hfilled.fills.exact_iff number).mp hdeclared)

/-- The count will need no padding. -/
theorem padding_eq_zero
    (hfilled : opened.FillsVector width exponent count contents.length 0 contents filled) :
    padding 4 filled.written.size = 0 := by
  apply isWidth_four.padding_eq_zero
  rw [hfilled.fills.size]
  exact (Nat.pow_dvd_pow 2 (Nat.le_max_right exponent 2)).trans hfilled.aligned

/-- A vector of the declared number of contents without a gap is closed: opening it has reserved the
room for its count. -/
theorem closes
    (hfilled : opened.FillsVector width exponent count contents.length 0 contents filled) :
    ∃ offset after, Build.endVector filled = .ok offset after := by
  have hdeclared := (hfilled.fills.exact_iff contents.length).mpr ⟨rfl, rfl⟩
  have hroom := hfilled.room
  have hsize := hfilled.fills.size
  have hlimit : Layout.maxBufferSize = 2147483647 := rfl
  have hcount : contents.length ≤ width * contents.length :=
    Nat.le_mul_of_pos_left _ hfilled.isWidth.pos
  have hnone := hfilled.padding_eq_zero
  simp only at hsize
  apply Build.endVector_of_eq hfilled.sound hfilled.phase
  · rw [hfilled.declared, hdeclared]
  · apply (Scalar.fits_iff_of_toNat? rfl hfilled.counted).mpr
    change contents.length < 256 ^ 4
    omega
  · omega

/-- The count of a closed vector lies right in front of its elements, and these are all that lies
between the count and what was there before. -/
theorem closed
    (hfilled : opened.FillsVector width exponent count contents.length 0 contents filled)
    {offset : ℕ} (hclosed : Build.endVector filled = .ok offset after) :
    offset = after.written.size ∧
      after.written.bytes = LittleEndian.split 4 contents.length ++ filled.written.bytes ∧
      ∃ elements, elements.length = width * contents.length ∧
        filled.written.bytes = elements ++ opened.written.bytes := by
  obtain ⟨hoffset, vector, word, hphase, -, hword, hputs⟩ :=
    (Build.endVector_writes hfilled.sound).ok hclosed
  obtain rfl : _ = vector := Phase.vector.inj (hfilled.phase.symm.trans hphase)
  obtain rfl : word = contents.length := Scalar.eq_of_word rfl hfilled.counted hword
  obtain ⟨elements, helements⟩ := hfilled.puts
  have hbytes := hputs.puts.bytes
  simp only [hfilled.padding_eq_zero, List.replicate_zero, List.append_nil] at hbytes
  have hsize := hfilled.fills.size
  have hlength := helements.size
  simp only at hsize
  exact ⟨hoffset, hbytes, elements, by omega, helements.bytes⟩

end FillsVector

variable {before opened filled : Builder} {width exponent : ℕ} {count : Number}
  {contents : List Content}

/-- After a vector has been opened with any alignment that is a power of two and contents of the
width of its elements have been written, closing it succeeds exactly if they are as many as was
declared and nothing pads them.  Any other vector is refused and stays open.  In a closed vector the
count lies right in front of the elements, these fill the declared bytes, and the content that was
written last is the first of them.  Where the alignment is not below the width, nothing is padded,
so the number of contents alone decides. -/
theorem vector_contiguous (hsound : before.Sound) (hisWidth : IsWidth width)
    (hopened : Build.startVector width count (2 ^ exponent : ℕ) before = .ok () opened)
    (hwidth : ∀ content ∈ contents, content.width = width)
    (hfilled : Build.writeAll Content.write contents opened = .ok () filled) :
    ((∃ offset after, Build.endVector filled = .ok offset after) ↔
        count.toNat? = some contents.length ∧ opened.Packs contents filled) ∧
      (¬(count.toNat? = some contents.length ∧ opened.Packs contents filled) →
        Build.endVector filled = .error (.vectorSize count (width * count)
          (filled.written.size - opened.written.size)) filled) ∧
      (∀ offset after, Build.endVector filled = .ok offset after →
        offset = after.written.size ∧
        after.written.bytes = LittleEndian.split 4 contents.length ++ filled.written.bytes ∧
        (∃ elements, elements.length = width * contents.length ∧
          filled.written.bytes = elements ++ opened.written.bytes) ∧
        VectorAt after.written.bytes offset width contents) ∧
      (width ≤ 2 ^ exponent →
        ((∃ offset after, Build.endVector filled = .ok offset after) ↔
          count.toNat? = some contents.length)) := by
  obtain ⟨number, gap, hfills⟩ := fillsVector hsound hisWidth hopened hwidth hfilled
  have hexact : count.toNat? = some contents.length ∧ opened.Packs contents filled ↔
      number = contents.length ∧ gap = 0 := by
    rw [hfills.counted, Option.some.injEq, hfills.packs_iff]
  have hcloses : (∃ offset after, Build.endVector filled = .ok offset after) ↔
      number = contents.length ∧ gap = 0 := by
    constructor
    · rintro ⟨offset, after, hclosed⟩
      by_contra hother
      rw [hfills.refuses hother] at hclosed
      cases hclosed
    · rintro ⟨rfl, rfl⟩
      exact hfills.closes
  refine ⟨hcloses.trans hexact.symm, ?_, ?_, ?_⟩
  · rw [hexact]
    exact hfills.refuses
  · intro offset after hclosed
    obtain ⟨rfl, rfl⟩ := hcloses.mp ⟨offset, after, hclosed⟩
    obtain ⟨hoffset, hcount, helements⟩ := hfills.closed hclosed
    obtain ⟨-, hvector⟩ :=
      (Build.endVector_adds hfills.sound hfills.phase hfills.fills 0).ok hclosed
    exact ⟨hoffset, hcount, helements, hvector⟩
  · intro hgreater
    rw [hcloses, hfills.gap_eq_zero hgreater, hfills.counted, Option.some.injEq]
    exact and_iff_left rfl

/-- Two elements in a vector that is aligned to more than they need. -/
theorem vector_contiguous_pair :
    let contents : List Content :=
      [.scalar .uint16 (7 : Number), .scalar .uint16 (9 : Number)]
    ∃ opened filled offset after,
      Build.startVector (2 : ℕ) (2 : ℕ) (2 ^ 3 : ℕ) (Builder.new ⟨1024, false, true⟩)
        = .ok () opened ∧
      Build.writeAll Content.write contents opened = .ok () filled ∧
      Build.endVector filled = .ok offset after ∧
      VectorAt after.written.bytes offset 2 contents := by
  intro contents
  have hsettings : BuilderOptions.resolve {} = .ok ⟨1024, false, true⟩ := by rfl
  obtain ⟨filled, hdone⟩ : ∃ filled, (do
      Build.startVector (2 : ℕ) (2 : ℕ) (2 ^ 3 : ℕ)
      Build.writeAll Content.write contents : Build Unit) (Builder.new ⟨1024, false, true⟩)
        = .ok () filled := by
    have hsucceeds : (match (do
        Build.startVector (2 : ℕ) (2 : ℕ) (2 ^ 3 : ℕ)
        Build.writeAll Content.write contents : Build Unit) (Builder.new ⟨1024, false, true⟩) with
      | .ok _ _ => true
      | .error _ _ => false) = true := by decide +kernel
    split at hsucceeds
    · next filled hdone => exact ⟨filled, hdone⟩
    · cases hsucceeds
  obtain ⟨_, opened, hopened, hfilled⟩ := Build.of_bind_ok hdone
  obtain ⟨-, -, hclosed, hcounted⟩ := vector_contiguous (sound_new hsettings) isWidth_two hopened
    (List.forall_mem_cons.mpr ⟨rfl, List.forall_mem_singleton.mpr rfl⟩) hfilled
  obtain ⟨offset, after, hend⟩ := (hcounted (by decide)).mpr (by decide)
  exact ⟨opened, filled, offset, after, hopened, hfilled, hend, (hclosed offset after hend).2.2.2⟩

end Builder

end GraphWire

import GraphWire.Proofs.Builder.Inversion
import GraphWire.Proofs.Builder.Vector
import GraphWire.Proofs.Number.Arithmetic

/-!
# Vectors that a caller fills

A caller may open a vector with any alignment that is a power of two, write its elements one by one
and close it.  Closing compares bytes, so it is for the padding in front of the first element to be
ruled out: less than an element cannot make up for one.
-/

namespace GraphWire

/-! ## Reservations by words -/

/-- A room of some bytes is that much more than what is written, or past the largest capacity. -/
theorem le_capacityFor (size : ℕ) {room : Number} {bound : ℤ} (hroom : room.AtLeast bound) :
    Layout.maxBufferSize < capacityFor size room ∨ size + bound ≤ capacityFor size room := by
  rcases hroom with rfl | ⟨value, hvalue, hbound⟩
  · exact .inl (Nat.lt_succ_self _)
  · right
    cases room with
    | nan | infinity _ => cases hvalue
    | negativeZero =>
        cases hvalue
        have hnone : bound ≤ 0 := by exact_mod_cast hbound
        have hceiling : Number.negativeZero.ceiling = 0 := rfl
        simp only [capacityFor, hceiling]
        omega
    | finite dyadic =>
        cases hvalue
        have hceiling := Number.le_ceiling hbound
        simp only [capacityFor]
        omega

/-- Such a room is past the largest capacity. -/
theorem capacityFor_gt (size : ℕ) {room : Number} (hroom : room.AtLeast (2 ^ 31)) :
    Layout.maxBufferSize < capacityFor size room := by
  have hlimit : Layout.maxBufferSize = 2147483647 := rfl
  have hsize := le_capacityFor size hroom
  omega

/-- A padding is a signed word. -/
theorem natAbs_wordPadding_le (alignment size : Number) :
    (wordPadding alignment size).natAbs ≤ 2 ^ 31 := by
  have hcardinality : TwosComplement.cardinality 4 = 4294967296 := rfl
  have hresidue := TwosComplement.word_lt 4 (-size.truncated)
  have hmasked (mask : ℕ) : TwosComplement.word 4 (-size.truncated) &&& mask < 4294967296 :=
    Nat.and_le_left.trans_lt hresidue
  have hbelow := hmasked (TwosComplement.word 4 (alignment + Number.ofInt (-1)).truncated)
  simp only [wordPadding, TwosComplement.ofWord, hcardinality, true_and]
  split
  · omega
  · omega

/-- A padding is negative only for an alignment that a signed word cannot hold. -/
theorem wordPadding_nonneg_or {alignment : Number} (halignment : alignment.AtLeast 1)
    (size : Number) : 0 ≤ wordPadding alignment size ∨ alignment.AtLeast (2 ^ 31) := by
  rcases halignment with rfl | ⟨value, hvalue, hone⟩
  · exact .inr (.inl rfl)
  by_cases hlarge : ((2 ^ 31 : ℤ) : ℚ) ≤ value
  · exact .inr (.inr ⟨value, hvalue, hlarge⟩)
  left
  -- The mask is a word without its highest bit.
  have hmask : 0 ≤ (alignment + Number.ofInt (-1)).truncated ∧
      (alignment + Number.ofInt (-1)).truncated ≤ 2 ^ 31 - 1 := by
    have hless := Number.toRat?_of_toInt? (Number.toInt?_ofInt (-1))
    have hnonneg : 0 ≤ value + ((-1 : ℤ) : ℚ) := by
      push_cast at hone ⊢
      linarith
    have hbound : value + ((-1 : ℤ) : ℚ) ≤ (2 ^ 31 - 1 : ℤ) := by
      push_cast at hlarge ⊢
      linarith
    rcases Number.add_rounded hvalue hless with hexact | ⟨sum, hsum, htotal⟩
    · exact Number.truncated_mem hexact hnonneg hbound
    · rw [hsum]
      rw [← htotal] at hnonneg hbound
      exact Number.truncated_rounded_mem (by decide) hnonneg hbound
  have hword : TwosComplement.word 4 (alignment + Number.ofInt (-1)).truncated < 2147483648 := by
    have hcardinality : TwosComplement.cardinality 4 = 4294967296 := rfl
    rw [TwosComplement.word, hcardinality]
    omega
  have hbelow (residue : ℕ) := Nat.and_le_right (n := residue)
    (m := TwosComplement.word 4 (alignment + Number.ofInt (-1)).truncated)
  have hpadding := (hbelow (TwosComplement.word 4 (-size.truncated))).trans_lt hword
  have hcardinality : TwosComplement.cardinality 4 = 4294967296 := rfl
  simp only [wordPadding, TwosComplement.ofWord, hcardinality, true_and]
  rw [if_neg (by omega)]
  exact Int.natCast_nonneg _

/-- The room for some bytes at an alignment is enough for the padding as well. -/
theorem atLeast_wordRoom {alignment : Number} (halignment : alignment.AtLeast 1) (size : Number)
    (additional : ℕ) (hsmall : additional < 2 ^ 31) :
    Number.AtLeast ((wordPadding alignment size).toNat + additional)
      (Number.ofInt (wordPadding alignment size) + alignment + additional) := by
  have hsigned := natAbs_wordPadding_le alignment size
  have hpadding := Number.atLeast_ofInt (wordPadding alignment size)
  have hadditional := Number.atLeast_ofInt (additional : ℤ)
  have hpair : Number.AtLeast (wordPadding alignment size).toNat
      (Number.ofInt (wordPadding alignment size) + alignment) := by
    rcases wordPadding_nonneg_or halignment size with hnonneg | hlarge
    · exact (Number.add_atLeast hpadding halignment (by omega)).mono (by omega)
    · exact (Number.add_atLeast hpadding hlarge (by omega)).mono (by omega)
  exact Number.add_atLeast hpair hadditional (by omega)
/-- The room for a power of two past the largest word is past the largest capacity. -/
theorem atLeast_powerRoom {exponent : ℕ} (hlarge : 31 < exponent) (size : Number)
    {additional : Number} (hadditional : additional.AtLeast 0) :
    Number.AtLeast (2 ^ 31)
      (Number.ofInt (wordPadding (2 ^ exponent : ℕ) size) + (2 ^ exponent : ℕ) + additional) := by
  have hsigned := natAbs_wordPadding_le (2 ^ exponent : ℕ) size
  have hpadding : Number.AtLeast (-2 ^ 31) (Number.ofInt (wordPadding (2 ^ exponent : ℕ) size)) :=
    (Number.atLeast_ofInt _).mono (by omega)
  have hpower : Number.AtLeast (2 ^ 32) ((2 ^ exponent : ℕ) : Number) := by
    have hinteger : (2 ^ 32 : ℤ) ≤ (2 ^ exponent : ℕ) := by
      have hnatural : 2 ^ 32 ≤ 2 ^ exponent := Nat.pow_le_pow_right (by decide) hlarge
      exact_mod_cast hnatural
    exact (Number.atLeast_ofInt _).mono hinteger
  have hsum := Number.add_atLeast hpadding hpower (by decide)
  exact Number.add_atLeast hsum hadditional (by decide)

namespace Build

variable {before : Builder}

/-- Room at a power of two is made by padding up to it.  A greater one than the limit of a capacity
asks for more room than there can be. -/
theorem prepare_power_writes (hsound : before.Sound) (exponent : ℕ) {additional : Number}
    (hadditional : additional.AtLeast 0) (bound : ℕ) :
    Writes (prepare (2 ^ exponent : ℕ) additional) before False True bound
      fun _ after => ∃ zeros, before.Puts (List.replicate zeros 0) after ∧ exponent ≤ 31 ∧
        (∀ bytes, additional.toNat? = some bytes →
          zeros = padding (2 ^ exponent) (before.written.size + bytes)) ∧
        after.alignment = max before.alignment (2 ^ exponent : ℕ) := by
  have hpositive : 0 < 2 ^ exponent := Nat.two_pow_pos _
  have hwords := reserveWords_writes hsound (2 ^ exponent : ℕ) additional bound
  by_cases hexponent : exponent ≤ 31
  · have hsmall : 2 ^ exponent ≤ maxAlignment := Nat.pow_le_pow_right (by decide) hexponent
    cases hbytes : additional.toNat? with
    | none =>
        simp only [prepare, Number.toNat?_natCast, hbytes]
        apply hwords.imp
        rintro _ after ⟨⟨zeros, hputs⟩, -, halignment⟩
        exact ⟨zeros, hputs, hexponent, by simp, halignment⟩
    | some bytes =>
        simp only [prepare, Number.toNat?_natCast, hbytes, if_pos (And.intro hpositive hsmall)]
        apply (reserve_writes hsound (2 ^ exponent) bytes).any
        rintro _ after ⟨hputs, -, halignment⟩
        refine ⟨_, hputs, hexponent, ?_, halignment⟩
        rintro _ ⟨⟩
        rfl
  · have hlarge : ¬2 ^ exponent ≤ maxAlignment := by
      have hpower : 2 ^ 32 ≤ 2 ^ exponent := Nat.pow_le_pow_right (by decide) (by omega)
      have hlimit : maxAlignment = 2 ^ 31 := rfl
      omega
    have hroom := atLeast_powerRoom (by omega : 31 < exponent)
      (before.written.size + additional) hadditional
    have hprepare : (prepare (2 ^ exponent : ℕ) additional : Build Unit)
        = reserveWords (2 ^ exponent : ℕ) additional := by
      unfold prepare
      split
      · next width bytes hwidth hbytes =>
          obtain rfl : 2 ^ exponent = width := by simpa using hwidth
          rw [if_neg fun hboth => hlarge hboth.2]
      · rfl
    rw [hprepare]
    apply hwords.imp
    rintro _ after ⟨-, hcapacity, -⟩
    exact absurd hcapacity (Nat.not_le.mpr (capacityFor_gt _ hroom))

/-- Whatever the alignment of the elements is, the count will lie right in front of them. -/
theorem startVector_writes (hsound : before.Sound) {elementSize count : Number} (exponent : ℕ)
    (hbytes : ∀ number, count.toNat? = some number → (elementSize * count).AtLeast 0)
    (bound : ℕ) :
    Writes (startVector elementSize count (2 ^ exponent : ℕ)) before False True bound
      fun _ after => ∃ number zeros padded, count.toNat? = some number ∧ exponent ≤ 31 ∧
        before.Puts (List.replicate zeros 0) padded ∧
        after = { padded with
          phase := .vector ⟨count, elementSize * count, padded.written.size⟩ } ∧
        (∀ bytes, (elementSize * count).toNat? = some bytes →
          4 ∣ padded.written.size + bytes) ∧
        ∀ least, before.Modest least 31 → padded.Modest least 31 := by
  unfold startVector
  apply (begin_writes False _).of_legal False.elim
  intro _
  cases hcount : count.toNat? with
  | none => exact Writes.throw False.elim
  | some number =>
      have hbytes := hbytes number hcount
      rw [if_neg (by simp)]
      dsimp only
      unfold openVector
      apply (prepare_power_writes hsound 2 hbytes bound).bind_true (le_refl _)
      rintro _ counted ⟨zeros, hputs, htwo, hzeros, halignment⟩ -
      apply (prepare_power_writes (hputs.sound hsound) exponent hbytes bound).bind_true (le_refl _)
      rintro _ padded ⟨zeros', hputs', hexponent, hzeros', halignment'⟩ -
      have hall := hputs.trans hputs'
      rw [List.replicate_append_replicate] at hall
      refine Writes.change ?_ False.elim
      refine ⟨number, zeros' + zeros, padded, rfl, hexponent, hall, rfl, ?_, ?_⟩
      · intro bytes hproduct
        have hcounted := hputs.size
        have hpadded := hputs'.size
        rw [List.length_replicate, hzeros bytes hproduct] at hcounted
        rw [List.length_replicate, hzeros' bytes hproduct] at hpadded
        exact (dvd_of_paddings (by decide) (by omega) hcounted hpadded).1
      · intro least hmodest
        exact (hmodest.keep htwo halignment).keep hexponent halignment'

end Build

/-! ## Elements of an open vector -/

/-- An open vector with the contents written so far, the latest first, in front of a gap that the
first of them may have left. -/
structure OpenVector.Fills (opened : OpenVector) (builder : Builder) (width gap : ℕ)
    (contents : List Content) : Prop where
  positive : 0 < width
  count : ∃ number, opened.count.toNat? = some number ∧
    opened.byteLength = (width : Number) * opened.count
  whole : ∀ bytes, opened.byteLength.toNat? = some bytes → 4 ∣ opened.start + bytes
  size : builder.written.size = opened.start + gap + width * contents.length
  gap_lt : gap < width
  empty : contents = [] → gap = 0
  aligned : contents ≠ [] → width ∣ builder.written.size
  elements : ContentsAt builder.written.bytes builder.written.size width contents

namespace OpenVector.Fills

variable {opened : OpenVector} {before after : Builder} {width gap : ℕ} {contents : List Content}

/-- A content of the width of the elements becomes the first of them. -/
theorem cons (hfills : opened.Fills before width gap contents) {content : Content}
    (hcontent : before.PutsContent content after) (hwidth : content.width = width) :
    ∃ gap', opened.Fills after width gap' (content :: contents) := by
  obtain ⟨front, hputs⟩ := hcontent.puts
  have hsize := hfills.size
  have hafter := hcontent.size
  have haligned := hcontent.aligned
  have hisWidth := content.isWidth
  rw [hwidth] at hafter haligned hisWidth
  have hpadding := hisWidth.padding_lt before.written.size
  refine ⟨gap + padding width before.written.size, hfills.positive, hfills.count, hfills.whole,
    ?_, ?_, by simp, fun _ => haligned, ?_⟩
  · rw [List.length_cons, Nat.mul_succ]
    omega
  · by_cases hempty : contents = []
    · have hnone := hfills.empty hempty
      omega
    · have hnone := hisWidth.padding_eq_zero (hfills.aligned hempty)
      have hless := hfills.gap_lt
      omega
  · apply ContentsAt.cons hwidth hcontent.placed
    by_cases hempty : contents = []
    · rw [hempty]
      exact ContentsAt.nil
    · have hnone := hisWidth.padding_eq_zero (hfills.aligned hempty)
      have hbehind : after.written.size - width = before.written.size := by omega
      rw [hbehind]
      exact hfills.elements.mono hputs.suffix

end OpenVector.Fills

namespace Build

variable {before : Builder} {opened : OpenVector} {width gap : ℕ} {contents : List Content}

theorem phase_of_openVector {count byteLength alignment : Number} {result : Unit} {after : Builder}
    (hresult : openVector count byteLength alignment before = .ok result after) :
    after.phase = .vector ⟨count, byteLength, after.written.size⟩ := by
  obtain ⟨_, counted, -, hresult⟩ := of_bind_ok hresult
  obtain ⟨_, padded, -, hresult⟩ := of_bind_ok hresult
  cases hresult
  rfl

theorem phase_of_startVector {elementSize count alignment : Number} {after : Builder}
    (hresult : startVector elementSize count alignment before = .ok () after) :
    after.phase = .vector ⟨count, elementSize * count, after.written.size⟩ := by
  obtain ⟨_, writable, -, hresult⟩ := of_bind_ok hresult
  obtain ⟨_, idle, -, hresult⟩ := of_bind_ok hresult
  split at hresult
  · cases hresult
  · exact phase_of_openVector hresult

/-- The count of a vector is a natural number. -/
theorem count_of_startVector {elementSize count alignment : Number} {after : Builder}
    (hresult : startVector elementSize count alignment before = .ok () after) :
    ∃ number, count.toNat? = some number := by
  obtain ⟨_, writable, -, hresult⟩ := of_bind_ok hresult
  obtain ⟨_, idle, -, hresult⟩ := of_bind_ok hresult
  cases hcount : count.toNat? with
  | some number => exact ⟨number, rfl⟩
  | none =>
      rw [hcount] at hresult
      cases hresult

theorem phase_of_endVector {after : Builder} {offset : ℕ}
    (hresult : endVector before = .ok offset after) :
    ∃ opened, before.phase = .vector opened := by
  obtain ⟨opened, hphase, -⟩ := of_endVector hresult
  exact ⟨opened, hphase⟩

/-- A vector that can be closed holds the contents that were written, and nothing else. -/
theorem endVector_adds (hsound : before.Sound) (hphase : before.phase = .vector opened)
    (hfills : opened.Fills before width gap contents) (bound : ℕ) :
    Writes endVector before False True bound
      fun offset after => before.Adds offset after ∧
        VectorAt after.written.bytes offset width contents := by
  apply (endVector_writes hsound).any
  rintro _ after ⟨rfl, other, word, hother, hlength, hword, hputs⟩
  obtain rfl : opened = other := Phase.vector.inj (hphase.symm.trans hother)
  obtain ⟨number, hnumber, hdeclared⟩ := hfills.count
  obtain rfl : word = number := Scalar.eq_of_word rfl hnumber hword
  have hbefore := hfills.size
  have hafter := hputs.size
  have hlimit := hputs.limited
  have hmaximum : Layout.maxBufferSize = 2147483647 := rfl
  simp only at hafter
  have hwhole := hfills.whole _ hlength
  rw [hdeclared] at hlength
  have hproduct := Number.mul_eq_of_toNat? hnumber hlength (by omega)
  -- What was written is a gap and some elements, and the gap is less than one of them.
  have hsum : gap + width * contents.length = width * word := by omega
  have hgap : gap = 0 := by
    have hmod := congrArg (· % width) hsum
    simp only [Nat.add_mul_mod_self_left, Nat.mul_mod_right] at hmod
    rwa [Nat.mod_eq_of_lt hfills.gap_lt] at hmod
  obtain rfl : contents.length = word := by
    rw [hgap, Nat.zero_add] at hsum
    exact Nat.eq_of_mul_eq_mul_left hfills.positive hsum
  have hnone : padding 4 before.written.size = 0 := by
    apply isWidth_four.padding_eq_zero
    have hsize : opened.start + (before.written.size - opened.start) = before.written.size := by
      omega
    rwa [hsize] at hwhole
  have hbehind : after.written.size - 4 = before.written.size := by omega
  have hadds := adds_of_puts rfl (hsound.inPhase .idle) hputs.puts (by omega)
    (.of_offset hputs.alignment)
  refine ⟨⟨hadds.suffix, hadds.idle, hadds.forceDefaults, hadds.sound, hadds.modest,
    hadds.positive, hadds.within⟩, hputs.placed, Scalar.word_lt hword, by omega, ?_⟩
  rw [hbehind]
  exact hfills.elements.mono hputs.puts.suffix

end Build

end GraphWire

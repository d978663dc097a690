import GraphWire.Proofs.Number.Decimal

/-!
# Texts of numbers

The text of a number is read by the grammar of decimal literals: digits with a point among or before
them, then an exponent with its sign.  Every layout of a decimal is read back as the same rational,
and so the text of a number is read as one that rounds to the number, with as few digits as any
other such text (`Number.read?_text`).  A natural number without a rounded unit is written by its
own digits (`Number.text_natCast`).
-/

namespace GraphWire

namespace Decimal

/-! ## Reading a literal -/

/-- What is before the first separator and what is after it. -/
def cut (separator : Char) : List Char → List Char × List Char
  | [] => ([], [])
  | char :: text =>
      if char = separator then ([], text)
      else (char :: (cut separator text).1, (cut separator text).2)

def readDigits? (text : List Char) : Option ℕ :=
  if !text.isEmpty && text.all Char.isDigit then some (Nat.ofDigitChars 10 text 0) else none

/-- The digits of a literal, each one behind the point counting down the exponent. -/
def readMantissa? (text : List Char) : Option Decimal :=
  let (whole, fraction) := cut '.' text
  (readDigits? (whole ++ fraction)).map fun digits => ⟨digits, -fraction.length⟩

def readExponent? : List Char → Option ℤ
  | [] => some 0
  | '+' :: digits => (readDigits? digits).map fun exponent : ℕ => (exponent : ℤ)
  | '-' :: digits => (readDigits? digits).map fun exponent : ℕ => -(exponent : ℤ)
  | _ => none

def read? (text : List Char) : Option Decimal := do
  let (mantissa, exponent) := cut 'e' text
  let decimal ← readMantissa? mantissa
  let scale ← readExponent? exponent
  some ⟨decimal.digits, decimal.exponent + scale⟩

section

variable {separator : Char} {front back whole fraction digits : List Char}

theorem cut_append (hfront : separator ∉ front) :
    cut separator (front ++ separator :: back) = (front, back) := by
  induction front with
  | nil => rw [List.nil_append, cut, if_pos rfl]
  | cons char front ih =>
      rw [List.mem_cons, not_or] at hfront
      rw [List.cons_append, cut, if_neg (Ne.symm hfront.1), ih hfront.2]

theorem cut_eq_self (hfront : separator ∉ front) : cut separator front = (front, []) := by
  induction front with
  | nil => rfl
  | cons char front ih =>
      rw [List.mem_cons, not_or] at hfront
      rw [cut, if_neg (Ne.symm hfront.1), ih hfront.2]

/-- Characters that are all decimal digits. -/
def AllDigits (text : List Char) : Prop :=
  ∀ char ∈ text, char.isDigit

theorem AllDigits.notMem (hdigits : AllDigits digits) {char : Char} (hchar : ¬char.isDigit) :
    char ∉ digits :=
  fun hmem => hchar (hdigits char hmem)

theorem AllDigits.append (hwhole : AllDigits whole) (hfraction : AllDigits fraction) :
    AllDigits (whole ++ fraction) := by
  intro char hmem
  rcases List.mem_append.mp hmem with hfirst | hsecond
  · exact hwhole char hfirst
  · exact hfraction char hsecond

theorem allDigits_toDigits (number : ℕ) : AllDigits (Nat.toDigits 10 number) :=
  fun _ hmem => Nat.isDigit_of_mem_toDigits (by decide) (by decide) hmem

theorem allDigits_zeros (count : ℕ) : AllDigits (List.replicate count '0') := by
  intro char hmem
  rw [List.eq_of_mem_replicate hmem]
  rfl

theorem readDigits?_eq (hdigits : AllDigits digits) (hnonempty : digits ≠ []) :
    readDigits? digits = some (Nat.ofDigitChars 10 digits 0) := by
  rw [readDigits?, if_pos]
  simpa [hnonempty, AllDigits] using hdigits

/-- A literal without an exponent, and what it reads as. -/
structure IsMantissa (text : List Char) (decimal : Decimal) : Prop where
  plain : 'e' ∉ text
  reads : readMantissa? text = some decimal

theorem isMantissa_digits (hdigits : AllDigits digits) (hnonempty : digits ≠ []) :
    IsMantissa digits ⟨Nat.ofDigitChars 10 digits 0, 0⟩ := by
  refine ⟨hdigits.notMem (by decide), ?_⟩
  rw [readMantissa?, cut_eq_self (hdigits.notMem (by decide))]
  simp only [List.append_nil, readDigits?_eq hdigits hnonempty]
  rfl

theorem isMantissa_point (hdigits : AllDigits (whole ++ fraction))
    (hnonempty : whole ++ fraction ≠ []) :
    IsMantissa (whole ++ '.' :: fraction)
      ⟨Nat.ofDigitChars 10 (whole ++ fraction) 0, -fraction.length⟩ := by
  have hwhole : AllDigits whole := fun char hmem => hdigits char (List.mem_append_left _ hmem)
  have hfraction : AllDigits fraction :=
    fun char hmem => hdigits char (List.mem_append_right _ hmem)
  constructor
  · rw [List.mem_append, List.mem_cons, not_or, not_or]
    exact ⟨hwhole.notMem (by decide), by decide, hfraction.notMem (by decide)⟩
  · rw [readMantissa?, cut_append (hwhole.notMem (by decide))]
    simp only [readDigits?_eq hdigits hnonempty]
    rfl

theorem IsMantissa.read? {mantissa : List Char} {decimal : Decimal}
    (hmantissa : IsMantissa mantissa decimal) : Decimal.read? mantissa = some decimal := by
  rw [Decimal.read?, cut_eq_self hmantissa.plain]
  simp [hmantissa.reads, readExponent?]

theorem IsMantissa.read?_exponent {mantissa exponent : List Char} {decimal : Decimal} {scale : ℤ}
    (hmantissa : IsMantissa mantissa decimal) (hscale : readExponent? exponent = some scale) :
    Decimal.read? (mantissa ++ 'e' :: exponent)
      = some ⟨decimal.digits, decimal.exponent + scale⟩ := by
  rw [Decimal.read?, cut_append hmantissa.plain]
  simp [hmantissa.reads, hscale]

end

/-! ## Layouts of digits -/

section

variable (number : ℕ)

theorem isMantissa_zeros (count : ℕ) :
    IsMantissa (Nat.toDigits 10 number ++ List.replicate count '0') ⟨10 ^ count * number, 0⟩ := by
  have hmantissa := isMantissa_digits ((allDigits_toDigits number).append (allDigits_zeros count))
    (List.append_ne_nil_of_left_ne_nil Nat.toDigits_ne_nil _)
  rwa [Nat.ofDigitChars_append, Nat.ofDigitChars_replicate_zero,
    Nat.ofDigitChars_ten_toDigits] at hmantissa

theorem isMantissa_take (count : ℕ) :
    IsMantissa ((Nat.toDigits 10 number).take count ++ '.' :: (Nat.toDigits 10 number).drop count)
      ⟨number, -((Nat.toDigits 10 number).drop count).length⟩ := by
  have hparts := List.take_append_drop count (Nat.toDigits 10 number)
  have hmantissa := isMantissa_point (hparts.symm ▸ allDigits_toDigits number)
    (hparts.symm ▸ Nat.toDigits_ne_nil)
  rwa [hparts, Nat.ofDigitChars_ten_toDigits] at hmantissa

theorem isMantissa_pointed :
    IsMantissa (DecimalLayout.pointed (Nat.toDigits 10 number))
      ⟨number, -((Nat.toDigits 10 number).drop 1).length⟩ := by
  have htake := isMantissa_take number 1
  have hdigits := isMantissa_digits (allDigits_toDigits number) Nat.toDigits_ne_nil
  rw [Nat.ofDigitChars_ten_toDigits] at hdigits
  generalize Nat.toDigits 10 number = digits at *
  match digits with
  | [] => exact ⟨by decide, htake.reads⟩
  | [_] => exact hdigits
  | _ :: _ :: _ => exact htake

theorem isMantissa_leadingZeros (count : ℕ) :
    IsMantissa ('0' :: '.' :: (List.replicate count '0' ++ Nat.toDigits 10 number))
      ⟨number, -(count + (Nat.toDigits 10 number).length : ℕ)⟩ := by
  have hdigits := ((allDigits_zeros 1).append (allDigits_zeros count)).append
    (allDigits_toDigits number)
  rw [List.append_assoc] at hdigits
  have hmantissa := isMantissa_point hdigits (by simp)
  rwa [Nat.ofDigitChars_append, Nat.ofDigitChars_append, Nat.ofDigitChars_replicate_zero,
    Nat.ofDigitChars_replicate_zero, Nat.mul_zero, Nat.ofDigitChars_ten_toDigits,
    List.length_append, List.length_replicate] at hmantissa

theorem readExponent?_signed (exponent : ℤ) :
    readExponent? (DecimalLayout.signed exponent) = some exponent := by
  have hread : readDigits? (Nat.toDigits 10 exponent.natAbs) = some exponent.natAbs := by
    rw [readDigits?_eq (allDigits_toDigits _) Nat.toDigits_ne_nil, Nat.ofDigitChars_ten_toDigits]
  unfold DecimalLayout.signed
  split
  · rw [readExponent?, hread, Option.map_some]
    congr 1
    omega
  · rw [readExponent?, hread, Option.map_some]
    congr 1
    omega

end

theorem toDigits_mul_pow {digits : ℕ} (hdigits : 0 < digits) (count : ℕ) :
    Nat.toDigits 10 (10 ^ count * digits)
      = Nat.toDigits 10 digits ++ List.replicate count '0' := by
  induction count with
  | zero => rw [pow_zero, Nat.one_mul, List.replicate_zero, List.append_nil]
  | succ count ih =>
      have hpositive : 0 < 10 ^ count * digits := by positivity
      have hlast := Nat.toDigits_append_toDigits (by decide) hpositive (show 0 < 10 by decide)
      rw [Nat.toDigits_zero, Nat.add_zero, ih, List.append_assoc,
        ← List.replicate_succ'] at hlast
      rw [pow_succ', Nat.mul_assoc, hlast]

end Decimal

/-- Every layout of a decimal is read back as the same rational. -/
theorem DecimalLayout.read?_text (layout : DecimalLayout) (decimal : Decimal) :
    ∃ read, Decimal.read? (layout.text decimal) = some read ∧ read.toRat = decimal.toRat := by
  obtain ⟨number, exponent⟩ := decimal
  unfold text
  dsimp only
  split
  · next hwhole =>
      refine ⟨_, (Decimal.isMantissa_zeros number _).read?, ?_⟩
      have hcount : ((Nat.toDigits 10 number).length + exponent
          - (Nat.toDigits 10 number).length : ℤ).toNat = exponent := by omega
      simp only [Decimal.toRat]
      push_cast
      rw [← zpow_natCast, hcount]
      ring
  split
  · next hwithin =>
      refine ⟨_, (Decimal.isMantissa_take number _).read?, ?_⟩
      simp only [Decimal.toRat, List.length_drop]
      congr 2
      omega
  split
  · next hfraction =>
      refine ⟨_, (Decimal.isMantissa_leadingZeros number _).read?, ?_⟩
      simp only [Decimal.toRat]
      congr 2
      omega
  · refine ⟨_, (Decimal.isMantissa_pointed number).read?_exponent
      (Decimal.readExponent?_signed _), ?_⟩
    have hpositive : 0 < (Nat.toDigits 10 number).length := Nat.length_toDigits_pos
    simp only [Decimal.toRat, List.length_drop]
    congr 2
    omega

theorem DecimalLayout.text_whole {layout : DecimalLayout} {digits count : ℕ}
    (hfits : (Nat.toDigits 10 digits).length + count ≤ layout.positions) :
    layout.text ⟨digits, count⟩ = Nat.toDigits 10 digits ++ List.replicate count '0' := by
  unfold text
  dsimp only
  rw [if_pos ⟨by omega, hfits⟩]
  congr 2
  omega

namespace Number

/-! ## The text of a number -/

/-- The rational that a text says. -/
def read? : List Char → Option ℚ
  | '-' :: text => (Decimal.read? text).map fun decimal => -decimal.toRat
  | text => (Decimal.read? text).map Decimal.toRat

theorem read?_minus (text : List Char) : Decimal.read? ('-' :: text) = none := by
  simp [Decimal.read?, Decimal.readMantissa?, Decimal.readDigits?, Decimal.cut]

theorem read?_of_decimal {text : List Char} {decimal : Decimal}
    (hread : Decimal.read? text = some decimal) : read? text = some decimal.toRat := by
  unfold read?
  split
  · next rest =>
      rw [read?_minus] at hread
      cases hread
  · rw [hread, Option.map_some]

/-- The text of a number is that of a magnitude, with a minus sign before it if the number has
one. -/
theorem toList_text {number : Number} {value : Dyadic} (hvalue : value.toRat ≠ 0)
    (hround : FloatFormat.binary64.round number = .finite value) :
    ∃ code, 0 < code ∧ code < FloatFormat.binary64.infinityCode ∧
      |value.toRat| = FloatFormat.binary64.codeValue code ∧
      number.text.toList =
        if value < 0 then
          '-' :: messageLayout.text (RoundingInterval.ofCode .binary64 code).shortest
        else messageLayout.text (RoundingInterval.ofCode .binary64 code).shortest := by
  have hnumber : number ≠ .nan := by
    rintro rfl
    have hnan : FloatFormat.binary64.round .nan = .nan := by decide
    rw [hnan] at hround
    cases hround
  obtain ⟨negative, code, hcode, hword⟩ := FloatFormat.binary64.encode_eq_signedWord hnumber
  have hencode := FloatFormat.binary64.encode_round number
  rw [hround, hword] at hencode
  have hread := FloatFormat.binary64.decode_signedWord negative hcode
  rw [← hword, ← FloatFormat.round, hround] at hread
  rcases hread with ⟨hinfinite, -⟩ | ⟨hread, hfinite⟩
  · cases hinfinite
  have hsize : |value.toRat| = FloatFormat.binary64.codeValue code := by
    rw [Option.some.inj hread, abs_mul, abs_of_nonneg (FloatFormat.codeValue_nonneg _ _)]
    cases negative <;> simp
  have hpositive : code ≠ 0 := by
    rintro rfl
    rw [FloatFormat.codeValue_zero, abs_eq_zero] at hsize
    exact hvalue hsize
  refine ⟨code, Nat.pos_of_ne_zero hpositive, hfinite, hsize, ?_⟩
  unfold text
  rw [hround]
  simp only [hencode, FloatFormat.signedWord_mod _ _ hcode, if_neg hpositive, String.toList_ofList]

/-- The text of a number is read as a decimal that rounds to the number rounded to binary64, and no
shorter one does. -/
theorem read?_text {number : Number} {value : Dyadic} (hvalue : value.toRat ≠ 0)
    (hround : FloatFormat.binary64.round number = .finite value) :
    ∃ code decimal, |value.toRat| = FloatFormat.binary64.codeValue code ∧
      FloatFormat.binary64.Shortest code decimal ∧
      read? number.text.toList = some (if value < 0 then -decimal.toRat else decimal.toRat) := by
  obtain ⟨code, hcode, hfinite, hsize, htext⟩ := toList_text hvalue hround
  obtain ⟨decimal, hread, hsame⟩ :=
    messageLayout.read?_text (RoundingInterval.ofCode .binary64 code).shortest
  refine ⟨code, _, hsize, FloatFormat.shortest_ofCode hcode hfinite, ?_⟩
  rw [htext, ← hsame]
  split
  · rw [read?, hread, Option.map_some]
  · exact read?_of_decimal hread

/-! ## Natural numbers -/

/-- A whole number below the first one that is rounded is shown by its digits. -/
theorem text_natCast {value : ℕ} (hsmall : value < 2 ^ 53) :
    (value : Number).text = Nat.repr value := by
  rcases Nat.eq_zero_or_pos value with rfl | hpositive
  · rfl
  have hround : FloatFormat.binary64.round (value : Number) = .finite (Dyadic.ofInt value) :=
    FloatFormat.binary64.round_eq_of_holds (FloatFormat.binary64.holds_ofInt hsmall)
  have hvalue : (Dyadic.ofInt value).toRat = value := toRat_ofInt value
  have hnonneg : ¬Dyadic.ofInt value < 0 := by
    rw [← Dyadic.toRat_lt_toRat_iff, hvalue, not_lt]
    exact Nat.cast_nonneg value
  obtain ⟨code, hcode, hfinite, hsize, htext⟩ :=
    toList_text (by rw [hvalue]; exact_mod_cast hpositive.ne') hround
  rw [hvalue, Nat.abs_cast] at hsize
  obtain ⟨digits, count, hshortest, rfl⟩ :=
    FloatFormat.shortest_natCast hcode hfinite hsize.symm hsmall
  have hshown := Decimal.toDigits_mul_pow (Nat.pos_of_mul_pos_left hpositive) count
  have hlength : (Nat.toDigits 10 (10 ^ count * digits)).length ≤ 21 := by
    rw [Nat.length_toDigits_le_iff (by decide) (by decide)]
    exact hsmall.trans (by decide)
  rw [hshown, List.length_append, List.length_replicate] at hlength
  rw [if_neg hnonneg, hshortest, DecimalLayout.text_whole (by simp only [messageLayout]; omega),
    ← hshown] at htext
  rw [← String.toList_inj, htext, Nat.toList_repr]

end Number

end GraphWire

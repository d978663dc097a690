import GraphWire.Proofs.Number.Arithmetic

/-!
# Words of rounded values

Several words may be read as not-a-number, but an encoder writes only one of them, and every other
value has a single word.  So a value that has been rounded is written as the word that it was read
from.
-/

namespace GraphWire.FloatFormat

variable (format : FloatFormat)

/-! ## Codes and values -/

theorem unpackCode_lt (code : ℕ) :
    (format.unpackCode code).1 < 2 ^ (format.fractionBits + 1) := by
  have hdouble : 2 ^ (format.fractionBits + 1) = 2 * 2 ^ format.fractionBits := Nat.pow_succ'
  have hfraction : code % 2 ^ format.fractionBits < 2 ^ format.fractionBits :=
    Nat.mod_lt _ (Nat.two_pow_pos _)
  unfold unpackCode
  dsimp only
  split <;> omega

/-- A code counts the units of all places below its own, and then those of its own. -/
theorem code_eq (code : ℕ) :
    ∃ places : ℕ, (format.unpackCode code).2 = format.leastExponent + places ∧
      code = places * 2 ^ format.fractionBits + (format.unpackCode code).1 ∧
      (places = 0 ∨ 2 ^ format.fractionBits ≤ (format.unpackCode code).1) := by
  have hparts := Nat.div_add_mod' code (2 ^ format.fractionBits)
  unfold unpackCode
  by_cases hsubnormal : code / 2 ^ format.fractionBits = 0
  · rw [hsubnormal, Nat.zero_mul, Nat.zero_add] at hparts
    rw [if_pos hsubnormal]
    exact ⟨0, by simp, by simp [hparts], .inl rfl⟩
  · rw [if_neg hsubnormal]
    refine ⟨code / 2 ^ format.fractionBits - 1, rfl, ?_, .inr (Nat.le_add_right _ _)⟩
    obtain ⟨places, hplaces⟩ := Nat.exists_eq_succ_of_ne_zero hsubnormal
    rw [hplaces, Nat.succ_mul] at hparts
    rw [hplaces, Nat.succ_sub_one]
    dsimp only
    omega

/-- From one code to the next the value grows by one unit in the last place. -/
theorem codeValue_succ (code : ℕ) :
    format.codeValue (code + 1) = format.codeValue code + 2 ^ (format.unpackCode code).2 := by
  obtain ⟨places, hplace, hcode, hfull⟩ := format.code_eq code
  have hunits := format.unpackCode_lt code
  have hnext : code + 1 = places * 2 ^ format.fractionBits + ((format.unpackCode code).1 + 1) := by
    omega
  rw [hnext, format.codeValue_units (by omega) (by omega), codeValue, hplace]
  push_cast
  ring

theorem codeValue_strictMono : StrictMono format.codeValue := by
  apply strictMono_nat_of_lt_succ
  intro code
  rw [codeValue_succ]
  exact lt_add_of_pos_right _ (by positivity)

theorem codeValue_injective : Function.Injective format.codeValue :=
  format.codeValue_strictMono.injective

theorem codeValue_nonneg (code : ℕ) : 0 ≤ format.codeValue code := by
  unfold codeValue
  positivity

theorem codeValue_zero : format.codeValue 0 = 0 := by
  simp [codeValue, unpackCode]

theorem codeValue_pos {code : ℕ} (hcode : code ≠ 0) : 0 < format.codeValue code := by
  rw [← format.codeValue_zero]
  exact format.codeValue_strictMono (Nat.pos_of_ne_zero hcode)

/-! ## Words -/

/-- Every number but not-a-number is written as a sign and a code up to that of the infinities. -/
theorem encode_eq_signedWord {number : Number} (hnumber : number ≠ .nan) :
    ∃ negative code, code ≤ format.infinityCode ∧
      format.encode number = format.signedWord negative code := by
  cases number with
  | nan => exact absurd rfl hnumber
  | infinity negative => exact ⟨negative, _, le_refl _, rfl⟩
  | negativeZero => exact ⟨true, 0, Nat.zero_le _, rfl⟩
  | finite value =>
      cases value with
      | zero => exact ⟨false, 0, Nat.zero_le _, rfl⟩
      | ofOdd odd precision hodd =>
          refine ⟨decide (odd < 0), _, format.magnitudeCode_le odd.natAbs (-precision), ?_⟩
          simp [encode, signedWord]

/-- Words that are read as one value are one word. -/
theorem signedWord_injective {negative negative' : Bool} {code code' : ℕ}
    (hcode : code ≤ format.infinityCode) (hcode' : code' ≤ format.infinityCode)
    (hsame : format.decode (format.signedWord negative code)
      = format.decode (format.signedWord negative' code')) :
    format.signedWord negative code = format.signedWord negative' code' := by
  rcases format.decode_signedWord negative hcode with ⟨hinfinite, rfl⟩ | ⟨hvalue, -⟩
  · rcases format.decode_signedWord negative' hcode' with ⟨hinfinite', rfl⟩ | ⟨hvalue', -⟩
    · rw [hinfinite, hinfinite'] at hsame
      cases hsame
      rfl
    · rw [← hsame, hinfinite] at hvalue'
      cases hvalue'
  · rcases format.decode_signedWord negative' hcode' with ⟨hinfinite', rfl⟩ | ⟨hvalue', -⟩
    · rw [hsame, hinfinite'] at hvalue
      cases hvalue
    · rw [hsame, hvalue', Option.some_inj] at hvalue
      have hunit (negative : Bool) : |if negative then (-1 : ℚ) else 1| = 1 := by
        cases negative <;> simp
      have hcodes : code' = code := by
        have hsizes := congrArg abs hvalue
        simp only [abs_mul, hunit, one_mul, abs_of_nonneg (format.codeValue_nonneg _)] at hsizes
        exact format.codeValue_injective hsizes
      subst hcodes
      by_cases hzero : code' = 0
      · subst hzero
        -- The two zeros have the same value and are told apart by the sign itself.
        cases negative <;> cases negative' <;>
          first | rfl | (cases format <;> exact absurd hsame (by decide))
      · have hpositive := format.codeValue_pos hzero
        have hsigns : negative = negative' := by
          by_contra hdiffers
          cases negative <;> cases negative' <;>
            simp only [not_true, if_true, Bool.false_eq_true, if_false] at hdiffers hvalue <;>
            linarith
        rw [hsigns]

/-- What has been rounded is written as the word that it is read from. -/
theorem encode_round (number : Number) :
    format.encode (format.round number) = format.encode number := by
  by_cases hnumber : number = .nan
  · subst hnumber
    cases format <;> decide
  obtain ⟨negative, code, hcode, hword⟩ := format.encode_eq_signedWord hnumber
  have hrounded : format.round number ≠ .nan := by
    intro hnan
    rw [round, hword] at hnan
    rcases format.decode_signedWord negative hcode with ⟨hinfinite, -⟩ | ⟨hvalue, -⟩
    · rw [hnan] at hinfinite
      cases hinfinite
    · rw [hnan] at hvalue
      cases hvalue
  obtain ⟨negative', code', hcode', hword'⟩ := format.encode_eq_signedWord hrounded
  rw [hword', hword]
  apply format.signedWord_injective hcode' hcode
  rw [← hword', ← hword]
  exact format.round_eq_of_holds (format.holds_decode _)

end GraphWire.FloatFormat

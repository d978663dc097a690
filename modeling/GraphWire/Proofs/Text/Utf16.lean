import GraphWire.Proofs.Text.Utf8
import GraphWire.Text.Utf16
import Mathlib.Tactic.Common

/-!
# Ids that are read back

A text of characters is the text of its units.  The other way round, units are those of their text
exactly if every surrogate among them has its partner, and that is what an id needs to be read back;
besides, a reader drops a byte order mark in front of it.
-/

namespace GraphWire.Utf16

/-! ## Surrogates -/

theorem isHighSurrogate_iff {unit : UInt16} :
    isHighSurrogate unit = true ↔ 0xD800 ≤ unit.toNat ∧ unit.toNat < 0xDC00 := by
  simp [isHighSurrogate, UInt16.le_iff_toNat_le, UInt16.lt_iff_toNat_lt]

theorem isLowSurrogate_iff {unit : UInt16} :
    isLowSurrogate unit = true ↔ 0xDC00 ≤ unit.toNat ∧ unit.toNat < 0xE000 := by
  simp [isLowSurrogate, UInt16.le_iff_toNat_le, UInt16.lt_iff_toNat_lt]

/-- Two surrogates stand for a character beyond the units. -/
theorem toNat_pair {high low : UInt16} (hhigh : isHighSurrogate high = true)
    (hlow : isLowSurrogate low = true) :
    (pair high low).toNat
      = 0x10000 + (high.toNat - 0xD800) * 0x400 + (low.toNat - 0xDC00) := by
  rw [isHighSurrogate_iff] at hhigh
  rw [isLowSurrogate_iff] at hlow
  have hvalid : Nat.isValidChar
      (0x10000 + (high.toNat - 0xD800) * 0x400 + (low.toNat - 0xDC00)) :=
    .inr (by omega)
  rw [pair, Char.ofNat, dif_pos hvalid]
  rfl

theorem unitsOf_pair {high low : UInt16} (hhigh : isHighSurrogate high = true)
    (hlow : isLowSurrogate low = true) : unitsOf (pair high low) = [high, low] := by
  have hcharacter := toNat_pair hhigh hlow
  rw [isHighSurrogate_iff] at hhigh
  rw [isLowSurrogate_iff] at hlow
  have hfirst : 0xD800 + ((pair high low).toNat - 0x10000) / 0x400 = high.toNat := by omega
  have hsecond : 0xDC00 + ((pair high low).toNat - 0x10000) % 0x400 = low.toNat := by omega
  have hlarge : ¬(pair high low).toNat < 0x10000 := by omega
  simp only [unitsOf, if_neg hlarge, hfirst, hsecond, UInt16.ofNat_toNat]

/-- A unit that is no half of a pair is the unit of its character, unless it is a surrogate. -/
theorem unitsOf_single (unit : UInt16) :
    unitsOf (single unit)
      = [if isHighSurrogate unit || isLowSurrogate unit then 0xFFFD else unit] := by
  unfold single
  split
  · decide
  · next hother =>
      rw [Bool.or_eq_true, isHighSurrogate_iff, isLowSurrogate_iff] at hother
      have hsize : unit.toNat < 0x10000 := unit.toNat_lt
      have hvalid : unit.toNat.isValidChar := by
        unfold Nat.isValidChar
        omega
      have hcharacter : (Char.ofNat unit.toNat).toNat = unit.toNat := by
        rw [Char.ofNat, dif_pos hvalid]
        rfl
      rw [unitsOf, hcharacter, if_pos hsize, UInt16.ofNat_toNat]

/-! ## Texts of units -/

theorem chars_cons {unit : UInt16} (hother : isHighSurrogate unit = false) (rest : List UInt16) :
    chars (unit :: rest) = single unit :: chars rest := by
  cases rest with
  | nil => rfl
  | cons next rest => simp [chars, hother]

theorem chars_unitsOf_append (character : Char) (rest : List UInt16) :
    chars (unitsOf character ++ rest) = character :: chars rest := by
  have hvalid : character.toNat.isValidChar := character.valid
  by_cases hsmall : character.toNat < 0x10000
  · have hunit : (UInt16.ofNat character.toNat).toNat = character.toNat :=
      Nat.mod_eq_of_lt hsmall
    have hhigh : isHighSurrogate (.ofNat character.toNat) = false := by
      rw [← Bool.not_eq_true, isHighSurrogate_iff, hunit]
      omega
    have hlow : isLowSurrogate (.ofNat character.toNat) = false := by
      rw [← Bool.not_eq_true, isLowSurrogate_iff, hunit]
      omega
    rw [unitsOf, if_pos hsmall, List.singleton_append, chars_cons hhigh, single, hhigh, hlow, hunit,
      Char.ofNat_toNat]
    rfl
  · obtain ⟨bits, hbits⟩ : ∃ bits, character.toNat = bits + 0x10000 :=
      ⟨character.toNat - 0x10000, by omega⟩
    let high : UInt16 := .ofNat (0xD800 + bits / 0x400)
    let low : UInt16 := .ofNat (0xDC00 + bits % 0x400)
    have hfirst : high.toNat = 0xD800 + bits / 0x400 := Nat.mod_eq_of_lt (by omega)
    have hsecond : low.toNat = 0xDC00 + bits % 0x400 := Nat.mod_eq_of_lt (by omega)
    have hhigh : isHighSurrogate high = true := by
      rw [isHighSurrogate_iff]
      omega
    have hlow : isLowSurrogate low = true := by
      rw [isLowSurrogate_iff]
      omega
    have hunits : unitsOf character = [high, low] := by
      rw [unitsOf, if_neg hsmall, hbits, Nat.add_sub_cancel]
    have hpair : pair high low = character := by
      rw [← Char.toNat_inj, toNat_pair hhigh hlow, hfirst, hsecond, hbits]
      omega
    simp only [hunits, List.cons_append, List.nil_append, chars, hhigh, hlow, Bool.and_self,
      if_true, hpair]

/-- A text of characters is the text of its units. -/
theorem text_ofString (source : String) : (ofString source).text = source := by
  have hchars (characters : List Char) : chars (characters.flatMap unitsOf) = characters := by
    induction characters with
    | nil => rfl
    | cons character rest ih => rw [List.flatMap_cons, chars_unitsOf_append, ih]
  rw [text, ofString, hchars, String.ofList_toList]

/-! ## Well-formed texts -/

/-- Whether every surrogate is half of a pair. -/
def paired : List UInt16 → Bool
  | [] => true
  | [unit] => !(isHighSurrogate unit || isLowSurrogate unit)
  | unit :: next :: rest =>
      if isHighSurrogate unit && isLowSurrogate next then paired rest
      else !(isHighSurrogate unit || isLowSurrogate unit) && paired (next :: rest)

/-- Whether no surrogate stands alone. -/
def WellFormed (source : Utf16) : Prop :=
  paired source.units = true

instance (source : Utf16) : Decidable source.WellFormed :=
  inferInstanceAs (Decidable (paired source.units = true))

theorem flatMap_chars_iff (units : List UInt16) :
    (chars units).flatMap unitsOf = units ↔ paired units = true := by
  have hsingle (unit : UInt16) (rest rest' : List UInt16) :
      unitsOf (single unit) ++ rest' = unit :: rest
        ↔ (!(isHighSurrogate unit || isLowSurrogate unit)) = true ∧ rest' = rest := by
    rw [unitsOf_single, List.singleton_append, List.cons_eq_cons]
    apply and_congr_left'
    cases hsurrogate : isHighSurrogate unit || isLowSurrogate unit with
    | false => simp
    | true =>
        refine iff_of_false ?_ nofun
        intro hunit
        rw [if_pos rfl] at hunit
        rw [← hunit] at hsurrogate
        exact absurd hsurrogate (by decide)
  fun_induction paired units with
  | case1 => exact iff_of_true rfl rfl
  | case2 unit =>
      have hlast := hsingle unit [] []
      rw [chars, List.flatMap_cons]
      simpa using hlast
  | case3 unit next rest hpair ih =>
      obtain ⟨hhigh, hlow⟩ := Bool.and_eq_true_iff.mp hpair
      rw [chars, if_pos hpair, List.flatMap_cons, unitsOf_pair hhigh hlow]
      simpa using ih
  | case4 unit next rest hpair ih =>
      rw [chars, if_neg hpair, List.flatMap_cons, hsingle, Bool.and_eq_true]
      exact and_congr_right fun _ => ih

/-- The units of a text are those it was made from exactly if no surrogate stood alone. -/
theorem ofString_text_iff (source : Utf16) : ofString source.text = source ↔ source.WellFormed := by
  obtain ⟨units⟩ := source
  rw [ofString, text, String.toList_ofList, mk.injEq]
  exact flatMap_chars_iff units

theorem wellFormed_ofString (source : String) : (ofString source).WellFormed := by
  rw [← ofString_text_iff, text_ofString]

/-! ## Ids after a round trip -/

/-- Whether a text begins with the unit of the byte order mark. -/
def Marked (source : Utf16) : Prop :=
  source.units.head? = some 0xFEFF

instance (source : Utf16) : Decidable source.Marked :=
  inferInstanceAs (Decidable (source.units.head? = some 0xFEFF))

/-- The id that is read for an id. -/
def reread (id : Utf16) : Utf16 :=
  ofString (Utf8.unmarked id.text)

theorem single_eq_mark_iff (unit : UInt16) : single unit = '\uFEFF' ↔ unit = 0xFEFF := by
  constructor
  · intro hmark
    have hunits := unitsOf_single unit
    rw [hmark] at hunits
    cases hsurrogate : isHighSurrogate unit || isLowSurrogate unit with
    | false =>
        rw [hsurrogate] at hunits
        exact (List.singleton_inj.mp hunits).symm
    | true =>
        rw [hsurrogate, if_pos rfl] at hunits
        exact absurd hunits (by decide)
  · rintro rfl
    decide

/-- Only the unit of the mark is the character of the mark. -/
theorem marked_text_iff (source : Utf16) : Utf8.Marked source.text ↔ source.Marked := by
  obtain ⟨units⟩ := source
  rw [Utf8.Marked, text, String.toList_ofList, Marked]
  dsimp only
  fun_cases chars units with
  | case1 => simp only [List.head?_nil, reduceCtorEq]
  | case2 unit => simp only [List.head?_cons, Option.some_inj, single_eq_mark_iff]
  | case3 unit next rest hpair =>
      obtain ⟨hhigh, hlow⟩ := Bool.and_eq_true_iff.mp hpair
      have hcharacter := toNat_pair hhigh hlow
      simp only [List.head?_cons, Option.some_inj]
      refine iff_of_false ?_ ?_
      · intro hmark
        rw [hmark] at hcharacter
        have hvalue : ('\uFEFF').toNat = 0xFEFF := rfl
        omega
      · rintro rfl
        exact absurd hhigh (by decide)
  | case4 unit next rest hpair => simp only [List.head?_cons, Option.some_inj, single_eq_mark_iff]

variable {id : Utf16}

theorem reread_eq (hformed : id.WellFormed) (hunmarked : ¬id.Marked) : id.reread = id := by
  rw [reread, Utf8.unmarked_eq (mt id.marked_text_iff.mp hunmarked),
    (ofString_text_iff id).mpr hformed]

end GraphWire.Utf16

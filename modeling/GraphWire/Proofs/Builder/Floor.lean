import GraphWire.Proofs.Builder.Frame
import GraphWire.Proofs.Builder.OpenTable
import GraphWire.Proofs.Builder.Progress
import GraphWire.Proofs.Reader.Agreement

/-!
# What is closed and what is open

Everything that has been closed lies behind the floor of a builder: where the open table or vector
was opened, or the end of what is written when nothing is open.  The floor never sinks, and a vector
or a string that is closed lies in front of it with its count and all its bytes
(`Builder.LaysRow`).
-/

namespace GraphWire

/-- The offset that no closed object is in front of. -/
def Builder.floor (builder : Builder) : ℕ :=
  match builder.phase with
  | .table opened => opened.start
  | .vector opened => opened.start
  | .idle | .finished => builder.written.size

/-- A builder with more in front of what it had, and with its floor no lower. -/
structure Builder.Rises (before after : Builder) : Prop where
  suffix : before.written.bytes <:+ after.written.bytes
  floor_le : before.floor ≤ after.floor
  within : after.floor ≤ after.written.size

/-- A builder after a row has been closed in front of everything that was closed before. -/
structure Builder.LaysRow (before : Builder) (row : Row) (after : Builder) : Prop where
  found : row.At after.written.bytes
  front : before.floor + (4 + row.size) ≤ row.offset

namespace Builder

variable {before after : Builder}

theorem floor_eq_size (hidle : before.phase = .idle) : before.floor = before.written.size := by
  rw [floor, hidle]

theorem size_le (hsuffix : before.written.bytes <:+ after.written.bytes) :
    before.written.size ≤ after.written.size := by
  rw [Region.size_eq, Region.size_eq]
  exact hsuffix.length_le

/-- Where nothing is opened or closed the floor stays, or rises with what is written. -/
theorem Rises.of_phase (hphase : after.phase = before.phase)
    (hsuffix : before.written.bytes <:+ after.written.bytes)
    (hwithin : before.floor ≤ before.written.size) : before.Rises after := by
  have hsize := size_le hsuffix
  refine ⟨hsuffix, ?_, ?_⟩
  · unfold floor
    rw [hphase]
    cases before.phase with
    | idle | finished => exact hsize
    | table opened => exact le_refl _
    | vector opened => exact le_refl _
  · unfold floor at hwithin ⊢
    rw [hphase]
    cases hbefore : before.phase with
    | idle | finished => exact le_refl _
    | table opened | vector opened =>
        rw [hbefore] at hwithin
        exact hwithin.trans hsize

/-- What closes everything, or opens something, has its floor where it stops writing. -/
theorem Rises.of_floor (hsuffix : before.written.bytes <:+ after.written.bytes)
    (hwithin : before.floor ≤ before.written.size) (hfloor : after.floor = after.written.size) :
    before.Rises after :=
  ⟨hsuffix, hfloor ▸ hwithin.trans (size_le hsuffix), hfloor.le⟩

end Builder

namespace Build

variable {before after : Builder} {offset : ℕ}

/-! ## Fields -/

/-- A field takes the width of what is kept of it. -/
theorem size_of_addField {slot : Number} {field : Field} {content : Content}
    (hkept : field.kept before.forceDefaults = some content)
    (hresult : addField slot field before = .ok () after) :
    before.written.size + content.width ≤ after.written.size := by
  obtain ⟨opened, index, taken, -, -, -, rfl, ⟨hkeeps, -⟩ | ⟨hkeeps, written, hwritten, hnoted⟩⟩ :=
    of_addField hresult
  · cases (Field.kept_of_not_keeps hkeeps).symm.trans hkept
  · cases (Field.kept_of_keeps hkeeps).symm.trans hkept
    have hsize := size_le_of_field hwritten
    rcases noteEntry_cases index written with ⟨opened, -, hdone⟩ | ⟨-, hdone⟩
    · rw [hdone] at hnoted
      cases hnoted
      exact hsize
    · rw [hdone] at hnoted
      cases hnoted
      exact hsize

/-! ## Vectors and strings -/

/-- The vector that is open is closed with its count in front of its elements. -/
theorem endVector_row (hsound : before.Sound) (hwithin : before.floor ≤ before.written.size)
    {opened : OpenVector} (hphase : before.phase = .vector opened) {count : ℕ}
    (hcount : opened.count.toNat? = some count)
    (hresult : endVector before = .ok offset after) :
    before.LaysRow ⟨offset, count, opened.byteLength.toNat?.getD 0⟩ after := by
  obtain ⟨rfl, other, word, hother, hlength, hword, hputs⟩ := (endVector_writes hsound).ok hresult
  obtain rfl : opened = other := Phase.vector.inj (hphase.symm.trans hother)
  obtain rfl : word = count := Scalar.eq_of_word rfl hcount hword
  have hsize : after.written.size = 4 + padding 4 before.written.size + before.written.size :=
    hputs.size
  have hfloor : before.floor = opened.start := by rw [Builder.floor, hphase]
  rw [hlength, Option.getD_some]
  refine ⟨⟨hputs.placed, Scalar.word_lt hword, ?_⟩, ?_⟩
  · simp only
    omega
  · simp only
    omega

/-- A vector that is written whole takes its count and its elements at least. -/
theorem room_of_vectorOf {width count : ℕ} {elements : Build Unit}
    (helements : Leads Builder.Continues elements)
    (hresult : vectorOf width count elements before = .ok offset after) :
    before.written.size + (4 + width * count) ≤ offset := by
  have hidle := idle_of_begin hresult
  rw [vectorOf, begin_eq hidle] at hresult
  obtain ⟨_, opened, hopened, hresult⟩ := of_bind_ok hresult
  obtain ⟨_, filled, hfilled, hresult⟩ := of_bind_ok hresult
  have hpadded := Builder.size_le (extending_operates.openVector _ _ _ hopened).suffix
  have hgrown := helements.ok hfilled
  have hphase := hgrown.phase.trans (phase_of_openVector hopened)
  have hfilled := hgrown.size_le
  obtain ⟨other, hother, hlength, hcounted, rfl⟩ := of_endVector hresult
  obtain rfl := Phase.vector.inj (hphase.symm.trans hother)
  have hcount : filled.written.size + 4 ≤ after.written.size := size_le_of_write hcounted
  rw [Number.toNat?_natCast, Option.some.injEq] at hlength
  simp only at hlength
  omega

/-- A vector is a row in front of what was there. -/
theorem Element.vector_row {α : Type} (element : Element α) (items : List α)
    (hsound : before.Sound) (hone : ∀ item, Leads Builder.Continues (element.writeOne item))
    (hresult : vectorOf element.width items.length (writeAll element.writeOne items) before
      = .ok offset after) :
    before.LaysRow ⟨offset, items.length, element.width * items.length⟩ after := by
  obtain ⟨-, hvector⟩ := (element.vector_writes items hsound).ok hresult
  have hcount := hvector.count
  have hsmall := hvector.small
  have hroom := hvector.room
  rw [List.length_map] at hcount hsmall hroom
  refine ⟨⟨hcount, hsmall, hroom⟩, ?_⟩
  rw [Builder.floor_eq_size (idle_of_begin hresult)]
  exact room_of_vectorOf (continues_prepends.writeAll hone items) hresult

/-- A string is a row in front of what was there. -/
theorem stringBytes_row (hsound : before.Sound) (text : List UInt8)
    (hresult : stringBytes text before = .ok offset after) :
    before.LaysRow ⟨offset, text.length, text.length⟩ after := by
  obtain ⟨-, hstring⟩ := (stringBytes_writes hsound text).ok hresult
  have hidle := idle_of_begin hresult
  rw [stringBytes, begin_eq hidle] at hresult
  obtain ⟨_, ended, hended, hresult⟩ := of_bind_ok hresult
  have hended := ((continues_prepends.write _ _).ok hended).size_le
  have hroom := room_of_vectorOf (continues_prepends.push text) hresult
  have hfloor := Builder.floor_eq_size hidle
  refine ⟨⟨hstring.placed.left, hstring.small, ?_⟩, ?_⟩
  · simp only
    omega
  · simp only
    omega

end Build

end GraphWire

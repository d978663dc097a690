import GraphWire.Proofs.Builder.Space

/-!
# Contents

What a caller puts at a place: a scalar, or a reference to something that is in the buffer already.
A content is written in front of everything else, stays at its offset, and is read back from any
window over the finished bytes.
-/

namespace GraphWire

instance Scalar.decidableEqValue : (type : Scalar) → DecidableEq type.Value
  | .integer _ => inferInstanceAs (DecidableEq Number)
  | .flag => inferInstanceAs (DecidableEq Bool)
  | .long _ => inferInstanceAs (DecidableEq ℤ)
  | .float _ => inferInstanceAs (DecidableEq Number)

/-- A scalar, or the offset of what a reference leads to. -/
inductive Content where
  | scalar (type : Scalar) (value : type.Value)
  | reference (target : ℕ)
deriving DecidableEq

namespace Content

def width : Content → ℕ
  | scalar type _ => type.width
  | reference _ => 4

theorem isWidth (content : Content) : IsWidth content.width := by
  cases content with
  | scalar type value => exact type.isWidth
  | reference target => exact isWidth_four

/-- The content is stored at an offset. -/
def PlacedAt (bytes : List UInt8) (offset : ℕ) : Content → Prop
  | scalar type value => ∃ word, type.word value = .ok word ∧
      Placed bytes (LittleEndian.split type.width word) offset
  | reference target => 0 < target ∧ target < offset ∧ offset ≤ Layout.maxBufferSize ∧
      Placed bytes (LittleEndian.split 4 (offset - target)) offset

/-- The content is what a reader finds at a position: the stored value of a scalar, or the position
of the target of a reference. -/
def ReadAt (window : Window) (position : Number) : Content → Prop
  | scalar type value => window.read type position = .ok (type.stored value)
  | reference target => window.indirect position = .ok (window.length - target)

variable {bytes : List UInt8} {offset : ℕ} {content : Content}

theorem PlacedAt.mono {more : List UInt8} (hplaced : content.PlacedAt bytes offset)
    (hsuffix : bytes <:+ more) : content.PlacedAt more offset := by
  cases content with
  | scalar type value =>
      obtain ⟨word, hword, hchunk⟩ := hplaced
      exact ⟨word, hword, hchunk.mono hsuffix⟩
  | reference target =>
      obtain ⟨hpositive, hbelow, hlimit, hchunk⟩ := hplaced
      exact ⟨hpositive, hbelow, hlimit, hchunk.mono hsuffix⟩

theorem PlacedAt.readAt {window : Window} (hplaced : content.PlacedAt window.toList offset) :
    content.ReadAt window (window.length - offset : ℕ) := by
  cases content with
  | scalar type value =>
      obtain ⟨word, hword, hchunk⟩ := hplaced
      change window.read type _ = _
      rw [Window.read_placed hchunk (Scalar.word_lt hword), Scalar.ofWord_word hword]
  | reference target =>
      obtain ⟨hpositive, hbelow, hlimit, hchunk⟩ := hplaced
      have hword := Layout.maxBufferSize_lt
      exact Window.indirect_placed hchunk hpositive (by omega) (by omega)

end Content

/-- A builder after a content has been written at its own alignment. -/
structure Builder.PutsContent (before : Builder) (content : Content) (after : Builder) : Prop where
  word : ∃ word, before.PutsWord content.width word after
  placed : content.PlacedAt after.written.bytes after.written.size

namespace Builder.PutsContent

variable {before after : Builder} {content : Content}

theorem puts (hcontent : before.PutsContent content after) :
    ∃ front, before.Puts front after := by
  obtain ⟨word, hword⟩ := hcontent.word
  exact ⟨_, hword.puts⟩

theorem size (hcontent : before.PutsContent content after) :
    after.written.size
      = content.width + padding content.width before.written.size + before.written.size := by
  obtain ⟨word, hword⟩ := hcontent.word
  exact hword.size

theorem aligned (hcontent : before.PutsContent content after) :
    content.width ∣ after.written.size := by
  obtain ⟨word, hword⟩ := hcontent.word
  exact hword.aligned

theorem limited (hcontent : before.PutsContent content after) :
    after.written.size ≤ Layout.maxBufferSize := by
  obtain ⟨word, hword⟩ := hcontent.word
  exact hword.limited

theorem modest (hcontent : before.PutsContent content after) : before.KeepsModest after := by
  obtain ⟨word, hword⟩ := hcontent.word
  exact hword.modest content.isWidth

end Builder.PutsContent

namespace Build

variable {before : Builder}

theorem write_content (hsound : before.Sound) (type : Scalar) (value : type.Value) :
    Writes (write type value) before (before.phase ≠ .finished) (type.Fits value)
      (before.written.size + padding type.width before.written.size + type.width)
      fun _ after => before.PutsContent (.scalar type value) after := by
  apply (write_writes hsound type value).mono id Iff.rfl (le_refl _)
  rintro _ after ⟨word, hword, hputs⟩
  exact ⟨⟨word, hputs⟩, word, hword, hputs.placed⟩

theorem writeOffset_content (hsound : before.Sound) (target : Number) :
    Writes (writeOffset target) before
      (before.phase ≠ .finished ∧ Reaches before.written.size target) True
      (before.written.size + padding 4 before.written.size + 4)
      fun _ after => ∃ offset, target.toNat? = some offset ∧
        before.PutsContent (.reference offset) after := by
  apply (writeOffset_writes hsound target).mono id Iff.rfl (le_refl _)
  rintro _ after ⟨offset, htarget, hpositive, hbelow, hputs⟩
  exact ⟨offset, htarget, ⟨_, hputs⟩, hpositive, hbelow, hputs.limited, hputs.placed⟩

end Build

end GraphWire

import GraphWire.Proofs.Builder.Laws
import Mathlib.Data.List.Infix

/-!
# What building leaves alone

Whatever an operation writes it puts in front of what is there, and the vtables that are remembered
and counted are no matter of any operation but the one that closes a table.  This holds for all
arguments: each operation that succeeds extends the builder (`Build.Extending`).
-/

namespace GraphWire

/-- A builder after more bytes have been written in front, with the vtables that it had. -/
structure Builder.Extends (before after : Builder) : Prop where
  suffix : before.written.bytes <:+ after.written.bytes
  dedupeVtables : after.dedupeVtables = before.dedupeVtables
  vtables : after.vtables = before.vtables
  vtableCount : after.vtableCount = before.vtableCount

namespace Builder.Extends

variable {before middle after : Builder}

theorem refl (builder : Builder) : builder.Extends builder :=
  ⟨List.suffix_refl _, rfl, rfl, rfl⟩

theorem trans (hfirst : before.Extends middle) (hsecond : middle.Extends after) :
    before.Extends after where
  suffix := hfirst.suffix.trans hsecond.suffix
  dedupeVtables := hsecond.dedupeVtables.trans hfirst.dedupeVtables
  vtables := hsecond.vtables.trans hfirst.vtables
  vtableCount := hsecond.vtableCount.trans hfirst.vtableCount

end Builder.Extends

namespace Build

/-- An operation that extends every builder on which it succeeds. -/
def Extending {α : Type} (computation : Build α) : Prop :=
  ∀ ⦃before value after⦄, computation before = .ok value after → before.Extends after

variable {α : Type}

/-- What extends and what is written hold together. -/
theorem Writes.extending {computation : Build α} {before : Builder} {legal fits : Prop} {bound : ℕ}
    {post : α → Builder → Prop} (hwrites : Writes computation before legal fits bound post)
    (hextending : Extending computation) :
    Writes computation before legal fits bound fun value after =>
      before.Extends after ∧ post value after := by
  simp only [Writes] at hwrites ⊢
  cases hresult : computation before with
  | ok value after =>
      rw [hresult] at hwrites
      exact ⟨hwrites.1, hwrites.2.1, hextending hresult, hwrites.2.2⟩
  | error error after =>
      rw [hresult] at hwrites
      exact hwrites

/-! ## Operations -/

/-- A change of the builder that extends it. -/
theorem Extending.change {change : Builder → Builder}
    (hchange : ∀ builder : Builder, builder.Extends (change builder)) :
    Extending (modify change) := by
  rintro before _ _ ⟨⟩
  exact hchange before

theorem Extending.throw (error : BuildError) :
    Extending (MonadExcept.throw error : Build α) := by
  rintro before _ _ ⟨⟩

theorem Extending.pure (value : α) : Extending (Pure.pure value) := by
  rintro before _ _ ⟨⟩
  exact .refl before

theorem Extending.step {β : Type} {first : Build α} {next : α → Build β}
    (hfirst : Extending first)
    (hnext : ∀ ⦃before value after⦄, first before = .ok value after → Extending (next value)) :
    Extending (first >>= next) := by
  intro before result after hresult
  obtain ⟨value, middle, hmiddle, hlast⟩ := of_bind_ok hresult
  exact (hfirst hmiddle).trans (hnext hmiddle hlast)

theorem ensureCapacity_extending (required : ℕ) : Extending (ensureCapacity required) := by
  intro before _ after hresult
  rw [ensureCapacity_eq] at hresult
  split at hresult
  · cases hresult
  · cases hresult
    exact ⟨List.suffix_refl _, rfl, rfl, rfl⟩

/-- Whatever is made of the steps of a builder extends it, unless it closes a table. -/
theorem extending_operates : Operates @Extending where
  pure := .pure
  throw := fun _ => .throw _
  step := Extending.step
  look := fun _ hnext before _ _ hresult => hnext before hresult
  ensureCapacity := ensureCapacity_extending
  push := fun _ => .change fun _ => ⟨List.suffix_append _ _, rfl, rfl, rfl⟩
  noteAlignment := fun _ => .change fun _ => ⟨List.suffix_refl _, rfl, rfl, rfl⟩
  close := .change fun _ => ⟨List.suffix_refl _, rfl, rfl, rfl⟩
  enclose := fun _ _ => .change fun _ => ⟨List.suffix_refl _, rfl, rfl, rfl⟩
  tabulates := fun _ _ => .change fun _ => ⟨List.suffix_refl _, rfl, rfl, rfl⟩

theorem startVector_extending (elementSize count alignment : Number) :
    Extending (startVector elementSize count alignment) :=
  extending_operates.startVector (fun _ => .throw _) elementSize count alignment

theorem finish_extending (root : Number) (options : FinishOptions) :
    Extending (finish root options) := by
  have hmark : Extending (markFinished options.identifier) :=
    .change fun _ => ⟨List.suffix_refl _, rfl, rfl, rfl⟩
  exact extending_operates.finish (extending_operates.beginHead (fun _ => .throw _) options) hmark

end Build

end GraphWire

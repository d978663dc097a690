import GraphWire.Builder.Basic
import Mathlib.Data.Nat.Notation

/-!
# What a step of building may do

A computation on a builder is described by what holds after it succeeds and by the errors that it
can end in.  A caller that keeps to the protocol meets only two kinds of error: a number that its
type cannot hold, and a buffer that would have to grow past the limit.
-/

namespace GraphWire

/-- Over a region the offset of the latest object is the size of the region. -/
@[simp]
theorem Builder.offset_eq (builder : Builder) : builder.offset = builder.written.size := rfl

namespace Build

/-- The errors of a caller that keeps to the protocol, when the numbers to write fit or not and when
the buffer may need some number of bytes. -/
def Refuses (fits : Prop) (bound : ℕ) : BuildError → Prop
  | .unrepresentable _ => ¬fits
  | .capacityLimit => Layout.maxBufferSize < bound
  | _ => False

/-- What a computation does from a builder on.  Whenever it succeeds, its numbers fit and `post`
holds.  When the call is legal the written bytes stay below the bound, and an error is one of the
two that the numbers and the bound allow. -/
def Writes {α : Type} (computation : Build α) (before : Builder) (legal fits : Prop) (bound : ℕ)
    (post : α → Builder → Prop) : Prop :=
  match computation before with
  | .ok value after => fits ∧ (legal → after.written.size ≤ bound) ∧ post value after
  | .error error _ => legal → Refuses fits bound error

section

variable {σ α β : Type} {first : BuildOver σ α} {next : α → BuildOver σ β}
  {before after : Builder σ}

/-- A computation that looks at the builder continues with it. -/
theorem get_bind_apply (next : Builder σ → BuildOver σ α) (builder : Builder σ) :
    (MonadState.get >>= next) builder = next builder builder :=
  rfl

/-- A computation that changes the builder continues with the changed one. -/
theorem modify_bind_apply (change : Builder σ → Builder σ) (next : Unit → BuildOver σ α)
    (builder : Builder σ) : (modify change >>= next) builder = next () (change builder) :=
  rfl

/-- After a success the rest follows. -/
theorem bind_of_ok {value : α} (hfirst : first before = .ok value after) :
    (first >>= next) before = next value after := by
  simp only [bind, EStateM.bind, hfirst]

/-- Nothing follows an error. -/
theorem bind_of_error {error : BuildError} (hfirst : first before = .error error after) :
    (first >>= next) before = .error error after := by
  simp only [bind, EStateM.bind, hfirst]

/-- What has succeeded did so step by step. -/
theorem of_bind_ok {result : β} (hresult : (first >>= next) before = .ok result after) :
    ∃ value middle, first before = .ok value middle ∧ next value middle = .ok result after := by
  cases hfirst : first before with
  | ok value middle =>
      rw [bind_of_ok hfirst] at hresult
      exact ⟨value, middle, rfl, hresult⟩
  | error error middle =>
      rw [bind_of_error hfirst] at hresult
      cases hresult

end

theorem Refuses.mono {fits fits' : Prop} {bound bound' : ℕ} {error : BuildError}
    (hrefuses : Refuses fits bound error) (hfits : fits' → fits) (hbound : bound ≤ bound') :
    Refuses fits' bound' error := by
  cases error with
  | unrepresentable refused => exact fun hall => hrefuses (hfits hall)
  | capacityLimit => exact Nat.lt_of_lt_of_le hrefuses hbound
  | _ => exact hrefuses

namespace Writes

variable {α β : Type} {before : Builder} {legal : Prop} {bound : ℕ}

theorem bind {first : Build α} {next : α → Build β} {fits fits' : Prop} {bound' : ℕ}
    {between : α → Builder → Prop} {post : β → Builder → Prop}
    (hfirst : Writes first before legal fits bound' between) (hbound : bound' ≤ bound)
    (hnext : ∀ value after, between value after → (legal → after.written.size ≤ bound') →
      Writes (next value) after legal fits' bound post) :
    Writes (first >>= next) before legal (fits ∧ fits') bound post := by
  simp only [Writes] at hfirst ⊢
  cases hresult : first before with
  | ok value after =>
      rw [hresult] at hfirst
      obtain ⟨hfits, hsize, hbetween⟩ := hfirst
      have hlater := hnext value after hbetween hsize
      simp only [Writes] at hlater
      rw [bind_of_ok hresult]
      cases hlast : next value after with
      | ok result last =>
          rw [hlast] at hlater
          exact ⟨⟨hfits, hlater.1⟩, hlater.2⟩
      | error error last =>
          rw [hlast] at hlater
          exact fun hlegal => (hlater hlegal).mono And.right (Nat.le_refl _)
  | error error last =>
      rw [hresult] at hfirst
      rw [bind_of_error hresult]
      exact fun hlegal => (hfirst hlegal).mono And.left hbound

/-- A weaker description: fewer calls are legal, the bound is larger, less holds at the end. -/
theorem mono {computation : Build α} {legal' fits fits' : Prop} {bound' : ℕ}
    {post post' : α → Builder → Prop}
    (hwrites : Writes computation before legal' fits bound' post) (hlegal : legal → legal')
    (hfits : fits ↔ fits') (hbound : bound' ≤ bound)
    (hpost : ∀ value after, post value after → post' value after) :
    Writes computation before legal fits' bound post' := by
  simp only [Writes] at hwrites ⊢
  cases hresult : computation before with
  | ok value after =>
      rw [hresult] at hwrites
      obtain ⟨hall, hsize, hend⟩ := hwrites
      refine ⟨hfits.mp hall, ?_, hpost value after hend⟩
      intro hcall
      exact Nat.le_trans (hsize (hlegal hcall)) hbound
  | error error after =>
      rw [hresult] at hwrites
      exact fun hcall => (hwrites (hlegal hcall)).mono hfits.mpr hbound

section

variable {computation : Build α} {fits : Prop} {post : α → Builder → Prop}

theorem of_legal {legal' : Prop} (hwrites : Writes computation before legal' fits bound post)
    (hlegal : legal → legal') : Writes computation before legal fits bound post :=
  hwrites.mono hlegal Iff.rfl (Nat.le_refl _) fun _ _ hpost => hpost

theorem of_fits {fits' : Prop} (hwrites : Writes computation before legal fits' bound post)
    (hfits : fits' ↔ fits) : Writes computation before legal fits bound post :=
  hwrites.mono id hfits (Nat.le_refl _) fun _ _ hpost => hpost

theorem of_bound {bound' : ℕ} (hwrites : Writes computation before legal fits bound' post)
    (hbound : bound' ≤ bound) : Writes computation before legal fits bound post :=
  hwrites.mono id Iff.rfl hbound fun _ _ hpost => hpost

/-- A bound that is as large whenever the call is legal. -/
theorem of_legal_bound {bound' : ℕ} (hwrites : Writes computation before legal fits bound' post)
    (hbound : legal → bound' ≤ bound) : Writes computation before legal fits bound post := by
  simp only [Writes] at hwrites ⊢
  cases hresult : computation before with
  | ok value after =>
      rw [hresult] at hwrites
      exact ⟨hwrites.1, fun hlegal => Nat.le_trans (hwrites.2.1 hlegal) (hbound hlegal),
        hwrites.2.2⟩
  | error error after =>
      rw [hresult] at hwrites
      exact fun hlegal => (hwrites hlegal).mono id (hbound hlegal)

theorem congr {other : Build α} (hwrites : Writes other before legal fits bound post)
    (hsame : computation before = other before) :
    Writes computation before legal fits bound post := by
  simp only [Writes, hsame] at hwrites ⊢
  exact hwrites

theorem imp {post' : α → Builder → Prop} (hwrites : Writes computation before legal fits bound post)
    (hpost : ∀ value after, post value after → post' value after) :
    Writes computation before legal fits bound post' :=
  hwrites.mono id Iff.rfl (Nat.le_refl _) hpost

/-- The numbers of a step that has succeeded fit. -/
theorem fitted (hwrites : Writes computation before legal fits bound post) :
    Writes computation before legal fits bound fun value after => fits ∧ post value after := by
  simp only [Writes] at hwrites ⊢
  cases hresult : computation before with
  | ok value after =>
      rw [hresult] at hwrites
      exact ⟨hwrites.1, hwrites.2.1, hwrites.1, hwrites.2.2⟩
  | error error after =>
      rw [hresult] at hwrites
      exact hwrites

/-- Numbers that fit in every legal call are no reason for an error. -/
theorem of_fitting (hwrites : Writes computation before legal fits bound post)
    (hfitting : legal → fits) : Writes computation before legal True bound post := by
  simp only [Writes] at hwrites ⊢
  cases hresult : computation before with
  | ok value after =>
      rw [hresult] at hwrites
      exact ⟨trivial, hwrites.2⟩
  | error error after =>
      rw [hresult] at hwrites
      intro hlegal
      exact (hwrites hlegal).mono (fun _ => hfitting hlegal) (Nat.le_refl _)

end

/-- A step that has no numbers of its own to write. -/
theorem bind_true {first : Build α} {next : α → Build β} {fits : Prop} {bound' : ℕ}
    {between : α → Builder → Prop} {post : β → Builder → Prop}
    (hfirst : Writes first before legal True bound' between) (hbound : bound' ≤ bound)
    (hnext : ∀ value after, between value after → (legal → after.written.size ≤ bound') →
      Writes (next value) after legal fits bound post) :
    Writes (first >>= next) before legal fits bound post :=
  (bind hfirst hbound hnext).of_fits (Iff.of_eq (true_and fits))

theorem pure {value : α} {post : α → Builder → Prop} (hpost : post value before)
    (hbound : legal → before.written.size ≤ bound) :
    Writes (Pure.pure value) before legal True bound post :=
  ⟨trivial, hbound, hpost⟩

/-- A step whose result is only put into another form. -/
theorem bind_pure {first : Build α} {form : α → β} {fits : Prop} {between : α → Builder → Prop}
    {post : β → Builder → Prop} (hfirst : Writes first before legal fits bound between)
    (hpost : ∀ value after, between value after → post (form value) after) :
    Writes (first >>= fun value => Pure.pure (form value)) before legal fits bound post :=
  (bind hfirst (Nat.le_refl _) fun value after hbetween hbound =>
    pure (hpost value after hbetween) hbound).of_fits (Iff.of_eq (and_true fits))

/-- An error that a legal call does not meet. -/
theorem throw {fits : Prop} {error : BuildError} {post : α → Builder → Prop}
    (herror : legal → Refuses fits bound error) :
    Writes (MonadExcept.throw error : Build α) before legal fits bound post :=
  herror

/-- Looking at the builder. -/
theorem get_bind {next : Builder → Build β} {fits : Prop} {post : β → Builder → Prop}
    (hnext : Writes (next before) before legal fits bound post) :
    Writes (MonadState.get >>= next) before legal fits bound post :=
  hnext

/-- Replacing the builder. -/
theorem set {builder : Builder} {post : PUnit → Builder → Prop} (hpost : post ⟨⟩ builder)
    (hbound : legal → builder.written.size ≤ bound) :
    Writes (MonadStateOf.set builder : Build PUnit) before legal True bound post :=
  ⟨trivial, hbound, hpost⟩

theorem set_bind {builder : Builder} {next : PUnit → Build β} {fits : Prop}
    {post : β → Builder → Prop} (hnext : Writes (next ⟨⟩) builder legal fits bound post) :
    Writes (MonadStateOf.set builder >>= next) before legal fits bound post :=
  hnext

/-- Changing the builder. -/
theorem change {change : Builder → Builder} {post : Unit → Builder → Prop}
    (hpost : post () (change before)) (hbound : legal → (change before).written.size ≤ bound) :
    Writes (modify change) before legal True bound post :=
  ⟨trivial, hbound, hpost⟩

theorem modify_bind {change : Builder → Builder} {next : Unit → Build β} {fits : Prop}
    {post : β → Builder → Prop}
    (hnext : Writes (next ()) (change before) legal fits bound post) :
    Writes (modify change >>= next) before legal fits bound post := by
  exact hnext

/-- What holds after a success, whatever is legal. -/
theorem any {computation : Build α} {fits : Prop} {bound' : ℕ} {post post' : α → Builder → Prop}
    (hwrites : Writes computation before legal fits bound post)
    (hpost : ∀ value after, post value after → post' value after) :
    Writes computation before False fits bound' post' := by
  simp only [Writes] at hwrites ⊢
  cases hresult : computation before with
  | ok value after =>
      rw [hresult] at hwrites
      exact ⟨hwrites.1, False.elim, hpost value after hwrites.2.2⟩
  | error error after => exact False.elim

theorem ok {computation : Build α} {fits : Prop} {post : α → Builder → Prop} {value : α}
    {after : Builder} (hwrites : Writes computation before legal fits bound post)
    (hresult : computation before = .ok value after) : post value after := by
  rw [Writes, hresult] at hwrites
  exact hwrites.2.2

/-- A legal call whose numbers fit fails for want of room alone. -/
theorem error {computation : Build α} {post : α → Builder → Prop} {error : BuildError}
    {after : Builder} (hwrites : Writes computation before legal True bound post)
    (hlegal : legal) (hresult : computation before = .error error after) :
    error = .capacityLimit ∧ Layout.maxBufferSize < bound := by
  rw [Writes, hresult] at hwrites
  have hrefuses := hwrites hlegal
  cases error with
  | capacityLimit => exact ⟨rfl, hrefuses⟩
  | unrepresentable refused => exact absurd trivial hrefuses
  | _ => exact hrefuses.elim

end Writes

end Build

end GraphWire

import GraphWire.Proofs.Builder.Growth
import Mathlib.Data.List.Forall2

/-!
# Computations that run in parallel

Two computations may be given different numbers and still put the same bytes into a buffer, since
numbers may have one word in common and since a field may be left out either way.  Such computations
run in parallel (`Build.Parallel`): from every builder with some settings they end in one state,
with related values or with the same error.
-/

namespace GraphWire

namespace Build

variable {α β : Type} {settings : BuilderSettings}

/-- Two ends in one state: related values, or the same error. -/
def Meet (settings : BuilderSettings) (related : α → α → Prop) :
    EStateM.Result BuildError Builder α → EStateM.Result BuildError Builder α → Prop
  | .ok value after, .ok value' after' =>
      related value value' ∧ after' = after ∧ after.Obeys settings
  | .error error after, .error error' after' => error' = error ∧ after' = after
  | _, _ => False

/-- Two computations that meet wherever they start together. -/
def Parallel (settings : BuilderSettings) (related : α → α → Prop) (first second : Build α) :
    Prop :=
  ∀ ⦃builder⦄, builder.Obeys settings → Meet settings related (first builder) (second builder)

namespace Parallel

variable {related : α → α → Prop} {related' : β → β → Prop}

/-- A computation runs in parallel to itself. -/
theorem of_steady {computation : Build α} (hsteady : Steady settings [] computation) :
    Parallel settings Eq computation computation := by
  intro builder hobeys
  cases hresult : computation builder with
  | ok value after => exact ⟨rfl, rfl, hsteady.obeys hobeys hresult⟩
  | error error after => exact ⟨rfl, rfl⟩

theorem pure {value value' : α} (hrelated : related value value') :
    Parallel settings related (Pure.pure value) (Pure.pure value') :=
  fun _ hobeys => ⟨hrelated, rfl, hobeys⟩

theorem imp {related' : α → α → Prop} {first second : Build α}
    (hparallel : Parallel settings related first second)
    (himplies : ∀ value value', related value value' → related' value value') :
    Parallel settings related' first second := by
  intro builder hobeys
  have hmeet := hparallel hobeys
  cases hleft : first builder <;> cases hright : second builder <;> rw [hleft, hright] at hmeet
  · exact ⟨himplies _ _ hmeet.1, hmeet.2⟩
  · exact hmeet
  · exact hmeet
  · exact hmeet

theorem bind {first second : Build α} {next next' : α → Build β}
    (hfirst : Parallel settings related first second)
    (hnext : ∀ value value', related value value' →
      Parallel settings related' (next value) (next' value')) :
    Parallel settings related' (first >>= next) (second >>= next') := by
  intro builder hobeys
  have hmeet := hfirst hobeys
  cases hleft : first builder with
  | ok value after =>
      cases hright : second builder with
      | ok value' after' =>
          rw [hleft, hright] at hmeet
          obtain ⟨hrelated, rfl, hafter⟩ := hmeet
          rw [bind_of_ok hleft, bind_of_ok hright]
          exact hnext value value' hrelated hafter
      | error error after' =>
          rw [hleft, hright] at hmeet
          exact hmeet.elim
  | error error after =>
      cases hright : second builder with
      | ok value' after' =>
          rw [hleft, hright] at hmeet
          exact hmeet.elim
      | error error' after' =>
          rw [hleft, hright] at hmeet
          rw [bind_of_error hleft, bind_of_error hright]
          exact hmeet

/-- The same first step on both sides. -/
theorem bind_steady {first : Build α} {next next' : α → Build β}
    (hfirst : Steady settings [] first)
    (hnext : ∀ value, Parallel settings related' (next value) (next' value)) :
    Parallel settings related' (first >>= next) (first >>= next') := by
  apply (of_steady hfirst).bind
  rintro value _ rfl
  exact hnext value

/-- Looking at the builder, which has the settings. -/
theorem look {next next' : Builder → Build α}
    (hnext : ∀ builder, builder.Obeys settings →
      Parallel settings related (next builder) (next' builder)) :
    Parallel settings related (MonadState.get >>= next) (MonadState.get >>= next') :=
  fun builder hobeys => hnext builder hobeys hobeys

end Parallel

end Build

open Build

variable {settings : BuilderSettings}

/-! ## Tables -/

/-- Fields that have the same effect on every open table. -/
def Field.Alike (settings : BuilderSettings) (field field' : Field) : Prop :=
  ∀ slot, Parallel settings Eq (addField slot field) (addField slot field')

theorem Field.Alike.refl (field : Field) : field.Alike settings field :=
  fun slot => .of_steady (steady_operates.addField slot field)

/-- Scalars are alike if both are kept or neither, and if the kept ones have one word. -/
theorem Field.alike_scalar {type : Scalar} {value value' default : type.Value}
    (hkeep : (settings.forceDefaults || !type.same value' default)
      = (settings.forceDefaults || !type.same value default))
    (hword : (settings.forceDefaults || !type.same value default) = true →
      type.word value' = type.word value) :
    (Field.scalar type value default).Alike settings (.scalar type value' default) := by
  intro slot
  apply Parallel.bind_steady (steady_operates.takeSlot slot)
  intro index
  apply Parallel.look
  intro builder hobeys
  rw [hobeys.forceDefaults, hkeep]
  split
  · next hkept =>
      have hwrite : (Build.write type value' : Build Unit) = Build.write type value := by
        unfold Build.write
        rw [hword hkept]
      rw [hwrite]
      exact .of_steady (steady_operates.bind (steady_operates.write type value) fun _ =>
        steady_operates.noteEntry index)
  · exact .pure rfl

namespace Build

theorem addFields_parallel {fields fields' : List Field}
    (halike : List.Forall₂ (Field.Alike settings) fields fields') (slot : ℕ) :
    Parallel settings Eq (table.addFields slot fields) (table.addFields slot fields') := by
  induction halike generalizing slot with
  | nil => exact .pure rfl
  | cons hfield _ ih => exact (ih (slot + 1)).bind fun _ _ _ => hfield slot

theorem table_parallel {fields fields' : List Field}
    (halike : List.Forall₂ (Field.Alike settings) fields fields') :
    Parallel settings Eq (table fields) (table fields') := by
  unfold table
  rw [← halike.length_eq]
  apply Parallel.bind_steady (startTable_steady _)
  intro _
  exact (addFields_parallel halike 0).bind fun _ _ _ => .of_steady endTable_steady

end Build

end GraphWire

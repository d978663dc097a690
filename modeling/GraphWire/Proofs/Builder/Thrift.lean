import GraphWire.Proofs.Builder.Floor
import GraphWire.Proofs.Builder.Growth
import GraphWire.Proofs.Builder.Laying
import GraphWire.Proofs.Builder.Refusal
import Mathlib.Data.List.Forall2

/-!
# Computations that take less room

Settings may save bytes: by sharing vtables, and by leaving out fields that have their default.
What is saved moves everything that is written later, and padding may then take back some of it, but
never more than that: rounding up to an alignment is monotone.  So a run with such settings stays
below a run without them (`Builder.Below`), step by step, and has room wherever the other has it
(`Build.Undercuts`).
-/

namespace GraphWire

/-! ## Builders -/

/-- Settings under which a run takes no more room than under others: these do not share vtables, and
they force defaults if the first ones do. -/
structure BuilderSettings.Leaner (settings settings' : BuilderSettings) : Prop where
  unshared : settings'.dedupeVtables = false
  forces : settings.forceDefaults = true → settings'.forceDefaults = true

namespace Builder

/-- The largest alignment asked for so far is a power of two that a word can hold. -/
def Powered (builder : Builder) : Prop :=
  ∃ exponent ≤ 31, builder.alignment = (2 ^ exponent : ℕ)

/-- The slots of the open table that have a value. -/
def slots (builder : Builder) : List ℕ :=
  match builder.phase with
  | .table opened => opened.entries.map Prod.fst
  | _ => []

/-- A builder that has written no more than another, has asked for no larger alignment and has
filled no other slots. -/
structure Lighter (less more : Builder) : Prop where
  size_le : less.written.size ≤ more.written.size
  slots_subset : less.slots ⊆ more.slots
  alignment : ∃ exponent exponent', exponent ≤ exponent' ∧ exponent' ≤ 31 ∧
    less.alignment = (2 ^ exponent : ℕ) ∧ more.alignment = (2 ^ exponent' : ℕ)

/-- A builder with some settings that is lighter than one with others. -/
structure Below (settings settings' : BuilderSettings) (less more : Builder) : Prop
    extends Lighter less more where
  obeys : less.Obeys settings
  obeys' : more.Obeys settings'

variable {less more later : Builder}

namespace Lighter

theorem powered (hlighter : less.Lighter more) : more.Powered := by
  obtain ⟨_, exponent, _, hsmall, _, hpower⟩ := hlighter.alignment
  exact ⟨exponent, hsmall, hpower⟩

theorem trans (hfirst : less.Lighter more) (hsecond : more.Lighter later) :
    less.Lighter later where
  size_le := hfirst.size_le.trans hsecond.size_le
  slots_subset := List.Subset.trans hfirst.slots_subset hsecond.slots_subset
  alignment := by
    obtain ⟨exponent, exponent', hle, -, hless, hmore⟩ := hfirst.alignment
    obtain ⟨other, exponent'', hle', hsmall, hother, hlater⟩ := hsecond.alignment
    have hequal := congrArg Number.toNat? (hmore.symm.trans hother)
    rw [Number.toNat?_natCast, Number.toNat?_natCast, Option.some.injEq] at hequal
    obtain rfl : exponent' = other := Nat.pow_right_injective (le_refl 2) hequal
    exact ⟨exponent, exponent'', hle.trans hle', hsmall, hless, hlater⟩

/-- Both have asked for one more alignment. -/
theorem note {exponent exponent' : ℕ} (hlighter : less.Lighter more) (hle : exponent ≤ exponent')
    (hsmall : exponent' ≤ 31) {less' more' : Builder}
    (hless : less'.alignment = max less.alignment (2 ^ exponent : ℕ))
    (hmore : more'.alignment = max more.alignment (2 ^ exponent' : ℕ)) :
    ∃ exponent exponent', exponent ≤ exponent' ∧ exponent' ≤ 31 ∧
      less'.alignment = (2 ^ exponent : ℕ) ∧ more'.alignment = (2 ^ exponent' : ℕ) := by
  obtain ⟨first, second, horder, hsecond, hfirst, hlast⟩ := hlighter.alignment
  rw [hfirst, Number.max_natCast, max_two_pow] at hless
  rw [hlast, Number.max_natCast, max_two_pow] at hmore
  exact ⟨_, _, by omega, by omega, hless, hmore⟩

end Lighter

theorem slots_eq_of_phase (hphase : later.phase = less.phase) : later.slots = less.slots := by
  rw [slots, hphase, slots]

end Builder

/-! ## Computations -/

namespace Build

variable {α β γ δ : Type} {settings settings' : BuilderSettings} {before before' : Builder}

/-- A computation that stays below another: where that succeeds, the first one gives a related value
and a builder below, or it is refused, but not for want of room. -/
def Undercuts (settings settings' : BuilderSettings) (related : α → β → Prop) (less : Build α)
    (more : Build β) (before before' : Builder) : Prop :=
  ∀ ⦃value' after'⦄, more before' = .ok value' after' →
    match less before with
    | .ok value after => related value value' ∧ after.Below settings settings' after'
    | .error error _ => error ≠ .capacityLimit

namespace Undercuts

variable {related : α → β → Prop} {related' : γ → δ → Prop} {less : Build α} {more : Build β}

theorem imp (hundercuts : Undercuts settings settings' related less more before before')
    {other : α → β → Prop}
    (himplies : ∀ ⦃value value' after after'⦄, less before = .ok value after →
      more before' = .ok value' after' → related value value' → other value value') :
    Undercuts settings settings' other less more before before' := by
  intro value' after' hmore
  have hboth := hundercuts hmore
  cases hless : less before with
  | ok value after =>
      rw [hless] at hboth
      exact ⟨himplies hless hmore hboth.1, hboth.2⟩
  | error error after =>
      rw [hless] at hboth
      exact hboth

theorem pure (hbelow : before.Below settings settings' before') {value : α} {value' : β}
    (hrelated : related value value') :
    Undercuts settings settings' related (Pure.pure value) (Pure.pure value') before before' := by
  rintro _ _ ⟨⟩
  exact ⟨hrelated, hbelow⟩

/-- A refusal that is not for want of room. -/
theorem throw_left {error : BuildError} (herror : error ≠ .capacityLimit) :
    Undercuts settings settings' related (MonadExcept.throw error) more before before' :=
  fun _ _ _ => herror

theorem throw_right (error : BuildError) :
    Undercuts settings settings' related less (MonadExcept.throw error) before before' := by
  rintro _ _ ⟨⟩

theorem bind {next : α → Build γ} {next' : β → Build δ}
    (hfirst : Undercuts settings settings' related less more before before')
    (hnext : ∀ ⦃value value' middle middle'⦄, less before = .ok value middle →
      more before' = .ok value' middle' → related value value' →
      middle.Below settings settings' middle' →
      Undercuts settings settings' related' (next value) (next' value') middle middle') :
    Undercuts settings settings' related' (less >>= next) (more >>= next') before before' := by
  intro result' after' hresult'
  obtain ⟨value', middle', hmore, hlast'⟩ := of_bind_ok hresult'
  have hboth := hfirst hmore
  cases hless : less before with
  | ok value middle =>
      rw [hless] at hboth
      rw [bind_of_ok hless]
      exact hnext hless hmore hboth.1 hboth.2 hlast'
  | error error middle =>
      rw [hless] at hboth
      rw [bind_of_error hless]
      exact hboth

/-- Looking at the builder. -/
theorem look {next : Builder → Build α} {next' : Builder → Build β}
    (hnext : Undercuts settings settings' related (next before) (next' before') before before') :
    Undercuts settings settings' related (MonadState.get >>= next) (MonadState.get >>= next')
      before before' :=
  hnext

/-- Computations that keep the settings need to be compared in what they write only. -/
theorem of_lighter (hbelow : before.Below settings settings' before')
    (hless : Steady settings [] less) (hmore : Steady settings' [] more)
    (hcompare : ∀ ⦃value' after'⦄, more before' = .ok value' after' →
      match less before with
      | .ok value after => related value value' ∧ after.Lighter after'
      | .error error _ => error ≠ .capacityLimit) :
    Undercuts settings settings' related less more before before' := by
  intro value' after' hmore'
  have hboth := hcompare hmore'
  cases hless' : less before with
  | ok value after =>
      rw [hless'] at hboth
      exact ⟨hboth.1, hboth.2, hless.obeys hbelow.obeys hless', hmore.obeys hbelow.obeys' hmore'⟩
  | error error after =>
      rw [hless'] at hboth
      exact hboth

/-- Doing nothing stays below whatever succeeds. -/
theorem skip (hbelow : before.Below settings settings' before') {value : α}
    (hmore : Steady settings' [] more)
    (hgrows : ∀ ⦃value' after'⦄, more before' = .ok value' after' →
      related value value' ∧ before'.Lighter after') :
    Undercuts settings settings' related (Pure.pure value) more before before' := by
  apply of_lighter hbelow (steady_operates.pure value) hmore
  intro value' after' hmore'
  obtain ⟨hrelated, hlighter⟩ := hgrows hmore'
  exact ⟨hrelated, hbelow.toLighter.trans hlighter⟩

/-- Changing builders that have been compared already. -/
theorem change {change change' : Builder → Builder}
    (hbelow : (change before).Below settings settings' (change' before')) :
    Undercuts settings settings' (fun _ _ => True) (modify change) (modify change') before
      before' := by
  rintro _ _ ⟨⟩
  exact ⟨trivial, hbelow⟩

/-- Both refuse something first. -/
theorem guard {condition condition' : Prop} [Decidable condition] [Decidable condition']
    {error error' : BuildError} (herror : error ≠ .capacityLimit)
    (hnext : Undercuts settings settings' related less more before before') :
    Undercuts settings settings' related
      (if condition then (MonadExcept.throw error : Build Unit) >>= fun _ => less else less)
      (if condition' then (MonadExcept.throw error' : Build Unit) >>= fun _ => more else more)
      before before' := by
  by_cases hrefused' : condition'
  · rw [if_pos hrefused']
    rintro _ _ ⟨⟩
  · rw [if_neg hrefused']
    by_cases hrefused : condition
    · rw [if_pos hrefused]
      exact fun _ _ _ => herror
    · rw [if_neg hrefused]
      exact hnext

end Undercuts

/-! ### Space -/

/-- A reservation is refused for want of room only past the limit. -/
theorem reserve_ne_capacityLimit (hobeys : before.Obeys settings) {alignment additional : ℕ}
    (hroom : before.written.size + padding alignment (before.written.size + additional) + alignment
      + additional ≤ Layout.maxBufferSize) {after : Builder} :
    reserve alignment additional before ≠ .error .capacityLimit after := by
  intro hresult
  by_cases hfinished : before.phase = .finished
  · simp only [reserve, requireWritable, get_bind_apply, bind_assoc, if_pos hfinished] at hresult
    cases hresult
  · rw [reserve_of_room hobeys hfinished hroom] at hresult
    cases hresult

theorem reserve_undercuts (hbelow : before.Below settings settings' before')
    {exponent exponent' : ℕ} (hle : exponent ≤ exponent') (hsmall : exponent' ≤ 31)
    (additional : ℕ) :
    Undercuts settings settings' (fun _ _ => True) (reserve (2 ^ exponent) additional)
      (reserve (2 ^ exponent') additional) before before' := by
  apply Undercuts.of_lighter hbelow (steady_operates.reserve _ _) (steady_operates.reserve _ _)
  intro _ after' hmore
  have hpads' := (reserve_lays ⟨exponent', rfl⟩ additional).ok hmore
  obtain ⟨hroom', -⟩ := of_reserve hmore
  have hlimited := ((steady_operates.reserve _ _).obeys hbelow.obeys' hmore).limited
  have hsize' := hpads'.size
  have hmono := add_padding_mono hle (by omega) (Nat.add_le_add_right hbelow.size_le additional)
  have hpower : 2 ^ exponent ≤ 2 ^ exponent' := Nat.pow_le_pow_right (by decide) hle
  cases hless : reserve (2 ^ exponent) additional before with
  | ok _ after =>
      have hpads := (reserve_lays ⟨exponent, rfl⟩ additional).ok hless
      have hsize := hpads.size
      refine ⟨trivial, by omega, ?_, hbelow.note hle hsmall hpads.alignment hpads'.alignment⟩
      rw [Builder.slots_eq_of_phase hpads.phase, Builder.slots_eq_of_phase hpads'.phase]
      exact hbelow.slots_subset
  | error error after =>
      rintro rfl
      exact reserve_ne_capacityLimit hbelow.obeys (by omega) hless

theorem push_undercuts (hbelow : before.Below settings settings' before')
    {bytes bytes' : List UInt8} (hlength : bytes.length ≤ bytes'.length) :
    Undercuts settings settings' (fun _ _ => True) (push bytes) (push bytes') before before' := by
  apply Undercuts.of_lighter hbelow (steady_operates.push _) (steady_operates.push _)
  rintro _ _ ⟨⟩
  have hsize := hbelow.size_le
  refine ⟨trivial, ?_, hbelow.slots_subset, hbelow.alignment⟩
  simp only [Region.store_push, Region.size_push]
  omega

/-- Two values of one type take the same room, unless they are refused. -/
theorem write_undercuts (hbelow : before.Below settings settings' before') (type : Scalar)
    (value value' : type.Value) :
    Undercuts settings settings' (fun _ _ => True) (write type value) (write type value')
      before before' := by
  unfold write
  cases type.word value with
  | error refused => exact .throw_left nofun
  | ok word =>
      cases type.word value' with
      | error refused => exact .throw_right _
      | ok word' =>
          obtain ⟨exponent, hexponent, hwidth⟩ := type.isWidth
          unfold writeWord
          rw [hwidth]
          apply (reserve_undercuts hbelow (le_refl exponent) (by omega) 0).bind
          intro _ _ _ _ _ _ _ hpadded
          exact push_undercuts hpadded (by simp)

/-- So do two references. -/
theorem writeOffset_undercuts (hbelow : before.Below settings settings' before')
    (target target' : Number) :
    Undercuts settings settings' (fun _ _ => True) (writeOffset target) (writeOffset target')
      before before' := by
  unfold writeOffset
  apply (reserve_undercuts hbelow (le_refl 2) (by decide) 0).bind
  intro _ _ padded padded' _ _ _ hpadded
  apply Undercuts.look
  dsimp only
  split
  · split
    · exact write_undercuts hpadded _ _ _
    · exact .throw_right _
  · exact .throw_left nofun

/-- Whatever is written makes a builder heavier. -/
theorem lighter_of_places {part : Part} (hpowered : before.Powered) {after : Builder}
    (hplaces : before.Places part after) : before.Lighter after := by
  obtain ⟨exponent, hsmall, hpower⟩ := hpowered
  obtain ⟨width, hwidth, hequal⟩ := part.isWidth
  have hsize := hplaces.size
  have halignment := hplaces.alignment
  rw [hpower, hequal, Number.max_natCast, max_two_pow] at halignment
  refine ⟨by omega, ?_, exponent, _, Nat.le_max_left _ _, by omega, hpower, halignment⟩
  rw [Builder.slots_eq_of_phase hplaces.phase]
  exact List.Subset.refl _

theorem write_lighter (hpowered : before.Powered) {type : Scalar} {value : type.Value}
    {after : Builder} (hwritten : write type value before = .ok () after) : before.Lighter after :=
  lighter_of_places hpowered ((write_lays type value).ok hwritten)

theorem writeOffset_lighter (hpowered : before.Powered) {target : Number} {after : Builder}
    (hwritten : writeOffset target before = .ok () after) : before.Lighter after :=
  lighter_of_places hpowered ((writeOffset_lays target).ok hwritten)

/-- Fewer items take no more room, if each one takes no more than each of the others. -/
theorem writeAll_undercuts (hbelow : before.Below settings settings' before') {α : Type}
    {writeOne : α → Build Unit} (hsteady : ∀ item, Steady settings' [] (writeOne item))
    (hone : ∀ ⦃middle middle'⦄, middle.Below settings settings' middle' → ∀ item item',
      Undercuts settings settings' (fun _ _ => True) (writeOne item) (writeOne item') middle
        middle')
    (hgrows : ∀ ⦃middle after⦄, middle.Powered → ∀ item, writeOne item middle = .ok () after →
      middle.Lighter after) (items items' : List α)
    (hlength : items.length ≤ items'.length) :
    Undercuts settings settings' (fun _ _ => True) (writeAll writeOne items)
      (writeAll writeOne items') before before' := by
  induction items' generalizing items with
  | nil =>
      obtain rfl := List.eq_nil_of_length_eq_zero (Nat.le_zero.mp hlength)
      exact .pure hbelow trivial
  | cons item' items' ih =>
      rw [List.length_cons] at hlength
      rcases Nat.lt_or_ge items'.length items.length with hsame | hfewer
      · cases items with
        | nil => exact absurd hsame (Nat.not_lt_zero _)
        | cons item items =>
            rw [List.length_cons] at hlength
            apply (ih items (by omega)).bind
            intro _ _ _ _ _ _ _ hmiddle
            exact hone hmiddle item item'
      · -- The last item is written by the second computation alone.
        rw [← bind_pure (writeAll writeOne items)]
        apply (ih items hfewer).bind
        intro _ _ _ _ _ _ _ hmiddle
        apply Undercuts.skip hmiddle (hsteady item')
        intro _ _ hwritten
        exact ⟨trivial, hgrows hmiddle.powered item' hwritten⟩

/-! ### Tables -/

/-- What begins an object is refused or changes nothing. -/
theorem begin_cases (what : Opening) (next : Build α) (before : Builder) :
    before.phase = .idle ∧ (do requireWritable; requireIdle what; next) before = next before ∨
      ∃ error, error ≠ .capacityLimit ∧
        (do requireWritable; requireIdle what; next) before = .error error before := by
  cases hphase : before.phase with
  | idle => exact .inl ⟨rfl, begin_eq hphase⟩
  | table opened => exact .inr ⟨.insideTable what, by simp, begin_refused next hphase⟩
  | vector opened =>
      refine .inr ⟨.insideVector what, by simp, ?_⟩
      simp only [requireWritable, requireIdle, bind_assoc, get_bind_apply, hphase]
      rw [if_neg (by simp), pure_bind, get_bind_apply, hphase]
      rfl
  | finished =>
      refine .inr ⟨.alreadyFinished, by simp, ?_⟩
      simp only [requireWritable, requireIdle, bind_assoc, get_bind_apply, hphase]
      rw [if_pos trivial]
      rfl

theorem begin_undercuts {what : Opening} {related : α → β → Prop} {next : Build α}
    {next' : Build β}
    (hnext : Undercuts settings settings' related next next' before before') :
    Undercuts settings settings' related (do requireWritable; requireIdle what; next)
      (do requireWritable; requireIdle what; next') before before' := by
  intro value' after' hmore
  rw [begin_eq (idle_of_begin hmore)] at hmore
  rcases begin_cases what next before with ⟨-, hless⟩ | ⟨error, herror, hless⟩
  · rw [hless]
    exact hnext hmore
  · rw [hless]
    exact herror

end Build

/-- Changing what is open changes neither the bytes nor the alignment. -/
theorem Builder.Below.inPhase {settings settings' : BuilderSettings} {less more : Builder}
    (hbelow : less.Below settings settings' more) {phase phase' : Phase}
    (hslots : Builder.slots { less with phase } ⊆ Builder.slots { more with phase := phase' }) :
    Builder.Below settings settings' { less with phase } { more with phase := phase' } :=
  ⟨⟨hbelow.size_le, hslots, hbelow.alignment⟩,
    ⟨hbelow.obeys.1, hbelow.obeys.2, hbelow.obeys.3, hbelow.obeys.4⟩,
    ⟨hbelow.obeys'.1, hbelow.obeys'.2, hbelow.obeys'.3, hbelow.obeys'.4⟩⟩

/-- Fields of which the second one is kept whenever the first one is, if defaults are forced there
too. -/
inductive Field.Under : Field → Field → Prop
  | scalar (type : Scalar) (value default : type.Value) :
      Under (.scalar type value default) (.scalar type value default)
  | reference {target target' : Number} (hkept : target'.equals 0 = true → target.equals 0 = true) :
      Under (.reference target) (.reference target')

namespace Build

variable {settings settings' : BuilderSettings} {before before' : Builder}

theorem startTable_undercuts (hbelow : before.Below settings settings' before')
    (fieldCount : Number) :
    Undercuts settings settings' (fun _ _ => True) (startTable fieldCount) (startTable fieldCount)
      before before' := by
  apply begin_undercuts
  cases fieldCount.toNat? with
  | none => exact .throw_right _
  | some count =>
      dsimp only
      refine Undercuts.guard ?_ (.change (hbelow.inPhase (List.Subset.refl _)))
      exact nofun

theorem takeSlot_undercuts (hbelow : before.Below settings settings' before') (slot : Number) :
    Undercuts settings settings' Eq (takeSlot slot) (takeSlot slot) before before' := by
  apply Undercuts.of_lighter hbelow (steady_operates.takeSlot slot) (steady_operates.takeSlot slot)
  intro index' after' hmore
  obtain ⟨opened', hphase', hindex', -, rfl⟩ := of_takeSlot hmore
  rcases takeSlot_cases slot before with
    ⟨error, herror, hroom⟩ | ⟨opened, other, hphase, hindex, -, htaken⟩
  · rw [herror]
    exact hroom
  · rw [htaken]
    have hslots := hbelow.slots_subset
    simp only [Builder.slots, hphase, hphase'] at hslots
    exact ⟨Option.some.inj (hindex.symm.trans hindex'), hbelow.size_le, hslots, hbelow.alignment⟩

/-- A value that is noted adds its slot to those of an open table. -/
theorem slots_of_noteEntry {index : ℕ} {after : Builder}
    (hresult : noteEntry index before = .ok () after) :
    after.written = before.written ∧ after.alignment = before.alignment ∧
      before.slots ⊆ after.slots ∧ after.slots ⊆ index :: before.slots ∧
      ((∃ opened, before.phase = .table opened) → index ∈ after.slots) := by
  rcases noteEntry_cases index before with ⟨opened, hphase, hnoted⟩ | ⟨hclosed, hnoted⟩
  · rw [hnoted] at hresult
    cases hresult
    simp only [Builder.slots, hphase, List.map_cons]
    exact ⟨trivial, trivial, List.subset_cons_self _ _, List.Subset.refl _,
      fun _ => List.mem_cons_self⟩
  · rw [hnoted] at hresult
    cases hresult
    refine ⟨rfl, rfl, List.Subset.refl _, List.subset_cons_self _ _, ?_⟩
    rintro ⟨opened, hopened⟩
    exact absurd hopened (hclosed opened)

/-- Both write a value and note it for a slot. -/
theorem noted_undercuts {write write' : Build Unit} (index : ℕ)
    (hwrite : Undercuts settings settings' (fun _ _ => True) write write' before before')
    (hcontinues : Leads Builder.Continues write')
    (hopened : ∃ opened, before'.phase = .table opened) :
    Undercuts settings settings' (fun _ _ => True) (do write; noteEntry index)
      (do write'; noteEntry index) before before' := by
  apply hwrite.bind
  intro _ _ written written' _ hmore _ hwritten
  have hopened' : ∃ opened, written'.phase = .table opened := by
    rwa [(hcontinues.ok hmore).phase]
  apply Undercuts.of_lighter hwritten (steady_operates.noteEntry index)
    (steady_operates.noteEntry index)
  intro _ noted' hnoted'
  obtain ⟨hsame', halignment', hkept', -, hindex⟩ := slots_of_noteEntry hnoted'
  cases hless : noteEntry index written with
  | ok _ noted =>
      obtain ⟨hsame, halignment, -, hslots, -⟩ := slots_of_noteEntry hless
      refine ⟨trivial, ?_, ?_, ?_⟩
      · rw [hsame, hsame']
        exact hwritten.size_le
      · apply List.Subset.trans hslots
        apply List.cons_subset.mpr
        exact ⟨hindex hopened', List.Subset.trans hwritten.slots_subset hkept'⟩
      · rw [halignment, halignment']
        exact hwritten.alignment
  | error error noted =>
      rcases noteEntry_cases index written with ⟨opened, -, hnoted⟩ | ⟨-, hnoted⟩
      · rw [hnoted] at hless
        cases hless
      · rw [hnoted] at hless
        cases hless

/-- The second one alone writes a value and notes it. -/
theorem noted_lighter {write : Build Unit} {index : ℕ} {after : Builder}
    (hwrite : ∀ ⦃written⦄, write before = .ok () written → before.Lighter written)
    (hresult : (do write; noteEntry index : Build Unit) before = .ok () after) :
    before.Lighter after := by
  obtain ⟨_, written, hwritten, hnoted⟩ := of_bind_ok hresult
  obtain ⟨hsame, halignment, hkept, -, -⟩ := slots_of_noteEntry hnoted
  have hlighter := hwrite hwritten
  refine ⟨?_, List.Subset.trans hlighter.slots_subset hkept, ?_⟩
  · rw [hsame]
    exact hlighter.size_le
  · rw [halignment]
    exact hlighter.alignment

/-- A value that is written in both runs or in the second one alone. -/
theorem kept_undercuts (hbelow : before.Below settings settings' before')
    (hopened : ∃ opened, before'.phase = .table opened) {kept kept' : Bool}
    (hkept : kept = true → kept' = true) {write write' : Build Unit} (index : ℕ)
    (hwrite : Undercuts settings settings' (fun _ _ => True) write write' before before')
    (hcontinues : Leads Builder.Continues write') (hsteady : Steady settings' [] write')
    (hgrows : ∀ ⦃written⦄, write' before' = .ok () written → before'.Lighter written) :
    Undercuts settings settings' (fun _ _ => True)
      (if kept then do write; noteEntry index else pure ())
      (if kept' then do write'; noteEntry index else pure ()) before before' := by
  cases kept with
  | true =>
      rw [if_pos rfl, if_pos (hkept rfl)]
      exact noted_undercuts index hwrite hcontinues hopened
  | false =>
      rw [if_neg Bool.false_ne_true]
      split
      · apply Undercuts.skip hbelow
        · exact steady_operates.bind hsteady fun _ => steady_operates.noteEntry index
        intro _ _ hnoted
        exact ⟨trivial, noted_lighter hgrows hnoted⟩
      · exact .pure hbelow trivial

theorem keeps_of_under (hleaner : settings.Leaner settings') {field field' : Field}
    (hfield : field.Under field') (hkeeps : field.keeps settings.forceDefaults = true) :
    field'.keeps settings'.forceDefaults = true := by
  cases hfield with
  | scalar type value default =>
      simp only [Field.keeps, Bool.or_eq_true] at hkeeps ⊢
      exact hkeeps.imp_left hleaner.forces
  | reference habsent =>
      simp only [Field.keeps, Bool.not_eq_true'] at hkeeps ⊢
      by_contra hzero
      rw [habsent (by simpa using hzero)] at hkeeps
      cases hkeeps

theorem field_undercuts (hbelow : before.Below settings settings' before') {field field' : Field}
    (hfield : field.Under field') :
    Undercuts settings settings' (fun _ _ => True) field.write field'.write before before' := by
  cases hfield with
  | scalar type value default => exact write_undercuts hbelow type value value
  | @reference target target' _ => exact writeOffset_undercuts hbelow target target'

theorem field_lighter {field : Field} {after : Builder} (hpowered : before.Powered)
    (hwritten : field.write before = .ok () after) : before.Lighter after :=
  lighter_of_places hpowered ((field_lays field).ok hwritten)

theorem addField_undercuts (hleaner : settings.Leaner settings')
    (hbelow : before.Below settings settings' before') (slot : Number) {field field' : Field}
    (hfield : field.Under field') :
    Undercuts settings settings' (fun _ _ => True) (addField slot field) (addField slot field')
      before before' := by
  rw [addField_eq, addField_eq]
  apply (takeSlot_undercuts hbelow slot).bind
  rintro index _ taken taken' - htaken' rfl htaken
  have hopened : ∃ opened, taken'.phase = .table opened := by
    obtain ⟨opened, -, -, -, rfl⟩ := of_takeSlot htaken'
    exact ⟨_, rfl⟩
  apply Undercuts.look
  rw [htaken.obeys.forceDefaults, htaken.obeys'.forceDefaults]
  exact kept_undercuts htaken hopened (keeps_of_under hleaner hfield) index
    (field_undercuts htaken hfield) (continues_prepends.field field') (steady_operates.field field')
    fun _ => field_lighter htaken.powered

theorem addFields_undercuts (hleaner : settings.Leaner settings')
    (hbelow : before.Below settings settings' before') {fields fields' : List Field}
    (hfields : List.Forall₂ Field.Under fields fields') (slot : ℕ) :
    Undercuts settings settings' (fun _ _ => True) (table.addFields slot fields)
      (table.addFields slot fields') before before' := by
  induction hfields generalizing slot with
  | nil => exact .pure hbelow trivial
  | cons hfield _ ih =>
      apply (ih (slot + 1)).bind
      intro _ _ _ _ _ _ _ hmiddle
      exact addField_undercuts hleaner hmiddle slot hfield

end Build

theorem Ascending.of_pairwise {first : ℕ} {entries : List (ℕ × ℕ)}
    (hfirst : ∀ entry ∈ entries, first ≤ entry.1)
    (hpairwise : entries.Pairwise fun lower higher => lower.1 < higher.1) :
    Ascending first entries := by
  induction entries generalizing first with
  | nil => trivial
  | cons entry rest ih =>
      obtain ⟨hbelow, hrest⟩ := List.pairwise_cons.mp hpairwise
      exact ⟨hfirst entry List.mem_cons_self, ih hbelow hrest⟩

/-- A table that has filled no other slots than another has no more entries. -/
theorem length_slotEntries_le {opened opened' : OpenTable} {size size' : ℕ}
    (hordered : opened.Ordered size) (hordered' : opened'.Ordered size')
    (hslots : opened.entries.map Prod.fst ⊆ opened'.entries.map Prod.fst) (table table' : ℕ) :
    (slotEntries table 0 opened.entries).length
      ≤ (slotEntries table' 0 opened'.entries).length := by
  have hascending {opened : OpenTable} {size : ℕ} (hordered : opened.Ordered size) :
      Ascending 0 opened.entries :=
    .of_pairwise (fun _ _ => Nat.zero_le _) (hordered.descending.imp And.left)
  rw [length_slotEntries table (hascending hordered),
    length_slotEntries table' (hascending hordered'), Nat.sub_zero, Nat.sub_zero]
  apply slotCount_le_iff.mpr
  intro entry hentry
  obtain ⟨entry', hentry', hslot⟩ :=
    List.mem_map.mp (hslots (List.mem_map.mpr ⟨entry, hentry, rfl⟩))
  rw [← hslot]
  exact slotCount_le_iff.mp (le_refl _) entry' hentry'

namespace Build

variable {settings settings' : BuilderSettings} {before before' : Builder}

/-- A vtable that is shared takes nothing, and one that is not takes no more than a longer one. -/
theorem linkBody_undercuts (hleaner : settings.Leaner settings')
    (hbelow : before.Below settings settings' before') {body body' : Region}
    (hbody : body.size ≤ body'.size) {vtableSize vtableSize' : ℕ}
    (hvtable : vtableSize ≤ vtableSize') (table table' : ℕ) :
    Undercuts settings settings' (fun _ _ => True) (linkBody body table vtableSize)
      (linkBody body' table' vtableSize') before before' := by
  apply Undercuts.of_lighter hbelow (linkBody_steady _ _ _) (linkBody_steady _ _ _)
  intro _ after' hmore
  have hunshared := hbelow.obeys'.dedupeVtables.trans hleaner.unshared
  have hnone : sharedVtable? before' (before'.written.bytes.take vtableSize') = none := by
    rw [sharedVtable?, if_neg (by simp [hunshared])]
  have hsize := hbelow.size_le
  rw [Region.size_eq, Region.size_eq] at hsize
  simp only [linkBody, get_bind_apply, hnone] at hmore
  cases hmore
  simp only [linkBody, get_bind_apply]
  cases sharedVtable? before (before.written.bytes.take vtableSize) with
  | some stored =>
      refine ⟨trivial, ?_, List.Subset.refl _, hbelow.alignment⟩
      simp only [Region.size_push, length_vtableDistance]
      omega
  | none =>
      refine ⟨trivial, ?_, List.Subset.refl _, hbelow.alignment⟩
      simp only [Region.size_push, length_vtableDistance, List.length_take]
      omega

theorem endTable_undercuts (hleaner : settings.Leaner settings')
    (hbelow : before.Below settings settings' before') (horderly : before.Orderly)
    (horderly' : before'.Orderly) :
    Undercuts settings settings' (fun _ table' => 0 < table') endTable endTable before before' := by
  rw [endTable_eq]
  apply Undercuts.look
  cases hphase : before.phase with
  | idle | vector _ | finished => exact .throw_left nofun
  | table opened =>
      cases hphase' : before'.phase with
      | idle | vector _ | finished => exact .throw_right _
      | table opened' =>
          have hslots := hbelow.slots_subset
          simp only [Builder.slots, hphase, hphase'] at hslots
          have hentries := length_slotEntries_le (horderly opened hphase)
            (horderly' opened' hphase') hslots
          apply (reserve_undercuts hbelow (le_refl 2) (by decide) 0).bind
          intro _ _ padded padded' _ _ _ hpadded
          apply Undercuts.look
          apply (push_undercuts hpadded (le_refl _)).bind
          intro _ _ _ _ _ _ _ hpushed
          have hbody := hpadded.size_le
          refine Undercuts.guard ?_ ?_
          · exact nofun
          apply (writeAll_undercuts hpushed (fun _ => steady_operates.write _ _)
            (fun _ _ hmiddle _ _ => write_undercuts hmiddle _ _ _)
            (fun _ _ hpowered _ => write_lighter hpowered)
            _ _ _).bind
          · intro _ _ _ _ _ _ _ hlisted
            apply (linkBody_undercuts hleaner hlisted hbody _ _ _).bind
            · intro _ _ _ _ _ _ _ hlinked
              exact .pure hlinked (by simp [Layout.offsetWidth])
            · exact Nat.mul_le_mul_right _ (Nat.add_le_add_right (hentries _ _) _)
          · exact Nat.add_le_add_right (hentries _ _) 2

/-- Fields that are kept no more often make a table that takes no more room. -/
theorem table_undercuts (hleaner : settings.Leaner settings')
    (hbelow : before.Below settings settings' before') {fields fields' : List Field}
    (hfields : List.Forall₂ Field.Under fields fields') :
    Undercuts settings settings' (fun _ table' => 0 < table') (table fields) (table fields') before
      before' := by
  unfold table
  rw [hfields.length_eq]
  apply (startTable_undercuts hbelow _).bind
  intro _ _ opened opened' hopened hopened' _ hstarted
  apply (addFields_undercuts hleaner hstarted hfields 0).bind
  intro _ _ filled filled' hfilled hfilled' _ hadded
  have horderly {before opened filled : Builder} {fields : List Field}
      (hopened : startTable (fields'.length : Number) before = .ok () opened)
      (hfilled : table.addFields 0 fields opened = .ok () filled) : filled.Orderly := by
    have hidle := idle_of_begin hopened
    apply (onward_encloses.addFields addField_onward 0 fields).ok hfilled
    apply (startTable_onward _).ok hopened
    exact Builder.orderly_of_phase (by simp [hidle])
  exact endTable_undercuts hleaner hadded (horderly hopened hfilled) (horderly hopened' hfilled')

/-! ### Vectors and strings -/

theorem openVector_undercuts (hbelow : before.Below settings settings' before') {width : ℕ}
    (hwidth : IsWidth width) (count : Number) (byteLength : ℕ) :
    Undercuts settings settings' (fun _ _ => True) (openVector count byteLength width)
      (openVector count byteLength width) before before' := by
  obtain ⟨exponent, hexponent, rfl⟩ := id hwidth
  unfold openVector
  have hoffset : ((Layout.offsetWidth : ℕ) : Number) = ((4 : ℕ) : Number) := rfl
  rw [hoffset, prepare_width isWidth_four, prepare_width hwidth]
  apply (reserve_undercuts hbelow (le_refl 2) (by decide) byteLength).bind
  intro _ _ _ _ _ _ _ hcounted
  apply (reserve_undercuts hcounted (le_refl exponent) (by omega) byteLength).bind
  intro _ _ padded padded' _ _ _ hpadded
  exact .change (hpadded.inPhase (List.Subset.refl _))

theorem endVector_undercuts (hbelow : before.Below settings settings' before') :
    Undercuts settings settings' (fun _ _ => True) endVector endVector before before' := by
  apply Undercuts.look
  cases hphase : before.phase with
  | idle | table _ | finished => exact .throw_left nofun
  | vector opened =>
      cases hphase' : before'.phase with
      | idle | table _ | finished => exact .throw_right _
      | vector opened' =>
          refine Undercuts.guard ?_ ?_
          · exact nofun
          have hclosed : Builder.Below settings settings' { before with phase := .idle }
              { before' with phase := .idle } := hbelow.inPhase (List.Subset.refl _)
          apply (write_undercuts hclosed .uint32 opened.count opened'.count).bind
          intro _ _ _ _ _ _ _ hcounted
          apply Undercuts.look
          exact .pure hcounted trivial

/-- Two vectors of equal shape take the same room. -/
theorem vectorOf_undercuts (hbelow : before.Below settings settings' before') {width : ℕ}
    (hwidth : IsWidth width) (count : ℕ) {elements elements' : Build Unit}
    (helements : ∀ ⦃middle middle'⦄, middle.Below settings settings' middle' →
      Undercuts settings settings' (fun _ _ => True) elements elements' middle middle')
    (hcontinues : Leads Builder.Continues elements') :
    Undercuts settings settings' (fun _ offset' => 0 < offset') (vectorOf width count elements)
      (vectorOf width count elements') before before' := by
  have hvector : Undercuts settings settings' (fun _ _ => True) (vectorOf width count elements)
      (vectorOf width count elements') before before' := by
    apply begin_undercuts
    apply (openVector_undercuts hbelow hwidth count (width * count)).bind
    intro _ _ _ _ _ _ _ hopened
    apply (helements hopened).bind
    intro _ _ _ _ _ _ _ hfilled
    exact endVector_undercuts hfilled
  apply hvector.imp
  intro _ offset' _ _ _ hmore _
  have hroom := room_of_vectorOf hcontinues hmore
  omega

theorem scalars_undercuts (hbelow : before.Below settings settings' before') (type : Scalar)
    (values : List type.Value) :
    Undercuts settings settings' (fun _ offset' => 0 < offset') (scalars type values)
      (scalars type values) before before' := by
  apply vectorOf_undercuts hbelow type.isWidth values.length _
    (continues_prepends.writeAll (continues_prepends.write type) values)
  intro _ _ hopened
  exact writeAll_undercuts hopened (steady_operates.write type)
    (fun _ _ hmiddle => write_undercuts hmiddle type)
    (fun _ _ hpowered _ => write_lighter hpowered)
    values values (le_refl _)

theorem offsets_undercuts (hbelow : before.Below settings settings' before')
    {targets targets' : List Number} (hlength : targets.length = targets'.length) :
    Undercuts settings settings' (fun _ offset' => 0 < offset') (offsets targets)
      (offsets targets') before before' := by
  unfold offsets
  rw [hlength]
  apply vectorOf_undercuts hbelow isWidth_four targets'.length _
    (continues_prepends.writeAll continues_prepends.writeOffset targets')
  intro _ _ hopened
  exact writeAll_undercuts hopened steady_operates.writeOffset
    (fun _ _ hmiddle => writeOffset_undercuts hmiddle)
    (fun _ _ hpowered _ => writeOffset_lighter hpowered)
    targets targets' hlength.le

theorem string_undercuts (hbelow : before.Below settings settings' before') (text : String) :
    Undercuts settings settings' (fun _ offset' => 0 < offset') (string text) (string text) before
      before' := by
  apply begin_undercuts
  apply (write_undercuts hbelow .int8 _ _).bind
  intro _ _ _ _ _ _ _ hended
  exact vectorOf_undercuts hended ⟨0, by decide, rfl⟩ _
    (fun _ _ hopened => push_undercuts hopened (le_refl _)) (continues_prepends.push _)

/-! ### Finishing -/

theorem beginHead_undercuts (hbelow : before.Below settings settings' before')
    (options : FinishOptions) :
    Undercuts settings settings' (fun _ _ => True) (beginHead options) (beginHead options) before
      before' := by
  obtain ⟨exponent, exponent', hle, hsmall, hless, hmore⟩ := hbelow.alignment
  have hprepare (additional : ℕ) : Undercuts settings settings' (fun _ _ => True)
      (prepare before.alignment additional) (prepare before'.alignment additional) before
        before' := by
    rw [hless, hmore,
      prepare_natCast (Nat.two_pow_pos _) (Nat.pow_le_pow_right (by decide) (hle.trans hsmall)),
      prepare_natCast (Nat.two_pow_pos _) (Nat.pow_le_pow_right (by decide) hsmall)]
    exact reserve_undercuts hbelow hle hsmall additional
  apply Undercuts.look
  cases options.identifier with
  | none => exact hprepare _
  | some identifier =>
      dsimp only
      split
      · exact .throw_right _
      · apply (hprepare _).bind
        intro _ _ _ _ _ _ _ hprepared
        exact push_undercuts hprepared (le_refl _)

theorem finish_undercuts (hbelow : before.Below settings settings' before') (root root' : Number)
    (options : FinishOptions) :
    Undercuts settings settings' (fun _ _ => True) (finish root options) (finish root' options)
      before before' := by
  have hmark {written written' : Builder} (hwritten : written.Below settings settings' written') :
      Undercuts settings settings' (fun _ _ => True) (markFinished options.identifier)
        (markFinished options.identifier) written written' := by
    apply Undercuts.of_lighter hwritten (markFinished_steady _) (markFinished_steady _)
    rintro _ _ ⟨⟩
    exact ⟨trivial, hwritten.size_le, List.Subset.refl _, hwritten.alignment⟩
  apply begin_undercuts
  apply (beginHead_undercuts hbelow options).bind
  intro _ _ _ _ _ _ _ hbegun
  apply (writeOffset_undercuts hbegun root root').bind
  intro _ _ _ _ _ _ _ hrooted
  cases options.sizePrefix with
  | false => exact hmark hrooted
  | true =>
      have hsize : Undercuts settings settings' (fun _ _ => True) writeSize writeSize _ _ :=
        .look (write_undercuts hrooted .uint32 _ _)
      apply hsize.bind
      intro _ _ _ _ _ _ _ hsized
      exact hmark hsized

theorem bytes_undercuts (hbelow : before.Below settings settings' before') :
    Undercuts settings settings' (fun bytes bytes' => bytes.length ≤ bytes'.length) bytes bytes
      before before' := by
  have hsize := hbelow.size_le
  rw [Region.size_eq, Region.size_eq] at hsize
  apply Undercuts.look
  cases before.phase with
  | idle | table _ | vector _ => exact .throw_left nofun
  | finished =>
      cases before'.phase with
      | idle | table _ | vector _ => exact .throw_right _
      | finished => exact .pure hbelow hsize

end Build

end GraphWire

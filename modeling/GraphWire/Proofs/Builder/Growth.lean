import GraphWire.Proofs.Builder.Laws
import GraphWire.Proofs.Builder.Space

/-!
# Growth leaves no trace

Two builders that have different capacities and are otherwise alike (`Builder.Mirrors`) answer every
call alike and stay alike, whatever the arguments are and whether or not the call succeeds.  Each
operation is shown to keep them alike (`Build.Steady`); only `ensureCapacity` looks at the capacity
at all, and it refuses exactly what is past the limit of every buffer.
-/

namespace GraphWire

/-- Whether a record says that a buffer has grown. -/
def Event.isGrowth : Event → Bool
  | grown .. => true
  | _ => false

namespace Builder

/-- The records of a builder that are not about growth, latest first. -/
def notes (builder : Builder) : List Event :=
  builder.log.filter fun event => !event.isGrowth

/-- A builder with the options of some settings, at any capacity. -/
structure Obeys (builder : Builder) (settings : BuilderSettings) : Prop where
  forceDefaults : builder.forceDefaults = settings.forceDefaults
  dedupeVtables : builder.dedupeVtables = settings.dedupeVtables
  positive : 0 < builder.capacity
  limited : builder.capacity ≤ Layout.maxBufferSize

/-- Two builders that nothing but their capacities and their records of growth tells apart.  The
second one may have some older records. -/
structure Mirrors (settings : BuilderSettings) (older : List Event) (left right : Builder) :
    Prop where
  obeys : left.Obeys settings ∧ right.Obeys settings
  same : right = left.resized right.capacity right.log
  notes : right.notes = left.notes ++ older

variable {settings : BuilderSettings} {older : List Event} {left right : Builder}

namespace Mirrors

/-- A change that neither looks at the capacity and the records nor touches them. -/
theorem change (hmirrors : Mirrors settings older left right) (change : Builder → Builder)
    (hblind : ∀ builder capacity log,
      change (builder.resized capacity log) = (change builder).resized capacity log)
    (hforce : ∀ builder, (change builder).forceDefaults = builder.forceDefaults)
    (hdedupe : ∀ builder, (change builder).dedupeVtables = builder.dedupeVtables) :
    Mirrors settings older (change left) (change right) := by
  have hself (builder : Builder) :
      change builder = (change builder).resized builder.capacity builder.log :=
    hblind builder builder.capacity builder.log
  have hcapacity (builder : Builder) : (change builder).capacity = builder.capacity := by
    rw [hself]
    rfl
  have hlog (builder : Builder) : (change builder).log = builder.log := by
    rw [hself]
    rfl
  have hobeys {builder : Builder} (hbuilder : builder.Obeys settings) :
      (change builder).Obeys settings := by
    refine ⟨(hforce builder).trans hbuilder.forceDefaults,
      (hdedupe builder).trans hbuilder.dedupeVtables, ?_, ?_⟩
    · rw [hcapacity]
      exact hbuilder.positive
    · rw [hcapacity]
      exact hbuilder.limited
  refine ⟨⟨hobeys hmirrors.obeys.1, hobeys hmirrors.obeys.2⟩, ?_, ?_⟩
  · rw [hcapacity, hlog, ← hblind, ← hmirrors.same]
  · unfold Builder.notes
    rw [hlog, hlog]
    exact hmirrors.notes

/-- The same record on both sides. -/
theorem noting (hmirrors : Mirrors settings older left right) {event event' : Event}
    (hevent : event' = event) :
    Mirrors settings older { left with log := event :: left.log }
      { right with log := event' :: right.log } := by
  subst hevent
  obtain ⟨⟨hleft, hright⟩, hsame, hnotes⟩ := hmirrors
  have hresized := congrArg (resized · right.capacity (event' :: right.log)) hsame
  refine ⟨⟨⟨hleft.1, hleft.2, hleft.3, hleft.4⟩, ⟨hright.1, hright.2, hright.3, hright.4⟩⟩, ?_, ?_⟩
  · exact hresized
  · simp only [Builder.notes, List.filter_cons] at hnotes ⊢
    split
    · rw [hnotes]
      rfl
    · exact hnotes

end Mirrors

/-! ## Growing -/

/-- A builder grows as far as is required unless that is past the limit, wherever it began. -/
theorem Obeys.capacity_growTo_lt_iff {builder : Builder} (hobeys : builder.Obeys settings)
    (required : ℕ) :
    (builder.growTo required).capacity < required ↔ Layout.maxBufferSize < required := by
  have hlimit := grownCapacity_le builder.capacity required hobeys.limited
  have hreach := required_le_grownCapacity builder.capacity required hobeys.positive
  simp only [growTo]
  constructor
  · intro hshort
    by_contra hwithin
    have hreached := hreach (by omega)
    omega
  · intro hpast
    omega

theorem Obeys.growTo {builder : Builder} (hobeys : builder.Obeys settings) (required : ℕ) :
    (builder.growTo required).Obeys settings where
  forceDefaults := hobeys.forceDefaults
  dedupeVtables := hobeys.dedupeVtables
  positive := Nat.lt_of_lt_of_le hobeys.positive (le_grownCapacity builder.capacity required)
  limited := grownCapacity_le builder.capacity required hobeys.limited

/-- Growing logs growth alone. -/
theorem notes_growTo (builder : Builder) (required : ℕ) :
    (builder.growTo required).notes = builder.notes := by
  unfold notes growTo
  rw [List.filter_append, List.filter_eq_nil_iff.mpr, List.nil_append]
  intro event hevent
  obtain ⟨step, -, rfl⟩ := List.mem_map.mp (List.mem_reverse.mp hevent)
  simp [Event.isGrowth]

theorem Mirrors.growTo (hmirrors : Mirrors settings older left right) (required : ℕ) :
    Mirrors settings older (left.growTo required) (right.growTo required) where
  obeys := ⟨hmirrors.obeys.1.growTo required, hmirrors.obeys.2.growTo required⟩
  same := by
    have hsame := congrArg
      (resized · (right.growTo required).capacity (right.growTo required).log) hmirrors.same
    exact hsame
  notes := by
    rw [notes_growTo, notes_growTo]
    exact hmirrors.notes

end Builder

/-! ## Operations -/

namespace Build

/-- Two results of one operation: the same value or the same error, and builders alike. -/
def Agree {α : Type} (settings : BuilderSettings) (older : List Event) :
    EStateM.Result BuildError Builder α → EStateM.Result BuildError Builder α → Prop
  | .ok value left, .ok value' right => value' = value ∧ left.Mirrors settings older right
  | .error error left, .error error' right => error' = error ∧ left.Mirrors settings older right
  | _, _ => False

/-- An operation that keeps builders alike. -/
def Steady {α : Type} (settings : BuilderSettings) (older : List Event) (computation : Build α) :
    Prop :=
  ∀ ⦃left right⦄, Builder.Mirrors settings older left right →
    Agree settings older (computation left) (computation right)

variable {α β : Type} {settings : BuilderSettings} {older : List Event}

theorem Agree.of_ok {value : α} {left : Builder} {result : EStateM.Result BuildError Builder α}
    (hagree : Agree settings older (.ok value left) result) :
    ∃ right, result = .ok value right ∧ left.Mirrors settings older right := by
  cases result with
  | ok value' right =>
      obtain ⟨rfl, hmirrors⟩ := hagree
      exact ⟨right, rfl, hmirrors⟩
  | error error right => exact hagree.elim

theorem Agree.of_error {error : BuildError} {left : Builder}
    {result : EStateM.Result BuildError Builder α}
    (hagree : Agree settings older (.error error left) result) :
    ∃ right, result = .error error right ∧ left.Mirrors settings older right := by
  cases result with
  | ok value right => exact hagree.elim
  | error error' right =>
      obtain ⟨rfl, hmirrors⟩ := hagree
      exact ⟨right, rfl, hmirrors⟩

namespace Steady

theorem throw (error : BuildError) :
    Steady settings older (MonadExcept.throw error : Build α) :=
  fun _ _ hmirrors => ⟨rfl, hmirrors⟩

/-- A second step is only ever taken with what the first one gives. -/
theorem step {first : Build α} {next : α → Build β} (hfirst : Steady settings older first)
    (hnext : ∀ ⦃before value after⦄, first before = .ok value after →
      Steady settings older (next value)) : Steady settings older (first >>= next) := by
  intro left right hmirrors
  have hagree := hfirst hmirrors
  cases hleft : first left with
  | ok value middle =>
      rw [hleft] at hagree
      obtain ⟨middle', hright, hmiddle⟩ := hagree.of_ok
      rw [bind_of_ok hleft, bind_of_ok hright]
      exact hnext hleft hmiddle
  | error error middle =>
      rw [hleft] at hagree
      obtain ⟨middle', hright, hmiddle⟩ := hagree.of_error
      rw [bind_of_error hleft, bind_of_error hright]
      exact ⟨rfl, hmiddle⟩

/-- A builder keeps its settings. -/
theorem obeys {computation : Build α} (hsteady : Steady settings [] computation)
    {before after : Builder} {value : α} (hobeys : before.Obeys settings)
    (hresult : computation before = .ok value after) : after.Obeys settings := by
  have hself : Builder.Mirrors settings [] before before :=
    ⟨⟨hobeys, hobeys⟩, rfl, (List.append_nil _).symm⟩
  have hagree := hsteady hself
  rw [hresult] at hagree
  exact hagree.2.obeys.1

/-- Changing what is no matter of capacity. -/
theorem change {change : Builder → Builder}
    (hblind : ∀ builder capacity log,
      change (builder.resized capacity log) = (change builder).resized capacity log)
    (hforce : ∀ builder, (change builder).forceDefaults = builder.forceDefaults)
    (hdedupe : ∀ builder, (change builder).dedupeVtables = builder.dedupeVtables) :
    Steady settings older (modify change) :=
  fun _ _ hmirrors => ⟨rfl, hmirrors.change change hblind hforce hdedupe⟩

end Steady

/-! ### Making room -/

/-- What is past the limit of every buffer is refused at every capacity, and all else fits. -/
theorem ensureCapacity_steady (required : ℕ) :
    Steady settings older (ensureCapacity required) := by
  intro left right hmirrors
  have hgrown := hmirrors.growTo required
  have hleft := hmirrors.obeys.1.capacity_growTo_lt_iff required
  have hright := hmirrors.obeys.2.capacity_growTo_lt_iff required
  change Agree settings older
    ((if (left.growTo required).capacity < required then throw .capacityLimit
      else Pure.pure () : Build Unit) (left.growTo required))
    ((if (right.growTo required).capacity < required then throw .capacityLimit
      else Pure.pure () : Build Unit) (right.growTo required))
  simp only [hleft, hright]
  split
  · exact ⟨rfl, hgrown⟩
  · exact ⟨rfl, hgrown⟩

/-- Where a buffer may become large enough, padding succeeds. -/
theorem pad_of_room {before : Builder} (hobeys : before.Obeys settings) (zeros : ℕ) {required : ℕ}
    (hroom : required ≤ Layout.maxBufferSize) :
    pad zeros required before = .ok () { before.growTo required with
      written := before.written.push (List.replicate zeros 0) } := by
  have hwide : ¬(before.growTo required).capacity < required := by
    rw [hobeys.capacity_growTo_lt_iff]
    omega
  have hgrow : ensureCapacity required before = .ok () (before.growTo required) := by
    change (if (before.growTo required).capacity < required then throw .capacityLimit
      else pure () : Build Unit) (before.growTo required) = _
    rw [if_neg hwide]
    rfl
  exact bind_of_ok hgrow

/-- A reservation within the limit succeeds.  It has changed nothing but the room, the padding and
the alignment that it noted. -/
theorem reserve_of_room {before : Builder} (hobeys : before.Obeys settings)
    (hwritable : before.phase ≠ .finished) {alignment additional : ℕ}
    (hroom : before.written.size + padding alignment (before.written.size + additional) + alignment
      + additional ≤ Layout.maxBufferSize) :
    reserve alignment additional before = .ok ()
      { before.growTo (before.written.size + padding alignment (before.written.size + additional)
          + alignment + additional) with
        alignment := max before.alignment alignment
        written := before.written.push
          (List.replicate (padding alignment (before.written.size + additional)) 0) } := by
  let noted : Builder := { before with alignment := max before.alignment alignment }
  have hnoted : noted.Obeys settings :=
    ⟨hobeys.forceDefaults, hobeys.dedupeVtables, hobeys.positive, hobeys.limited⟩
  unfold reserve requireWritable
  simp only [bind_assoc, get_bind_apply, if_neg hwritable]
  exact pad_of_room hnoted _ hroom

/-! ### Operations made of others -/

/-- Whatever is made of the steps of a builder keeps builders alike. -/
theorem steady_operates : Operates (Steady settings older) where
  pure := fun _ _ _ hmirrors => ⟨rfl, hmirrors⟩
  throw := fun _ => .throw _
  step := Steady.step
  look := by
    intro _ next hblind hnext left right hmirrors
    have hsame : next right = next left := by
      rw [hmirrors.same]
      exact hblind left right.capacity right.log
    change Agree settings older (next left left) (next right right)
    rw [hsame]
    exact hnext left hmirrors
  ensureCapacity := ensureCapacity_steady
  push := fun _ => .change (fun _ _ _ => rfl) (fun _ => rfl) fun _ => rfl
  noteAlignment := fun _ => .change (fun _ _ _ => rfl) (fun _ => rfl) fun _ => rfl
  close := .change (fun _ _ _ => rfl) (fun _ => rfl) fun _ => rfl
  enclose := by
    intro opened hblind
    refine .change ?_ (fun _ => rfl) fun _ => rfl
    intro builder capacity log
    rw [hblind]
    rfl
  tabulates := by
    intro opened hblind
    refine .change ?_ (fun _ => rfl) fun _ => rfl
    intro builder capacity log
    rw [hblind]
    rfl

theorem startTable_steady (fieldCount : Number) :
    Steady settings older (startTable fieldCount) :=
  steady_operates.startTable (fun _ => .throw _) fieldCount

theorem linkBody_steady (body : Region) (table vtableSize : ℕ) :
    Steady settings older (linkBody body table vtableSize) := by
  intro left right hmirrors
  have hshared : sharedVtable? right (right.written.bytes.take vtableSize)
      = sharedVtable? left (left.written.bytes.take vtableSize) := by
    rw [hmirrors.same]
    rfl
  simp only [linkBody, get_bind_apply, hshared]
  cases sharedVtable? left (left.written.bytes.take vtableSize) with
  | some stored =>
      have hlinked := hmirrors.change
        (fun builder => { builder with
          written := body.push (vtableDistance stored.offset table)
          phase := .idle })
        (fun _ _ _ => rfl) (fun _ => rfl) fun _ => rfl
      exact ⟨rfl, hlinked⟩
  | none =>
      have hlinked := hmirrors.change
        (fun builder =>
          let bytes := builder.written.bytes.take vtableSize
          let vtable := builder.written.size
          { builder with
            written := (body.push (vtableDistance vtable table)).push bytes
            phase := .idle
            vtables :=
              if builder.dedupeVtables then ⟨bytes, vtable⟩ :: builder.vtables
              else builder.vtables
            vtableCount := builder.vtableCount + 1 })
        (fun _ _ _ => rfl) (fun _ => rfl) fun _ => rfl
      exact ⟨rfl, hlinked⟩

theorem endTable_steady : Steady settings older endTable :=
  steady_operates.endTable linkBody_steady

theorem table_steady (fields : List Field) : Steady settings older (table fields) :=
  steady_operates.table (startTable_steady _) steady_operates.addField endTable_steady

theorem markFinished_steady (identifier : Option String) :
    Steady settings older (markFinished identifier) := by
  intro left right hmirrors
  have hsealed := hmirrors.change (fun builder => { builder with phase := .finished })
    (fun _ _ _ => rfl) (fun _ => rfl) fun _ => rfl
  have hevent : Event.finished right.written.size right.vtableCount identifier
      = .finished left.written.size left.vtableCount identifier := by
    rw [hmirrors.same]
    rfl
  exact ⟨rfl, hsealed.noting hevent⟩

theorem clear_steady : Steady settings older clear :=
  .change (fun _ _ _ => rfl) (fun _ => rfl) fun _ => rfl

end Build

end GraphWire

import GraphWire.Proofs.Session.LifeCycle

/-!
# Sound builders

The facts about a single operation are stated for a sound builder, whose capacity is in range and
whose remembered vtables are in its buffer.  Every builder of a session is one, whatever was called
on it and whether or not it succeeded (`Builder.sound_run`): a call that fails has put bytes in
front at most, and a table that is closed has its vtable in the buffer by then.
-/

namespace GraphWire

/-- A builder that is sound if it was so before. -/
def Builder.KeepsSound (before after : Builder) : Prop :=
  before.Sound → after.Sound

instance : IsPreorder Builder Builder.KeepsSound where
  refl _ := id
  trans _ _ _ hfirst hsecond := hsecond ∘ hfirst

namespace Build

theorem keepsSound_operates : Operates (Leads Builder.KeepsSound) where
  toSequences := Leads.sequences
  ensureCapacity := .ensureCapacity fun _ _ hsound =>
    ⟨hsound.positive.trans_le (le_grownCapacity _ _), grownCapacity_le _ _ hsound.limited,
      hsound.shared⟩
  push := fun _ => .change fun _ hsound => ⟨hsound.positive, hsound.limited,
    fun stored hstored => (hsound.shared stored hstored).mono (List.suffix_append _ _)⟩
  noteAlignment := fun _ => .change fun _ hsound =>
    ⟨hsound.positive, hsound.limited, hsound.shared⟩
  close := .change fun _ hsound => hsound.inPhase _
  enclose := fun _ _ => .change fun _ hsound => hsound.inPhase _
  tabulates := fun _ _ => .change fun _ hsound => hsound.inPhase _

/-- A vtable is remembered only once the table that it belongs to has been linked to it. -/
theorem endTable_keepsSound : Leads Builder.KeepsSound endTable := by
  intro before hsound
  cases hresult : endTable before with
  | ok table after =>
      obtain ⟨opened, hphase⟩ := phase_of_endTable hresult
      obtain ⟨-, -, -, hjoins⟩ := (endTable_joins hsound hphase).ok hresult
      rw [leaves_of_ok hresult]
      exact hjoins.adds.sound
  | error error after =>
      rw [leaves_of_error hresult]
      exact endTable_fails keepsSound_operates.toPrepends hresult hsound

end Build

section

open Build

/-- No call, whether or not it succeeds, makes a sound builder unsound. -/
theorem Call.perform_keepsSound (call : Call) : Leads Builder.KeepsSound call.perform :=
  keepsSound_operates.perform (fun _ => .throw _) (keepsSound_operates.startTable fun _ => .throw _)
    keepsSound_operates.addField endTable_keepsSound
    (fun _ => .change fun _ hsound => ⟨hsound.positive, hsound.limited, hsound.shared⟩)
    (.change fun _ hsound => ⟨hsound.positive, hsound.limited, nofun⟩) call

end

/-- Every builder of a session is sound, also after calls that failed. -/
theorem Builder.sound_run {options : BuilderOptions} {settings : BuilderSettings}
    (hsettings : options.resolve = .ok settings) (calls : List Call) :
    ((Builder.new settings).run calls).2.Sound :=
  run_leads (fun call _ => call.perform_keepsSound) _ (sound_new hsettings)

end GraphWire

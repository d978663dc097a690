import GraphWire.Proofs.Builder.Capacity
import GraphWire.Proofs.Session.Growth
import GraphWire.Proofs.Session.LifeCycle

/-!
# Making room

Making room puts the next value at the least aligned position and pads up to there.  The buffer has
then grown no further than it had to: from the capacity that the builder began with, through every
doubling on the way, to the first that holds what was asked for (`Builder.MakesRoom`).
-/

namespace GraphWire

/-! ## Capacities -/

section Calls

open Build

/-- No call, whether or not it succeeds, changes the capacity other than by doublings. -/
theorem Call.perform_doubles (call : Call) : Leads Builder.Doubles call.perform :=
  doubles_operates.perform (fun _ => .throw _) (doubles_operates.startTable fun _ => .throw _)
    doubles_operates.addField (doubles_operates.endTable linkBody_doubles)
    (fun _ => change_doubles fun _ => rfl) (change_doubles fun _ => rfl) call

end Calls

namespace Builder

variable {settings : BuilderSettings} {before after : Builder} {initial required : ℕ}

/-- After any session the capacity is the first one, doubled some number of times. -/
theorem capacity_run {options : BuilderOptions} (hsettings : options.resolve = .ok settings)
    (calls : List Call) : ∃ doublings,
      ((Builder.new settings).run calls).2.capacity = doubled settings.initialSize doublings := by
  obtain ⟨⟨-, hlimited⟩, -⟩ := options.settings_of_resolve hsettings
  exact run_leads (fun call _ => call.perform_doubles) (Builder.new settings) hlimited

/-! ## Growth -/

/-- A builder after its buffer has grown as far as is required, where `enlarge` gives what a
capacity is after some doublings. -/
structure GrowsBy (before : Builder) (enlarge : ℕ → ℕ → ℕ) (initial required : ℕ)
    (after : Builder) : Prop where
  /-- No smaller capacity that the buffer can have would do. -/
  least : IsLeast {capacity | (∃ doublings, capacity = enlarge initial doublings) ∧
    before.capacity ≤ capacity ∧ required ≤ capacity} after.capacity
  /-- There is a record for each doubling, and no doubling was one too many. -/
  records : ∃ doublings ≤ 31,
    IsLeast {doublings | required ≤ enlarge before.capacity doublings} doublings ∧
    after.capacity = enlarge before.capacity doublings ∧
    after.events = before.events ++ (List.range doublings).map fun earlier =>
      .grown (enlarge before.capacity earlier) (enlarge before.capacity (earlier + 1))

/-- A buffer that is one of the doublings of its first capacity grows to the next that will do. -/
theorem growsBy_growTo (hpositive : 0 < before.capacity)
    (hinitial : ∃ doublings, before.capacity = doubled initial doublings)
    (hrequired : required ≤ Layout.maxBufferSize) :
    before.GrowsBy doubled initial required (before.growTo required) := by
  obtain ⟨earlier, hearlier⟩ := hinitial
  have hlimited : before.capacity ≤ Layout.maxBufferSize := hearlier ▸ doubled_le _ _
  have hgrown : (before.growTo required).capacity
      = doubled before.capacity (growth before.capacity required).length :=
    grownCapacity_growth hlimited
  have hleast := isLeast_length_growth hpositive hlimited hrequired
  refine ⟨⟨⟨?_, ?_, ?_⟩, ?_⟩, _, ?_, hleast, hgrown, ?_⟩
  · exact ⟨earlier + (growth before.capacity required).length,
      by rw [hgrown, ← doubled_doubled, ← hearlier]⟩
  · exact le_grownCapacity before.capacity required
  · rw [hgrown]
    exact hleast.1
  · rintro _ ⟨⟨doublings, rfl⟩, hkept, henough⟩
    rw [hgrown]
    rcases Nat.le_total earlier doublings with hlater | hbefore
    · -- Some doublings after those that the buffer has had.
      obtain ⟨more, rfl⟩ := Nat.exists_eq_add_of_le hlater
      rw [← doubled_doubled, ← hearlier] at henough ⊢
      exact doubled_mono _ (hleast.2 henough)
    · -- As many as the buffer has had, so nothing had to grow.
      have hsame : doubled initial doublings = before.capacity :=
        le_antisymm (hearlier ▸ doubled_mono initial hbefore) hkept
      have hnone : (growth before.capacity required).length ≤ 0 :=
        hleast.2 (by rwa [Set.mem_ofPred_eq, doubled_zero hlimited, ← hsame])
      rw [Nat.le_zero.mp hnone, doubled_zero hlimited, hsame]
  · apply hleast.2
    rwa [Set.mem_ofPred_eq, doubled_eq_limit hpositive]
  · simp only [events, growTo, List.reverse_append, List.reverse_reverse]
    conv_lhs => rw [growth_eq hlimited]
    rw [List.map_map]
    rfl

/-- Below the limit every step of growth was a whole doubling. -/
theorem GrowsBy.exactly (hgrows : before.GrowsBy doubled initial required after)
    (hbelow : after.capacity < Layout.maxBufferSize) :
    before.GrowsBy (fun capacity doublings => capacity * 2 ^ doublings) initial required after := by
  obtain ⟨⟨⟨⟨total, htotal⟩, hkept, henough⟩, hleast⟩, doublings, hfew, ⟨-, hfewest⟩, hafter,
    hevents⟩ := hgrows
  have hwhole {earlier : ℕ} (hearlier : earlier ≤ doublings) :
      doubled before.capacity earlier = before.capacity * 2 ^ earlier :=
    doubled_of_lt ((doubled_mono before.capacity hearlier).trans_lt (hafter ▸ hbelow))
  have hexact := hafter.trans (hwhole (le_refl doublings))
  refine ⟨⟨⟨⟨total, ?_⟩, hkept, henough⟩, ?_⟩, doublings, hfew, ⟨?_, ?_⟩, hexact, ?_⟩
  · rw [htotal] at hbelow ⊢
    exact doubled_of_lt hbelow
  · rintro _ ⟨⟨other, rfl⟩, hkept', henough'⟩
    have hother := hleast ⟨⟨other, rfl⟩, le_min hkept' (hkept.trans hbelow.le),
      le_min henough' (henough.trans hbelow.le)⟩
    exact hother.trans (Nat.min_le_left _ _)
  · exact henough.trans hexact.le
  · intro other (hother : required ≤ before.capacity * 2 ^ other)
    exact hfewest (le_min hother (henough.trans hbelow.le))
  · rw [hevents]
    congr 1
    apply List.map_congr_left
    intro earlier hearlier
    have hless := List.mem_range.mp hearlier
    rw [hwhole hless.le, hwhole hless]

/-! ## Reservations -/

/-- A builder after room has been made for `size` bytes at a multiple of `size` behind which `bytes`
more are written first. -/
structure MakesRoom (before : Builder) (initial size bytes : ℕ) (after : Builder) : Prop where
  /-- Nothing is padded that need not be. -/
  offset : IsLeast {offset | before.offset ≤ offset ∧ size ∣ offset + bytes} after.offset
  written : after.written.bytes
    = List.replicate (after.offset - before.offset) 0 ++ before.written.bytes
  free : size + bytes ≤ after.capacity - after.offset
  grows : before.GrowsBy doubled initial (after.offset + size + bytes) after
  grows_exactly : after.capacity < Layout.maxBufferSize → before.GrowsBy
    (fun capacity doublings => capacity * 2 ^ doublings) initial (after.offset + size + bytes) after
  rest : after = { before with
    written := after.written, capacity := after.capacity, log := after.log
    alignment := max before.alignment size }

/-- Room is made in any builder that is not finished, as long as some aligned position leaves room
for it below the limit. -/
theorem Obeys.reserve_makesRoom (hobeys : before.Obeys settings)
    (hinitial : ∃ doublings, before.capacity = doubled initial doublings)
    (hunfinished : before.phase ≠ .finished) {exponent bytes position : ℕ} (hsmall : exponent ≤ 32)
    (hposition : before.offset ≤ position) (haligned : 2 ^ exponent ∣ position + bytes)
    (hroom : position + 2 ^ exponent + bytes ≤ Layout.maxBufferSize) :
    ∃ after, Build.reserve (2 ^ exponent) bytes before = .ok () after ∧
      before.MakesRoom initial (2 ^ exponent) bytes after := by
  let zeros := padding (2 ^ exponent) (before.offset + bytes)
  let required := before.offset + zeros + 2 ^ exponent + bytes
  have hleast (offset : ℕ) (hoffset : before.offset ≤ offset)
      (hdivides : 2 ^ exponent ∣ offset + bytes) : before.offset + zeros ≤ offset := by
    have hpadded := add_padding_le hsmall (Nat.add_le_add_right hoffset bytes) hdivides
    simp only [zeros]
    omega
  have hrequired : required ≤ Layout.maxBufferSize := by
    have hfirst := hleast position hposition haligned
    simp only [required]
    omega
  let padded : Builder := { before.growTo required with
    alignment := max before.alignment (2 ^ exponent : ℕ)
    written := before.written.push (List.replicate zeros 0) }
  have hoffset : padded.offset = before.offset + zeros := by
    change (List.replicate zeros (0 : UInt8)).length + before.offset = _
    rw [List.length_replicate, Nat.add_comm]
  have hgrown := growsBy_growTo hobeys.positive hinitial hrequired
  have hgrows : before.GrowsBy doubled initial (padded.offset + 2 ^ exponent + bytes) padded := by
    rw [hoffset]
    exact ⟨hgrown.least, hgrown.records⟩
  refine ⟨padded, Build.reserve_of_room hobeys hunfinished hrequired, ?_⟩
  exact {
    offset := by
      rw [hoffset]
      refine ⟨⟨Nat.le_add_right _ _, ?_⟩, fun offset hother => hleast offset hother.1 hother.2⟩
      rw [Nat.add_right_comm]
      exact dvd_add_padding hsmall _
    written := by
      rw [hoffset, Nat.add_sub_cancel_left]
      rfl
    free := by
      have henough := hgrows.least.1.2.2
      omega
    grows := hgrows
    grows_exactly := hgrows.exactly
    rest := rfl }

/-- Making room within the limit, whatever was called on the builder before, whether or not those
calls succeeded, and whatever is open.  The new offset is the least aligned one, and up to it there
are zero bytes.  The capacity is the least doubling of the first capacity that is not below the old
one and holds what was asked for, and it was reached in at most thirty-one recorded steps, each from
where the one before it ended.  A step doubles the capacity, but for a last one that reaches the
limit; nothing else changes but the alignment that is noted. -/
theorem prepare_makesRoom {options : BuilderOptions} (hsettings : options.resolve = .ok settings)
    {calls : List Call} (hbefore : ((Builder.new settings).run calls).2 = before)
    (hunfinished : before.phase ≠ .finished) {exponent bytes position : ℕ} {additional : Number}
    (hbytes : additional.toNat? = some bytes) (hposition : before.offset ≤ position)
    (haligned : 2 ^ exponent ∣ position + bytes)
    (hroom : position + 2 ^ exponent + bytes ≤ Layout.maxBufferSize) :
    ∃ after, Build.prepare (2 ^ exponent : ℕ) additional before = .ok () after ∧
      before.MakesRoom settings.initialSize (2 ^ exponent) bytes after := by
  have hobeys : before.Obeys settings :=
    hbefore ▸ ((mirrors_new hsettings hsettings rfl rfl).run calls).2.obeys.1
  have hinitial := hbefore ▸ capacity_run hsettings calls
  have hpower : 2 ^ exponent ≤ Build.maxAlignment := by
    have hlimit : Layout.maxBufferSize < Build.maxAlignment := by decide
    omega
  have hexponent : exponent ≤ 31 := (Nat.pow_le_pow_iff_right (by decide)).mp hpower
  have hreserve : Build.prepare (2 ^ exponent : ℕ) additional before
      = Build.reserve (2 ^ exponent) bytes before := by
    simp only [Build.prepare, Number.toNat?_natCast, hbytes,
      if_pos (And.intro (Nat.two_pow_pos exponent) hpower)]
  rw [hreserve]
  exact hobeys.reserve_makesRoom hinitial hunfinished (by omega) hposition haligned hroom

/-- A builder of one byte, with a table open, makes room for eight bytes behind which there will be
five: it pads two bytes and grows four times. -/
theorem prepare_makesRoom_one :
    let before := ((Builder.new ⟨1, false, true⟩).run [.write .uint8 (7 : Number), .startTable 1]).2
    before.phase ≠ .finished ∧ before.offset = 1 ∧ before.capacity = 1 ∧
      ∃ after, Build.prepare (2 ^ 3 : ℕ) 5 before = .ok () after ∧
        before.MakesRoom 1 (2 ^ 3) 5 after ∧ after.offset = 3 ∧ after.capacity = 16 := by
  intro before
  have hsettings : BuilderOptions.resolve { initialSize := some 1 } = .ok ⟨1, false, true⟩ := by rfl
  have hunfinished : before.phase ≠ .finished := by decide +kernel
  have hposition : before.offset ≤ 3 := by decide +kernel
  have haligned : 2 ^ 3 ∣ 3 + 5 := by decide
  obtain ⟨after, hdone, hmakes⟩ := prepare_makesRoom hsettings rfl hunfinished
    (Number.toNat?_literal 5) hposition haligned (by decide)
  have hafter := Build.leaves_of_ok hdone
  refine ⟨hunfinished, by decide +kernel, by decide +kernel, after, hdone, hmakes, ?_, ?_⟩
  · rw [← hafter]
    decide +kernel
  · rw [← hafter]
    decide +kernel

end Builder

end GraphWire

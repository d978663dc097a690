import GraphWire.Proofs.Builder.Growth
import GraphWire.Proofs.Builder.Progress
import Mathlib.Order.Bounds.Defs

/-!
# Growth by doubling

A buffer that runs out of room is doubled, again and again until it holds what is required, and the
last doubling stops at the limit (`doubled`).  No operation, whether or not it succeeds, changes the
capacity in any other way (`Builder.Doubles`).  So each capacity that a builder ever has is its
first one, doubled some number of times.
-/

namespace GraphWire

/-- A capacity after some doublings, none of which goes past the limit. -/
def doubled (capacity doublings : ℕ) : ℕ :=
  min (capacity * 2 ^ doublings) Layout.maxBufferSize

/-! ## Doubling -/

section

variable {capacity : ℕ}

theorem doubled_le (capacity doublings : ℕ) : doubled capacity doublings ≤ Layout.maxBufferSize :=
  Nat.min_le_right _ _

/-- Below the limit nothing is cut off. -/
theorem doubled_of_lt {doublings : ℕ} (hbelow : doubled capacity doublings < Layout.maxBufferSize) :
    doubled capacity doublings = capacity * 2 ^ doublings := by
  unfold doubled at hbelow ⊢
  omega

theorem doubled_zero (hlimited : capacity ≤ Layout.maxBufferSize) :
    doubled capacity 0 = capacity := by
  unfold doubled
  rw [pow_zero, mul_one, Nat.min_eq_left hlimited]

/-- Doublings in a row add up: what has reached the limit stays there. -/
theorem doubled_doubled (capacity first second : ℕ) :
    doubled (doubled capacity first) second = doubled capacity (first + second) := by
  unfold doubled
  rw [pow_add, ← mul_assoc]
  rcases Nat.le_total (capacity * 2 ^ first) Layout.maxBufferSize with hbelow | hpast
  · rw [Nat.min_eq_left hbelow]
  · have hlater (size : ℕ) : size ≤ size * 2 ^ second :=
      Nat.le_mul_of_pos_right size (Nat.two_pow_pos second)
    rw [Nat.min_eq_right hpast, Nat.min_eq_right (hlater _),
      Nat.min_eq_right (hpast.trans (hlater _))]

theorem doubled_mono (capacity : ℕ) {fewer more : ℕ} (hle : fewer ≤ more) :
    doubled capacity fewer ≤ doubled capacity more := by
  have hpower := Nat.mul_le_mul_left capacity (Nat.pow_le_pow_right Nat.two_pos hle)
  exact min_le_min_right _ hpower

/-- No buffer is doubled more often than there are bits in the limit. -/
theorem doubled_eq_limit (hpositive : 0 < capacity) :
    doubled capacity 31 = Layout.maxBufferSize := by
  have hlimit : Layout.maxBufferSize ≤ 2 ^ 31 := by decide
  exact Nat.min_eq_right (hlimit.trans (Nat.le_mul_of_pos_left _ hpositive))

end

/-! ## Growing -/

section

variable {capacity required : ℕ}

/-- The first step of growing is one doubling, and the others go on from there. -/
theorem doubled_next (capacity doublings : ℕ) :
    doubled (min (2 * capacity) Layout.maxBufferSize) doublings
      = doubled capacity (doublings + 1) := by
  have hnext : min (2 * capacity) Layout.maxBufferSize = doubled capacity 1 := by
    unfold doubled
    rw [pow_one, mul_comm]
  rw [hnext, doubled_doubled, Nat.add_comm]

/-- Each step of growing doubles what the steps before it have reached. -/
theorem growth_eq (hlimited : capacity ≤ Layout.maxBufferSize) :
    growth capacity required = (List.range (growth capacity required).length).map
      fun doublings => (doubled capacity doublings, doubled capacity (doublings + 1)) := by
  fun_induction growth capacity required with
  | case1 capacity hmore next ih =>
      have hlimit := Nat.min_le_right (2 * capacity) Layout.maxBufferSize
      have hfirst := doubled_next capacity 0
      rw [doubled_zero hlimit] at hfirst
      rw [List.length_cons, List.range_succ_eq_map, List.map_cons, List.map_map,
        doubled_zero hlimited, ← hfirst]
      conv_lhs => rw [ih hlimit]
      simp only [next, doubled_next]
      rfl
  | case2 => rfl

/-- Growing ends with as many doublings as there were steps. -/
theorem grownCapacity_growth (hlimited : capacity ≤ Layout.maxBufferSize) :
    grownCapacity capacity (growth capacity required)
      = doubled capacity (growth capacity required).length := by
  fun_induction growth capacity required with
  | case1 capacity hmore next ih =>
      rw [grownCapacity_cons, ih (Nat.min_le_right _ _), doubled_next, List.length_cons]
  | case2 => exact (doubled_zero hlimited).symm

/-- Growing takes no more steps than it needs to. -/
theorem isLeast_length_growth (hpositive : 0 < capacity)
    (hlimited : capacity ≤ Layout.maxBufferSize) (hreachable : required ≤ Layout.maxBufferSize) :
    IsLeast {doublings | required ≤ doubled capacity doublings}
      (growth capacity required).length := by
  fun_induction growth capacity required with
  | case1 capacity hmore next ih =>
      obtain ⟨hreached, hleast⟩ := ih (by omega) (Nat.min_le_right _ _)
      change required ≤ doubled next _ at hreached
      rw [doubled_next] at hreached
      refine ⟨hreached, ?_⟩
      intro doublings (henough : required ≤ doubled capacity doublings)
      cases doublings with
      | zero =>
          rw [doubled_zero hlimited] at henough
          omega
      | succ doublings =>
          rw [← doubled_next] at henough
          exact Nat.succ_le_succ (hleast henough)
  | case2 capacity henough =>
      have hcapacity := doubled_zero hlimited
      refine ⟨?_, fun _ _ => Nat.zero_le _⟩
      change required ≤ doubled capacity 0
      omega

end

/-! ## Builders -/

/-- A builder after its buffer has been doubled some number of times, and whatever else happened to
it. -/
def Builder.Doubles (before after : Builder) : Prop :=
  before.capacity ≤ Layout.maxBufferSize →
    ∃ doublings, after.capacity = doubled before.capacity doublings

instance : IsPreorder Builder Builder.Doubles where
  refl _ := fun hlimited => ⟨0, (doubled_zero hlimited).symm⟩
  trans := by
    intro before middle after hfirst hsecond hlimited
    obtain ⟨first, hmiddle⟩ := hfirst hlimited
    obtain ⟨second, hafter⟩ := hsecond (hmiddle ▸ doubled_le _ _)
    exact ⟨first + second, by rw [hafter, hmiddle, doubled_doubled]⟩

namespace Builder.Doubles

variable {before after : Builder}

theorem of_capacity (hcapacity : after.capacity = before.capacity) : before.Doubles after :=
  fun hlimited => ⟨0, by rw [hcapacity, doubled_zero hlimited]⟩

theorem growTo (builder : Builder) (required : ℕ) : builder.Doubles (builder.growTo required) :=
  fun hlimited => ⟨_, grownCapacity_growth hlimited⟩

end Builder.Doubles

namespace Build

/-! ### Operations -/

/-- A change of anything but the capacity. -/
theorem change_doubles {change : Builder → Builder}
    (hcapacity : ∀ builder, (change builder).capacity = builder.capacity) :
    Leads Builder.Doubles (modify change) :=
  .change fun builder => .of_capacity (hcapacity builder)

/-- Whatever is made of the steps of a builder changes the capacity by doublings alone. -/
theorem doubles_operates : Operates (Leads Builder.Doubles) where
  toSequences := Leads.sequences
  ensureCapacity := .ensureCapacity .growTo
  push := fun _ => change_doubles fun _ => rfl
  noteAlignment := fun _ => change_doubles fun _ => rfl
  close := change_doubles fun _ => rfl
  enclose := fun _ _ => change_doubles fun _ => rfl
  tabulates := fun _ _ => change_doubles fun _ => rfl

theorem linkBody_doubles (body : Region) (table vtableSize : ℕ) :
    Leads Builder.Doubles (linkBody body table vtableSize) := by
  intro before
  obtain ⟨linked, hlinked, hrelinks⟩ := linkBody_relinks body table vtableSize before
  rw [leaves_of_ok hlinked]
  exact .of_capacity hrelinks.capacity

end Build

end GraphWire

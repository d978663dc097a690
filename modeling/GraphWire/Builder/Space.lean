import GraphWire.Builder.Basic

/-!
# Space

Before anything is written, `Build.reserve` pads the written region and makes sure that the buffer
holds what is to come.  Alignment counts from the end of the buffer, the only point that stays put
while the buffer grows, so a value is aligned when the size of the region after writing it is a
multiple of its alignment.  `Build.prepare` is the same for a caller's own sizes, which may be any
numbers.
-/

namespace GraphWire

-- Powers are those of the core library, also where another power is in scope.
attribute [local instance (high)] instPowNat

/-- The zero bytes to write so that `size` bytes become a multiple of the alignment.  The residue
is taken on 32-bit words, whence an alignment that is no power of two has the padding that its bits
select. -/
def padding (alignment size : Nat) : Nat :=
  (2 ^ (32 : Nat) - size % 2 ^ (32 : Nat)) &&& (alignment - 1)

/-- The padding for numbers of any kind.  Residue and mask are taken on 32-bit words, and so is the
result, which is negative when the mask has the highest bit. -/
def wordPadding (alignment size : Number) : Int :=
  let residue := TwosComplement.word 4 (-size.truncated)
  let mask := TwosComplement.word 4 (alignment + Number.ofInt (-1)).truncated
  TwosComplement.ofWord true 4 (residue &&& mask)

/-- The capacity at which `room` bytes are free beside `size` written ones.  Every capacity has as
much room as not-a-number, and none has infinite room. -/
def capacityFor (size : Nat) (room : Number) : Nat :=
  match room with
  | .nan | .infinity true => 0
  | .infinity false => Layout.maxBufferSize + 1
  | _ => (size + room.ceiling).toNat

/-- The doublings of a capacity until it holds the required bytes or the limit is reached, each as
the capacity before and after. -/
def growth (capacity required : Nat) : List (Nat × Nat) :=
  if capacity < required ∧ 0 < capacity ∧ capacity < Layout.maxBufferSize then
    let next := min (2 * capacity) Layout.maxBufferSize
    (capacity, next) :: growth next required
  else []
termination_by Layout.maxBufferSize - capacity
decreasing_by omega

def grownCapacity (capacity : Nat) (steps : List (Nat × Nat)) : Nat :=
  match steps.getLast? with
  | some step => step.2
  | none => capacity

/-- Padding makes the size a multiple of an alignment that is a power of two. -/
theorem dvd_add_padding {exponent : Nat} (hsmall : exponent ≤ 32) (size : Nat) :
    2 ^ exponent ∣ size + padding (2 ^ exponent) size := by
  unfold padding
  rw [Nat.and_two_pow_sub_one_eq_mod]
  have hwhole : 2 ^ exponent ∣ 2 ^ 32 := Nat.pow_dvd_pow 2 hsmall
  have hbelow : size % 2 ^ 32 < 2 ^ 32 := Nat.mod_lt _ (by decide)
  apply Nat.dvd_of_mod_eq_zero
  rw [Nat.add_mod, Nat.mod_mod, ← Nat.add_mod]
  obtain ⟨quotient, hparts⟩ : 2 ^ 32 ∣ size + (2 ^ 32 - size % 2 ^ 32) := by
    refine ⟨size / 2 ^ 32 + 1, ?_⟩
    have hdivision := Nat.div_add_mod size (2 ^ 32)
    omega
  rw [hparts]
  exact Nat.mod_eq_zero_of_dvd (Nat.dvd_trans hwhole (Nat.dvd_mul_right _ _))

/-- Padding is the least that does so. -/
theorem padding_lt (exponent size : Nat) : padding (2 ^ exponent) size < 2 ^ exponent := by
  unfold padding
  rw [Nat.and_two_pow_sub_one_eq_mod]
  exact Nat.mod_lt _ (Nat.pow_pos (by decide))

@[simp]
theorem grownCapacity_nil (capacity : Nat) : grownCapacity capacity [] = capacity := rfl

@[simp]
theorem grownCapacity_cons (capacity : Nat) (step : Nat × Nat) (steps : List (Nat × Nat)) :
    grownCapacity capacity (step :: steps) = grownCapacity step.2 steps := by
  unfold grownCapacity
  rw [List.getLast?_cons]
  cases steps.getLast? <;> rfl

theorem le_grownCapacity (capacity required : Nat) :
    capacity ≤ grownCapacity capacity (growth capacity required) := by
  fun_induction growth capacity required with
  | case1 capacity hmore next ih =>
      rw [grownCapacity_cons]
      have hdoubled : capacity ≤ next := by omega
      exact Nat.le_trans hdoubled ih
  | case2 => simp

theorem grownCapacity_le (capacity required : Nat) (hbounded : capacity ≤ Layout.maxBufferSize) :
    grownCapacity capacity (growth capacity required) ≤ Layout.maxBufferSize := by
  fun_induction growth capacity required with
  | case1 capacity hmore next ih =>
      rw [grownCapacity_cons]
      exact ih (Nat.min_le_right _ _)
  | case2 => simpa using hbounded

/-- A buffer grows as far as is required, unless that is past the limit. -/
theorem required_le_grownCapacity (capacity required : Nat) (hpositive : 0 < capacity)
    (hreachable : required ≤ Layout.maxBufferSize) :
    required ≤ grownCapacity capacity (growth capacity required) := by
  fun_induction growth capacity required with
  | case1 capacity hmore next ih =>
      rw [grownCapacity_cons]
      have hlimit : 0 < Layout.maxBufferSize := by decide
      exact ih (by omega)
  | case2 capacity hdone =>
      rw [grownCapacity_nil]
      omega

/-- The builder after growing towards the required number of bytes, one record for each doubling. -/
def Builder.growTo {σ : Type} [Store σ] (builder : Builder σ) (required : Nat) : Builder σ :=
  let steps := growth builder.capacity required
  let records := steps.map fun step => Event.grown step.1 step.2
  { builder with
    capacity := grownCapacity builder.capacity steps
    written := Store.grow steps builder.written
    log := records.reverse ++ builder.log }

namespace Build

variable {σ : Type} [Store σ]

def requireWritable : BuildOver σ Unit := do
  if (← get).phase = .finished then throw .alreadyFinished

/-- Refuses to begin something while a table or a vector is open. -/
def requireIdle (what : Opening) : BuildOver σ Unit := do
  match (← get).phase with
  | .table _ => throw (.insideTable what)
  | .vector _ => throw (.insideVector what)
  | .idle | .finished => return

def push (bytes : List UInt8) : BuildOver σ Unit :=
  modify fun builder => { builder with written := Store.push bytes builder.written }

def pushZeros (count : Nat) : BuildOver σ Unit :=
  modify fun builder => { builder with written := Store.pad count builder.written }

def ensureCapacity (required : Nat) : BuildOver σ Unit := do
  modify fun builder => builder.growTo required
  if (← get).capacity < required then throw .capacityLimit

def pad (zeros required : Nat) : BuildOver σ Unit := do
  ensureCapacity required
  pushZeros zeros

def noteAlignment (alignment : Number) : BuildOver σ Unit :=
  modify fun builder => { builder with alignment := max builder.alignment alignment }

/-- Makes room for `alignment` bytes at a multiple of `alignment` once `additional` more bytes are
written, and pads so that they will lie there. -/
def reserve (alignment additional : Nat) : BuildOver σ Unit := do
  requireWritable
  noteAlignment alignment
  let size := (← get).offset
  let zeros := padding alignment (size + additional)
  pad zeros (size + zeros + alignment + additional)

/-- The same for numbers of any kind, on binary64 sums and 32-bit words.  A negative padding pads
nothing but counts in the room that is asked for. -/
def reserveWords (alignment additional : Number) : BuildOver σ Unit := do
  requireWritable
  noteAlignment alignment
  let size := (← get).offset
  let padding := wordPadding alignment (size + additional)
  pad padding.toNat (capacityFor size (Number.ofInt padding + alignment + additional))

/-- The largest alignment with a mask that is no negative word. -/
def maxAlignment : Nat := 2 ^ (31 : Nat)

/-- Makes room as a caller asks for it.  The natural numbers among the alignments and sizes are
those of `reserve`; whatever else a caller may give is taken by its words. -/
def prepare (alignment additional : Number) : BuildOver σ Unit :=
  match alignment.toNat?, additional.toNat? with
  | some width, some bytes =>
      if 0 < width ∧ width ≤ maxAlignment then reserve width bytes
      else reserveWords alignment additional
  | _, _ => reserveWords alignment additional

/-- Natural sizes are reserved in natural arithmetic. -/
theorem prepare_natCast {alignment : Nat} (hpositive : 0 < alignment)
    (hsmall : alignment ≤ maxAlignment) (additional : Nat) :
    prepare (σ := σ) alignment additional = reserve alignment additional := by
  simp [prepare, hpositive, hsmall]

def writeWord (width word : Nat) : BuildOver σ Unit := do
  reserve width 0
  push (LittleEndian.split width word)

/-- Writes a scalar at its own alignment.  A value that its type cannot hold is refused before
anything changes. -/
def write (type : Scalar) (value : type.Value) : BuildOver σ Unit := do
  match type.word value with
  | .ok word => writeWord type.width word
  | .error refused => throw (.unrepresentable refused)

/-- Writes a reference to an object that is in the buffer: the distance from the reference to the
object. -/
def writeOffset (target : Number) : BuildOver σ Unit := do
  reserve Layout.offsetWidth 0
  let size := (← get).offset
  match target.toNat?.filter fun target => 0 < target ∧ target ≤ size with
  | some target => write .uint32 ((size - target + Layout.offsetWidth : Nat) : Number)
  | none => throw (.unwrittenOffset target size)

/-- Writes the items of a list so that the first item is in front. -/
def writeAll {α : Type} (writeOne : α → BuildOver σ Unit) : List α → BuildOver σ Unit
  | [] => return
  | item :: items => do
      writeAll writeOne items
      writeOne item

end Build

end GraphWire

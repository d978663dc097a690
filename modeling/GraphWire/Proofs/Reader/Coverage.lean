import GraphWire.Reader.Table
import Mathlib.Algebra.Group.Nat.Defs
import Mathlib.Data.List.Basic

/-!
# Every load is covered

A load outside the window would end a read with `Malformed.uncovered`, whose name says that no check
stood in front of it.  The checks are spread over claims, offset targets, vtables and vector counts.
This file shows for all bytes whatever that each later load lies in a range that an earlier check
has accepted, and says at the same time what kind of value each accessor gives.
-/

namespace GraphWire

/-! ## Access to elements -/

namespace AccessError

variable {α : Type}

/-- What is found in the bytes on the way to an element is found by the caller. -/
theorem lift_ok (value : α) :
    (liftM (Except.ok value : Except Malformed α) : Except AccessError α) = .ok value := rfl

/-- And so is what contradicts the format. -/
theorem lift_error (cause : Malformed) :
    (liftM (Except.error cause : Except Malformed α) : Except AccessError α)
      = .error (.malformed cause) := rfl

end AccessError

/-! ## Ends of computations -/

/-- A computation that ends in a value with one property or in an error with another. -/
def Ends {ε α : Type} (property : α → Prop) (refusal : ε → Prop) (result : Except ε α) : Prop :=
  match result with
  | .ok value => property value
  | .error error => refusal error

namespace Ends

variable {ε α β : Type} {refusal : ε → Prop}

@[simp]
theorem ok_iff {property : α → Prop} {value : α} :
    Ends property refusal (.ok value) ↔ property value := Iff.rfl

@[simp]
theorem pure_iff {property : α → Prop} {value : α} :
    Ends property refusal (pure value) ↔ property value := Iff.rfl

theorem bind {first : Except ε α} {next : α → Except ε β} {between : α → Prop}
    {property : β → Prop} (hfirst : Ends between refusal first)
    (hnext : ∀ value, between value → Ends property refusal (next value)) :
    Ends property refusal (first >>= next) := by
  cases first with
  | ok value => exact hnext value hfirst
  | error error => exact hfirst

theorem ite {condition : Prop} [Decidable condition] {property : α → Prop}
    {first second : Except ε α} (hfirst : condition → Ends property refusal first)
    (hsecond : ¬condition → Ends property refusal second) :
    Ends property refusal (if condition then first else second) := by
  by_cases hcondition : condition
  · simpa [hcondition] using hfirst hcondition
  · simpa [hcondition] using hsecond hcondition

theorem mono {result : Except ε α} {weak strong : α → Prop}
    (hstrong : Ends strong refusal result) (himplies : ∀ value, strong value → weak value) :
    Ends weak refusal result := by
  cases result with
  | ok value => exact himplies value hstrong
  | error error => exact hstrong

/-- A result that is known to be a value is that value wherever it is read again. -/
theorem witnessed {result : Except ε α} {property : α → Prop}
    (hresult : Ends property refusal result) :
    Ends (fun value => result = .ok value ∧ property value) refusal result := by
  cases result with
  | ok value => exact ⟨rfl, hresult⟩
  | error error => exact hresult

theorem map {result : Except ε α} {function : α → β} {property : β → Prop}
    (hresult : Ends (fun value => property (function value)) refusal result) :
    Ends property refusal (function <$> result) := by
  cases result with
  | ok value => exact hresult
  | error error => exact hresult

/-- What is read is present. -/
theorem map_some {result : Except ε α} {property : α → Prop}
    (hresult : Ends property refusal result) :
    Ends (fun value? => ∀ value ∈ value?, property value) refusal (some <$> result) := by
  cases result with
  | ok value => simpa using hresult
  | error error => exact hresult

/-- Reading item by item gives one value for each item, in order. -/
theorem mapM_forall₂ {items : List α} {read : α → Except ε β} {relation : α → β → Prop}
    (hread : ∀ item ∈ items, Ends (relation item) refusal (read item)) :
    Ends (List.Forall₂ relation items) refusal (items.mapM read) := by
  induction items with
  | nil => exact List.Forall₂.nil
  | cons item items ih =>
      rw [List.mapM_cons]
      apply bind (hread item (by simp))
      intro value hvalue
      apply bind (ih fun later hlater => hread later (by simp [hlater]))
      intro values hvalues
      exact List.Forall₂.cons hvalue hvalues

/-- Reading item by item gives only values with the property of the items. -/
theorem mapM {items : List α} {read : α → Except ε β} {property : β → Prop}
    (hread : ∀ item ∈ items, Ends property refusal (read item)) :
    Ends (fun values => ∀ value ∈ values, property value) refusal (items.mapM read) := by
  apply (mapM_forall₂ hread).mono
  intro values hvalues
  clear hread
  induction hvalues with
  | nil => exact nofun
  | cons hvalue _ ih => exact List.forall_mem_cons.mpr ⟨hvalue, ih⟩

theorem mapError {δ : Type} {result : Except ε α} {property : α → Prop} {function : ε → δ}
    {refusal' : δ → Prop} (hresult : Ends property refusal result)
    (herror : ∀ error, refusal error → refusal' (function error)) :
    Ends property refusal' (result.mapError function) := by
  cases result with
  | ok value => exact hresult
  | error error => exact herror error hresult

end Ends

/-- A read that gives values with a property and fails only where the bytes are at fault. -/
abbrev Yields {α : Type} (property : α → Prop) (result : Except Malformed α) : Prop :=
  Ends property (fun cause => cause.inBytes = true) result

/-- Items that are read one by one at consecutive indices come back in order. -/
theorem mapM_range_eq {ε β : Type} {read : ℕ → Except ε β} {items : List β}
    (hread : ∀ index item, items[index]? = some item → read index = .ok item) :
    (List.range items.length).mapM read = .ok items := by
  induction items generalizing read with
  | nil => rfl
  | cons item items ih =>
      have hfirst := hread 0 item rfl
      have hlater := ih fun index later hlater => hread (index + 1) later (by simpa using hlater)
      rw [List.length_cons, List.range_succ_eq_map, List.mapM_cons, List.mapM_map, hfirst]
      simp only [Function.comp_def, bind, Except.bind, hlater]
      rfl

/-- Items that are all read come back in order. -/
theorem mapM_eq_map {ε α β : Type} {read : α → Except ε β} {value : α → β} {items : List α}
    (hread : ∀ item ∈ items, read item = .ok (value item)) :
    items.mapM read = .ok (items.map value) := by
  induction items with
  | nil => rfl
  | cons item items ih =>
      rw [List.forall_mem_cons] at hread
      rw [List.mapM_cons, hread.1, ih hread.2]
      rfl

/-! ## Windows -/

namespace Window

variable (window : Window)

theorem cover_yields {index size : ℕ} (hinside : index + size ≤ window.length) :
    Yields (fun _ => True) (window.cover index size) := by
  simp [cover, hinside]

/-- A load in a range that lies inside gives the word stored there. -/
theorem load_eq {index width : ℕ} (hinside : index + width ≤ window.length) :
    window.load index width = .ok (window.wordAt index width) := by
  simp [load, cover, hinside]

theorem load_yields {index width : ℕ} (hinside : index + width ≤ window.length) :
    Yields (fun word => word = window.wordAt index width) (window.load index width) := by
  simp [window.load_eq hinside]

/-- A read inside the window gives the value stored there. -/
theorem read_eq {scalar : Scalar} {index : ℕ} (hinside : index + scalar.width ≤ window.length) :
    window.read scalar index = .ok (scalar.ofWord (window.wordAt index scalar.width)) := by
  simp only [read, readWord, claim, Number.toNat?_natCast, if_pos hinside, window.load_eq hinside,
    bind, Except.bind]
  rfl

theorem wordAt_lt (index width : ℕ) : window.wordAt index width < 256 ^ width := by
  have hlength : (window.slice index width).length ≤ width := by
    rw [slice_eq]
    exact List.length_take_le width _
  calc
    window.wordAt index width < 256 ^ (window.slice index width).length :=
      LittleEndian.combine_lt _
    _ ≤ 256 ^ width := Nat.pow_le_pow_right (by omega) hlength

/-- A position that has been claimed is an index with room for the claimed bytes. -/
theorem claim_yields (position : Number) (size : ℕ) :
    Yields (fun index => position.toNat? = some index ∧ index + size ≤ window.length)
      (window.claim position size) := by
  unfold claim
  split
  · next index hindex =>
      split
      · next hinside => exact ⟨hindex, hinside⟩
      · rfl
  · rfl

theorem readWord_yields (width : ℕ) (position : Number) :
    Yields (fun word => word < 256 ^ width) (window.readWord width position) := by
  apply Ends.bind (window.claim_yields position width)
  intro index hindex
  apply (window.load_yields hindex.2).mono
  intro word hword
  rw [hword]
  exact window.wordAt_lt index width

theorem read_yields (scalar : Scalar) (position : Number) :
    Yields (fun value => ∃ word < 256 ^ scalar.width, value = scalar.ofWord word)
      (window.read scalar position) := by
  apply Ends.bind (window.readWord_yields scalar.width position)
  intro word hword
  exact ⟨word, hword, rfl⟩

theorem indirect_yields (position : Number) :
    Yields (fun target => target < window.length) (window.indirect position) := by
  apply Ends.bind (window.claim_yields position 4)
  intro index hindex
  apply Ends.bind (window.load_yields hindex.2)
  intro distance _
  exact Ends.ite (fun _ => rfl) fun hpast => Nat.lt_of_not_le hpast

/-- A vtable that has been found holds its stated bytes: at least its own head, in whole entries,
and all inside the window. -/
def Holds (vtable : Vtable) : Prop :=
  4 ≤ vtable.size ∧ vtable.size % 2 = 0 ∧ vtable.start + vtable.size ≤ window.length

theorem vtable_yields (table : Number) : Yields window.Holds (window.vtable table) := by
  apply Ends.bind (window.claim_yields table 4)
  intro index hindex
  apply Ends.bind (window.load_yields hindex.2)
  intro word _
  apply Ends.bind (window.claim_yields _ 4)
  intro start hstart
  apply Ends.bind (window.load_yields (by omega))
  intro size _
  refine Ends.ite (fun _ => rfl) fun hsize => ?_
  apply Ends.bind (window.claim_yields _ size)
  intro again hagain
  -- The second claim is for the same position, so its index is the start of the vtable.
  have hsame : again = start := Option.some.inj (hagain.1.symm.trans hstart.1)
  subst hsame
  exact ⟨Nat.le_of_not_lt fun hless => hsize (Or.inl hless),
    Decidable.not_not.mp fun hodd => hsize (Or.inr hodd), hagain.2⟩

/-- An entry that a vtable states lies inside the bytes that the vtable states. -/
theorem entry_yields {vtable : Vtable} (hholds : window.Holds vtable) (slot : Number) :
    Yields (fun _ => True) (window.entry vtable slot) := by
  obtain ⟨hhead, heven, hinside⟩ := hholds
  unfold entry
  split
  · next index hindex =>
      simp only [Layout.vtableHeaderEntries, Layout.entryWidth]
      refine Ends.ite (fun _ => trivial) fun hstated => ?_
      exact (window.load_yields (by omega)).mono fun _ _ => trivial
  · refine Ends.ite (fun _ => trivial) fun _ => ?_
    exact (window.readWord_yields _ _).mono fun _ _ => trivial

theorem fieldOffset_yields (table slot width : Number) :
    Yields (fun _ => True) (window.fieldOffset table slot width) := by
  apply Ends.bind (window.vtable_yields table)
  intro vtable hholds
  apply Ends.bind (window.entry_yields hholds slot)
  intro offset _
  obtain ⟨hhead, -, hinside⟩ := hholds
  refine Ends.ite (fun _ => trivial) fun _ => ?_
  apply Ends.bind (window.load_yields (by omega))
  intro tableSize _
  exact Ends.ite (fun _ => rfl) fun _ => trivial

/-- The elements of a vector whose length has been read lie between its count and the end. -/
theorem vectorLength_yields (position : Number) (stride : ℕ) :
    Yields
      (fun count => ∃ start, window.indirect position = .ok start ∧
        start + 4 + count * stride ≤ window.length)
      (window.vectorLength position stride) := by
  apply Ends.bind (window.indirect_yields position).witnessed
  intro start hstart
  apply Ends.bind (window.claim_yields start 4)
  intro index hindex
  obtain ⟨hsame, hinside⟩ := hindex
  simp only [Number.toNat?_natCast, Option.some.injEq] at hsame
  subst hsame
  apply Ends.bind (window.load_yields hinside)
  intro count _
  refine Ends.ite (fun _ => rfl) fun hexceeds => ?_
  simp only [exceeds, Number.toNat?_natCast, decide_eq_true_eq] at hexceeds
  exact ⟨start, hstart.1, by omega⟩

/-- The elements of a vector begin behind its count. -/
theorem vector_eq {position : Number} {start : ℕ} (hstart : window.indirect position = .ok start) :
    window.vector position = .ok (start + 4) := by
  simp [vector, hstart]

theorem stringBytes_yields (position : Number) :
    Yields (fun _ => True) (window.stringBytes position) := by
  apply Ends.bind (window.vectorLength_yields position 1)
  intro count hcount
  obtain ⟨start, hstart, hroom⟩ := hcount
  simp only [window.vector_eq hstart, bind, Except.bind]
  exact Ends.bind (window.cover_yields (by omega)) fun _ _ => trivial

theorem vector_yields (position : Number) : Yields (fun _ => True) (window.vector position) := by
  apply Ends.bind (window.indirect_yields position)
  intro start _
  trivial

theorem string_yields (position : Number) : Yields (fun _ => True) (window.string position) := by
  apply Ends.bind (window.stringBytes_yields position)
  intro bytes _
  apply Ends.bind (window.vector_yields position)
  intro start _
  cases Utf8.decode? bytes with
  | none => rfl
  | some text => trivial

/-- The window of a size prefix ends where the prefix says. -/
theorem frame_yields : Yields (fun _ => True) window.frame := by
  apply Ends.bind (window.claim_yields 0 Layout.sizePrefixWidth)
  intro index hindex
  apply Ends.bind (window.load_yields hindex.2)
  intro declared _
  exact Ends.ite (fun _ => rfl) fun _ => trivial

end Window

/-! ## Tables -/

namespace Table

variable (table : Table)

theorem fieldPosition?_yields (slot width : Number) :
    Yields (fun _ => True) (table.fieldPosition? slot width) := by
  apply Ends.bind (table.window.fieldOffset_yields _ _ _)
  intro offset _
  by_cases habsent : offset = 0 <;> simp [habsent]

/-- A scalar is the default of its reader or what a word of its width stores. -/
theorem scalar_yields (type : Scalar) (slot : Number) (default : type.Value) :
    Yields (fun value => value = default ∨ ∃ word < 256 ^ type.width, value = type.ofWord word)
      (table.scalar type slot default) := by
  refine Ends.bind (table.fieldPosition?_yields slot type.width) fun position? _ => ?_
  cases position? with
  | none => exact Or.inl rfl
  | some position =>
      exact (table.window.read_yields type position).mono fun _ hword => Or.inr hword

theorem string?_yields (slot : Number) : Yields (fun _ => True) (table.string? slot) := by
  refine Ends.bind (table.fieldPosition?_yields slot 4) fun position? _ => ?_
  cases position? with
  | none => trivial
  | some position => exact Ends.map (table.window.string_yields position)

theorem table?_yields (slot : Number) : Yields (fun _ => True) (table.table? slot) := by
  refine Ends.bind (table.fieldPosition?_yields slot 4) fun position? _ => ?_
  cases position? with
  | none => trivial
  | some position =>
      apply Ends.bind (table.window.indirect_yields position)
      intro _ _
      trivial

/-- The list of a vector is made only when its elements lie inside the window. -/
theorem elements_yields {α : Type} (slot : Number) {read : ℕ → Except Malformed α}
    {property : α → Prop} (hread : ∀ position, Yields property (read position)) :
    Yields (fun values? => ∀ values ∈ values?, ∀ value ∈ values, property value)
      (table.elements slot read) := by
  refine Ends.bind (table.fieldPosition?_yields slot 4) fun position? _ => ?_
  cases position? with
  | none => simp
  | some position =>
      apply Ends.bind (table.window.vectorLength_yields position 4)
      intro count hcount
      obtain ⟨start, hstart, hroom⟩ := hcount
      simp only [table.window.vector_eq hstart, bind, Except.bind]
      apply Ends.bind (table.window.cover_yields (by omega))
      intro _ _
      refine Ends.map ((Ends.mapM fun index _ => hread _).mono fun values hvalues => ?_)
      simpa using hvalues

theorem scalars_yields (type : Scalar) (slot : Number) :
    Yields
      (fun values? => ∀ values ∈ values?, ∀ value ∈ values,
        ∃ word < 256 ^ type.width, value = type.ofWord word)
      (table.scalars type slot) :=
  table.elements_yields slot fun position => table.window.read_yields type position

theorem tables_yields (slot : Number) : Yields (fun _ => True) (table.tables slot) := by
  have hread (position : ℕ) : Yields (fun _ : Table => True) (do
      let target ← table.window.indirect position
      return ⟨table.window, target⟩) := by
    apply Ends.bind (table.window.indirect_yields position)
    intro target _
    trivial
  exact (table.elements_yields slot hread).mono fun _ _ => trivial

/-- A word of the backing array that lies in the window is the word stored there. -/
theorem backingWord_eq {window : Window} {position index : ℕ}
    (haligned : (window.start + position) % 4 = 0)
    (hinside : position + 4 * index + 4 ≤ window.length) :
    backingWord window ((window.start + position) / 4 + index)
      = window.wordAt (position + 4 * index) 4 := by
  have hfits := window.fits
  have hplace : 4 * ((window.start + position) / 4 + index)
      = window.start + (position + 4 * index) := by omega
  have hend : min (window.start + (position + 4 * index) + 4) (window.start + window.length)
      = window.start + (position + 4 * index) + 4 := by omega
  simp only [backingWord, Window.wordAt, Window.slice, hplace, hend]

/-- A word view holds the elements that are read one by one.  It takes them from the backing array
without a check, which the count of the vector makes up for. -/
theorem scalarView_eq_scalars {type : Scalar} (hwidth : type.width = 4) (slot : Number) :
    table.scalarView type slot = table.scalars type slot := by
  unfold scalarView scalars elements
  cases hposition : table.fieldPosition? slot 4 with
  | error cause => rfl
  | ok position? =>
      cases position? with
      | none => rfl
      | some position =>
          have hyields := table.window.vectorLength_yields position 4
          change Yields _ (table.window.vectorLength position 4) at hyields
          cases hcount : table.window.vectorLength position 4 with
          | error cause =>
              simp only [bind, Except.bind, hcount]
          | ok count =>
              rw [hcount] at hyields
              obtain ⟨start, hstart, hroom⟩ := hyields
              have hinside : start + 4 + 4 * count ≤ table.window.length := by omega
              have hread : (List.range count).mapM (fun index =>
                  table.window.read type ((start + 4 + 4 * index : ℕ) : Number))
                  = .ok ((List.range count).map fun index =>
                    type.ofWord (table.window.wordAt (start + 4 + 4 * index) 4)) := by
                apply mapM_eq_map
                intro index hindex
                rw [List.mem_range] at hindex
                rw [table.window.read_eq (by omega), hwidth]
              simp only [bind, Except.bind, hcount, table.window.vector_eq hstart, Window.cover,
                if_pos hinside, hread]
              split
              · next haligned =>
                  have hwords : (List.range count).map (fun index => type.ofWord
                      (backingWord table.window ((table.window.start + (start + 4)) / 4 + index)))
                      = (List.range count).map fun index =>
                        type.ofWord (table.window.wordAt (start + 4 + 4 * index) 4) := by
                    apply List.map_congr_left
                    intro index hindex
                    rw [List.mem_range] at hindex
                    rw [backingWord_eq haligned (by omega)]
                  rw [hwords]
                  rfl
              · rfl

theorem unionTag_yields (slot : Number) : Yields (fun _ => True) (table.unionTag slot) := by
  refine Ends.bind (table.fieldPosition?_yields slot 1) fun position? _ => ?_
  cases position? with
  | none => trivial
  | some position => exact (table.window.readWord_yields 1 position).mono fun _ _ => trivial

theorem unionPayload_yields (slot : Number) (tag : ℕ) :
    Yields (fun _ => True) (table.unionPayload slot tag) := by
  refine Ends.bind (table.fieldPosition?_yields _ 4) fun payload? _ => ?_
  cases payload? with
  | none => exact Ends.ite (fun _ => trivial) fun _ => rfl
  | some payload =>
      refine Ends.ite (fun _ => rfl) fun _ => ?_
      exact Ends.bind (table.window.indirect_yields payload) fun _ _ => trivial

theorem union?_yields (slot : Number) : Yields (fun _ => True) (table.union? slot) :=
  Ends.bind (table.unionTag_yields slot) fun tag _ => table.unionPayload_yields slot tag

end Table

end GraphWire

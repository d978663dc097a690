import GraphWire.Model.View
import GraphWire.Proofs.Reader.Coverage

/-!
# Ways into a vector

A vector of four-byte scalars can be asked for its length, copied into a list, seen as words of the
backing array, and read one element at a time.  Each way looks the slot up on its own.  What it
finds is one of three things, whatever the bytes are and wherever they lie: bytes that contradict
the format, no vector, or a vector of some length (`Table.HoldsElements`).  In each of them all ways
give the same answer.
-/

namespace GraphWire

/-! ## Reading by index -/

section

variable {ε α : Type} {read : ℕ → Except ε α} {count : ℕ}

theorem mapM_range_succ :
    (List.range (count + 1)).mapM read = do
      let items ← (List.range count).mapM read
      let item ← read count
      return items ++ [item] := by
  simp [List.range_succ, List.mapM_append]

/-- Reading by index gives the items that are each read at their own index. -/
theorem mapM_range_eq_ok_iff {items : List α} :
    (List.range count).mapM read = .ok items ↔
      items.length = count ∧ ∀ index item, items[index]? = some item → read index = .ok item := by
  constructor
  · intro hitems
    induction count generalizing items with
    | zero =>
        cases hitems
        simp
    | succ count ih =>
        rw [mapM_range_succ] at hitems
        cases hearlier : (List.range count).mapM read with
        | error error =>
            rw [hearlier] at hitems
            cases hitems
        | ok earlier =>
            obtain ⟨hlength, hread⟩ := ih hearlier
            cases hlast : read count with
            | error error =>
                rw [hearlier, hlast] at hitems
                cases hitems
            | ok last =>
                rw [hearlier, hlast] at hitems
                cases hitems
                refine ⟨by simp [hlength], ?_⟩
                intro index item hitem
                rw [List.getElem?_append] at hitem
                split at hitem
                · exact hread index item hitem
                · next hpast =>
                    obtain ⟨hindex, rfl⟩ := List.getElem?_eq_some_iff.mp hitem
                    rw [List.length_singleton] at hindex
                    obtain rfl : index = count := by omega
                    simpa using hlast
  · rintro ⟨rfl, hread⟩
    exact mapM_range_eq hread

theorem of_mapM_range_eq_error {error : ε} (herror : (List.range count).mapM read = .error error) :
    ∃ index < count, read index = .error error ∧
      ∀ earlier < index, ∃ item, read earlier = .ok item := by
  induction count with
  | zero => cases herror
  | succ count ih =>
      rw [mapM_range_succ] at herror
      cases hearlier : (List.range count).mapM read with
      | error cause =>
          rw [hearlier] at herror
          cases herror
          obtain ⟨index, hindex, hfirst⟩ := ih hearlier
          exact ⟨index, by omega, hfirst⟩
      | ok items =>
          obtain ⟨hlength, hread⟩ := mapM_range_eq_ok_iff.mp hearlier
          cases hlast : read count with
          | ok last =>
              rw [hearlier, hlast] at herror
              cases herror
          | error cause =>
              rw [hearlier, hlast] at herror
              cases herror
              refine ⟨count, Nat.lt_succ_self count, hlast, ?_⟩
              intro index hindex
              exact ⟨_, hread index _ (List.getElem?_eq_getElem (by omega))⟩

/-- Reading by index fails as the first item does that cannot be read. -/
theorem mapM_range_eq_error_iff {error : ε} :
    (List.range count).mapM read = .error error ↔
      ∃ index < count, read index = .error error ∧
        ∀ earlier < index, ∃ item, read earlier = .ok item := by
  constructor
  · exact of_mapM_range_eq_error
  · rintro ⟨index, hindex, hfirst, hread⟩
    cases hresult : (List.range count).mapM read with
    | ok items =>
        obtain ⟨hlength, hitems⟩ := mapM_range_eq_ok_iff.mp hresult
        have hitem := hitems index _ (List.getElem?_eq_getElem (by omega))
        rw [hfirst] at hitem
        cases hitem
    | error cause =>
        -- Of two indices that are both the first to fail neither is below the other.
        obtain ⟨index', hindex', hfirst', hread'⟩ := of_mapM_range_eq_error hresult
        have hsame : index = index' := by
          rcases Nat.lt_trichotomy index index' with hbelow | hsame | habove
          · obtain ⟨item, hitem⟩ := hread' index hbelow
            rw [hfirst] at hitem
            cases hitem
          · exact hsame
          · obtain ⟨item, hitem⟩ := hread index' habove
            rw [hfirst'] at hitem
            cases hitem
        rw [← hsame, hfirst] at hfirst'
        cases hfirst'
        rfl

end

/-! ## Three findings -/

namespace Table

/-- A slot that leads to some elements, four bytes apart, all of them in the window. -/
structure HoldsElements (table : Table) (slot : Number) (start count : ℕ) : Prop where
  found : ∃ position : ℕ, table.fieldPosition? slot 4 = .ok (some position) ∧
    table.window.vectorLength position 4 = .ok count ∧
    table.window.vector position = .ok start
  room : start + 4 * count ≤ table.window.length

/-- A slot of which the bytes say something impossible: where its value is, or how long the vector
is to which it leads. -/
structure Contradicts (table : Table) (slot : Number) (cause : Malformed) : Prop where
  inBytes : cause.inBytes = true
  found : table.fieldPosition? slot 4 = .error cause ∨
    ∃ position : ℕ, table.fieldPosition? slot 4 = .ok (some position) ∧
      table.window.vectorLength position 4 = .error cause

variable (table : Table)

/-- Whatever the bytes are, a slot leads to a vector, to none, or to a contradiction. -/
theorem vector_findings (slot : Number) :
    (∃ cause, table.Contradicts slot cause) ∨ table.fieldPosition? slot 4 = .ok none ∨
      ∃ start count, table.HoldsElements slot start count := by
  have hplace := table.fieldPosition?_yields slot 4
  cases hposition : table.fieldPosition? slot 4 with
  | error cause =>
      rw [hposition] at hplace
      exact .inl ⟨cause, hplace, .inl hposition⟩
  | ok position? =>
      cases position? with
      | none => exact .inr (.inl rfl)
      | some position =>
          have hlength := table.window.vectorLength_yields position 4
          cases hcount : table.window.vectorLength position (4 : ℕ) with
          | error cause =>
              rw [hcount] at hlength
              exact .inl ⟨cause, hlength, .inr ⟨position, hposition, hcount⟩⟩
          | ok count =>
              rw [hcount] at hlength
              obtain ⟨start, hstart, hroom⟩ := hlength
              exact .inr (.inr ⟨start + 4, count, ⟨position, hposition, hcount,
                table.window.vector_eq hstart⟩, by omega⟩)

variable {table : Table} {slot : Number} {start count : ℕ}

/-! ### What each way gives -/

namespace Contradicts

variable {cause : Malformed}

theorem vectorLength_eq (hbroken : table.Contradicts slot cause) :
    table.vectorLength slot 4 = .error cause := by
  unfold vectorLength
  rcases hbroken.found with hposition | ⟨position, hposition, hcount⟩
  · simp only [hposition, bind, Except.bind]
  · simp only [hposition, hcount, bind, Except.bind]

theorem elements_eq (hbroken : table.Contradicts slot cause) {α : Type}
    (read : ℕ → Except Malformed α) : table.elements slot read = .error cause := by
  unfold elements
  rcases hbroken.found with hposition | ⟨position, hposition, hcount⟩
  · simp only [hposition, bind, Except.bind]
  · simp only [hposition, hcount, bind, Except.bind]

theorem elementPosition_eq (hbroken : table.Contradicts slot cause) (index : Number) :
    table.elementPosition slot index 4 = .error (.malformed cause) := by
  unfold elementPosition
  rcases hbroken.found with hposition | ⟨position, hposition, hcount⟩
  · rw [hposition, AccessError.lift_error]
    rfl
  · simp only [hposition, hcount, AccessError.lift_ok, AccessError.lift_error, bind, Except.bind]

end Contradicts

theorem elementPosition_of_absent (habsent : table.fieldPosition? slot 4 = .ok none)
    (index stride : Number) :
    table.elementPosition slot index stride = .error (.outOfBounds index 0 slot) := by
  simp only [elementPosition, habsent, AccessError.lift_ok, bind, Except.bind]
  rfl

namespace HoldsElements

theorem vectorLength_eq (hholds : table.HoldsElements slot start count) :
    table.vectorLength slot 4 = .ok count := by
  obtain ⟨position, hposition, hcount, -⟩ := hholds.found
  simp only [vectorLength, hposition, hcount, bind, Except.bind]

theorem elements_eq (hholds : table.HoldsElements slot start count) {α : Type}
    (read : ℕ → Except Malformed α) :
    table.elements slot read
      = some <$> (List.range count).mapM fun index => read (start + 4 * index) := by
  obtain ⟨position, hposition, hcount, hstart⟩ := hholds.found
  simp only [elements, hposition, hcount, hstart, bind, Except.bind, Window.cover,
    if_pos hholds.room]

/-- An element lies as many words behind the first as its index says. -/
theorem elementPosition_eq (hholds : table.HoldsElements slot start count) {index : Number}
    {place : ℕ} (hindex : index.toNat? = some place) (hinside : place < count) :
    table.elementPosition slot index 4 = .ok ((start + 4 * place : ℕ) : Number) := by
  obtain ⟨position, hposition, hcount, hstart⟩ := hholds.found
  have hfound : elementIndex? index count = some place := by
    simp [elementIndex?, hindex, Option.filter, hinside]
  have hstride : Number.toNat? 4 = some 4 := Number.toNat?_literal 4
  simp only [elementPosition, hposition, hcount, hstart, hfound, hstride, AccessError.lift_ok, bind,
    Except.bind, Nat.mul_comm place]
  rfl

/-- There is no element at any other index. -/
theorem elementPosition_outside (hholds : table.HoldsElements slot start count) {index : Number}
    (houtside : ∀ place < count, index.toNat? ≠ some place) :
    table.elementPosition slot index 4 = .error (.outOfBounds index count slot) := by
  obtain ⟨position, hposition, hcount, hstart⟩ := hholds.found
  have hnone : elementIndex? index count = none := by
    apply Option.filter_eq_none_iff.mpr
    intro place hplace hinside
    exact houtside place (of_decide_eq_true hinside) hplace
  simp only [elementPosition, hposition, hcount, hnone, AccessError.lift_ok, bind, Except.bind]
  rfl

end HoldsElements

/-! ## Vectors of scalars -/

/-- What the four ways into the vector of a slot say about it, which is one of three things. -/
inductive ReadersAgree (table : Table) (type : Scalar) (slot : Number) : Prop where
  /-- The bytes contradict the format, for the same cause to each of them. -/
  | malformed (cause : Malformed) (inBytes : cause.inBytes = true)
      (length : table.vectorLength slot 4 = .error cause)
      (list : table.scalars type slot = .error cause)
      (words : table.scalarView type slot = .error cause)
      (element : ∀ index, table.element type slot index = .error (.malformed cause))
  /-- There is no vector. -/
  | absent (position : table.fieldPosition? slot 4 = .ok none)
      (length : table.vectorLength slot 4 = .ok 0)
      (list : table.scalars type slot = .ok none)
      (words : table.scalarView type slot = .ok none)
      (element : ∀ index, table.element type slot index = .error (.outOfBounds index 0 slot))
  /-- There is a vector, whose elements are found at their own indices and at no others. -/
  | present (values : List type.Value)
      (length : table.vectorLength slot 4 = .ok values.length)
      (list : table.scalars type slot = .ok (some values))
      (words : table.scalarView type slot = .ok (some values))
      (element : ∀ (index : Number) (place : ℕ) (value : type.Value),
        index.toNat? = some place → values[place]? = some value →
          table.element type slot index = .ok value)
      (outside : ∀ index : Number, (∀ place < values.length, index.toNat? ≠ some place) →
        table.element type slot index = .error (.outOfBounds index values.length slot))

theorem element_of_error {type : Scalar} (hwidth : type.width = 4) {index : Number}
    {error : AccessError} (hposition : table.elementPosition slot index 4 = .error error) :
    table.element type slot index = .error error := by
  have hplace : table.elementPosition slot index (type.width : ℕ) = .error error := by
    rw [hwidth]
    exact hposition
  simp only [element, hplace, bind, Except.bind]

theorem element_of_position {type : Scalar} (hwidth : type.width = 4) {index position : Number}
    {value : type.Value} (hposition : table.elementPosition slot index 4 = .ok position)
    (hvalue : table.window.read type position = .ok value) :
    table.element type slot index = .ok value := by
  have hplace : table.elementPosition slot index (type.width : ℕ) = .ok position := by
    rw [hwidth]
    exact hposition
  simp only [element, hplace, hvalue, AccessError.lift_ok, bind, Except.bind]

/-- The elements that are in the window are read as the words stored there. -/
theorem HoldsElements.readersAgree (hholds : table.HoldsElements slot start count) {type : Scalar}
    (hwidth : type.width = 4) : table.ReadersAgree type slot := by
  have hread (place : ℕ) (hplace : place < count) :
      table.window.read type (start + 4 * place : ℕ)
        = .ok (type.ofWord (table.window.wordAt (start + 4 * place) 4)) := by
    have hroom := hholds.room
    rw [table.window.read_eq (by omega), hwidth]
  have hlist : table.scalars type slot = .ok (some ((List.range count).map fun place =>
      type.ofWord (table.window.wordAt (start + 4 * place) 4))) := by
    rw [scalars, hholds.elements_eq, mapM_eq_map fun place hplace =>
      hread place (List.mem_range.mp hplace)]
    rfl
  refine .present _ ?_ hlist ?_ ?_ ?_
  · rw [hholds.vectorLength_eq, List.length_map, List.length_range]
  · rw [scalarView_eq_scalars table hwidth, hlist]
  · intro index place value hindex hvalue
    rw [List.getElem?_map, Option.map_eq_some_iff] at hvalue
    obtain ⟨_, hplace, rfl⟩ := hvalue
    obtain ⟨hinside, rfl⟩ := List.getElem?_eq_some_iff.mp hplace
    rw [List.length_range] at hinside
    rw [List.getElem_range]
    exact element_of_position hwidth (hholds.elementPosition_eq hindex hinside)
      (hread place hinside)
  · intro index houtside
    rw [List.length_map, List.length_range] at houtside ⊢
    exact element_of_error hwidth (hholds.elementPosition_outside houtside)

/-- The ways into the vector of a slot agree, whatever the bytes are. -/
theorem readersAgree (table : Table) {type : Scalar} (hwidth : type.width = 4) (slot : Number) :
    table.ReadersAgree type slot := by
  rcases table.vector_findings slot with ⟨cause, hbroken⟩ | habsent | ⟨start, count, hholds⟩
  · refine .malformed cause hbroken.inBytes hbroken.vectorLength_eq (hbroken.elements_eq _) ?_ ?_
    · rw [scalarView_eq_scalars table hwidth]
      exact hbroken.elements_eq _
    · exact fun index => element_of_error hwidth (hbroken.elementPosition_eq index)
  · have hlist : table.scalars type slot = .ok none := by
      simp only [scalars, elements, habsent]
      rfl
    refine .absent habsent ?_ hlist ?_ ?_
    · simp only [vectorLength, habsent]
      rfl
    · rw [scalarView_eq_scalars table hwidth, hlist]
    · exact fun index => element_of_error hwidth (elementPosition_of_absent habsent index 4)
  · exact hholds.readersAgree hwidth

/-! ## Vectors of tables -/

/-- The table that a reference leads to. -/
def referred (table : Table) (position : ℕ) : Except Malformed Table := do
  let target ← table.window.indirect position
  return ⟨table.window, target⟩

theorem HoldsElements.tables_eq (hholds : table.HoldsElements slot start count) :
    table.tables slot
      = some <$> (List.range count).mapM fun index => table.referred (start + 4 * index) :=
  hholds.elements_eq _

/-- An element of a vector of tables is the table that its reference leads to. -/
theorem HoldsElements.tableElement_eq (hholds : table.HoldsElements slot start count) {place : ℕ}
    (hinside : place < count) :
    table.tableElement slot place
      = (table.referred (start + 4 * place)).mapError .malformed := by
  have hplace := hholds.elementPosition_eq (Number.toNat?_natCast place) hinside
  cases htarget : table.window.indirect (start + 4 * place : ℕ) with
  | error cause =>
      simp only [tableElement, referred, hplace, htarget, AccessError.lift_error, bind, Except.bind,
        Except.mapError]
  | ok target =>
      simp only [tableElement, referred, hplace, htarget, AccessError.lift_ok, bind, Except.bind]
      rfl

end Table

namespace GraphView

/-- The list of all nodes of a graph, against the nodes that are taken one by one. -/
structure ListsNodes (view : GraphView) (count : ℕ) : Prop where
  complete : (∃ nodes, view.nodes = .ok (some nodes)) ↔
    ∀ index < count, ∃ node, view.node (index : ℕ) = .ok node
  inOrder : ∀ nodes, view.nodes = .ok (some nodes) → nodes.length = count ∧
    ∀ (index : ℕ) (node : NodeView), nodes[index]? = some node → view.node index = .ok node
  firstFailure : (∀ nodes, view.nodes ≠ .ok (some nodes)) → ∃ (cause : Malformed) (index : ℕ),
    view.nodes = .error cause ∧ index < count ∧ view.node index = .error (.malformed cause) ∧
      ∀ earlier < index, ∃ node, view.node (earlier : ℕ) = .ok node

variable {view : GraphView} {start count : ℕ}

/-- A node taken by its index is the table that its reference leads to. -/
theorem node_eq (hholds : view.table.HoldsElements 0 start count) {index : ℕ}
    (hinside : index < count) :
    view.node index
      = NodeView.mk <$> (view.table.referred (start + 4 * index)).mapError .malformed := by
  rw [node, hholds.tableElement_eq hinside]

theorem node_of_referred (hholds : view.table.HoldsElements 0 start count) {index : ℕ}
    (hinside : index < count) {table : Table}
    (htable : view.table.referred (start + 4 * index) = .ok table) :
    view.node index = .ok ⟨table⟩ := by
  rw [node_eq hholds hinside, htable]
  rfl

theorem ListsNodes.of_elements (hholds : view.table.HoldsElements 0 start count) :
    view.ListsNodes count := by
  cases htables : (List.range count).mapM fun index => view.table.referred (start + 4 * index) with
  | ok tables =>
      obtain ⟨hlength, hread⟩ := mapM_range_eq_ok_iff.mp htables
      have hnodes : view.nodes = .ok (some (tables.map NodeView.mk)) := by
        rw [nodes, hholds.tables_eq, htables]
        rfl
      have hnode (index : ℕ) (table : Table) (htable : tables[index]? = some table) :
          view.node index = .ok ⟨table⟩ := by
        have hindex := (List.getElem?_eq_some_iff.mp htable).1
        exact node_of_referred hholds (by omega) (hread index table htable)
      refine ⟨iff_of_true ⟨_, hnodes⟩ ?_, ?_, fun hfails => absurd hnodes (hfails _)⟩
      · intro index hindex
        exact ⟨_, hnode index _ (List.getElem?_eq_getElem (by omega))⟩
      · intro nodes hsame
        rw [hnodes] at hsame
        cases hsame
        refine ⟨by rw [List.length_map, hlength], ?_⟩
        intro index node hitem
        rw [List.getElem?_map, Option.map_eq_some_iff] at hitem
        obtain ⟨table, htable, rfl⟩ := hitem
        exact hnode index table htable
  | error cause =>
      obtain ⟨index, hindex, hfirst, hread⟩ := mapM_range_eq_error_iff.mp htables
      have hnodes : view.nodes = .error cause := by
        rw [nodes, hholds.tables_eq, htables]
        rfl
      have hfails : view.node index = .error (.malformed cause) := by
        rw [node_eq hholds hindex, hfirst]
        rfl
      have hearlier (earlier : ℕ) (hbelow : earlier < index) :
          ∃ node, view.node earlier = .ok node := by
        obtain ⟨table, htable⟩ := hread earlier hbelow
        exact ⟨_, node_of_referred hholds (by omega) htable⟩
      refine ⟨iff_of_false ?_ ?_, ?_, fun _ => ⟨cause, index, hnodes, hindex, hfails, hearlier⟩⟩
      · rintro ⟨nodes, hlisted⟩
        rw [hnodes] at hlisted
        cases hlisted
      · intro hall
        obtain ⟨node, hnode⟩ := hall index hindex
        rw [hfails] at hnode
        cases hnode
      · intro nodes hlisted
        rw [hnodes] at hlisted
        cases hlisted

end GraphView

/-- All ways into a vector agree.  For a vector of four-byte scalars in any slot of a table at any
position of any bytes, they meet the same contradiction, or find no vector, or give one list of
values.  For the nodes of a graph, once there are some and their number is known, the list of all
nodes is that of the nodes taken one by one, or fails as the first of these does that fails. -/
theorem vectors_read_alike :
    (∀ (table : Table) (type : Scalar) (slot : Number), type.width = 4 →
      table.ReadersAgree type slot) ∧
    ∀ (view : GraphView) (position count : ℕ),
      view.table.fieldPosition? 0 4 = .ok (some position) → view.nodeCount = .ok count →
      view.ListsNodes count := by
  constructor
  · intro table type slot hwidth
    exact table.readersAgree hwidth slot
  · intro view position count hposition hcount
    rcases view.table.vector_findings 0 with ⟨cause, hbroken⟩ | habsent | ⟨start, count', hholds⟩
    · have hlength := hbroken.vectorLength_eq.symm.trans hcount
      cases hlength
    · rw [habsent] at hposition
      cases hposition
    · obtain rfl : count' = count := Except.ok.inj (hholds.vectorLength_eq.symm.trans hcount)
      exact .of_elements hholds

/-- A vector of two words that is not aligned in its backing array.  As references the first word
leads to the last byte and the second one past it. -/
theorem vectors_read_alike_unaligned :
    let bytes : Array UInt8 := #[0xaa, 6, 0, 8, 0, 4, 0, 0, 0, 8, 0, 0, 0, 4, 0, 0, 0, 2, 0, 0, 0,
      7, 0, 0, 0, 9, 0, 0, 0, 0xaa]
    let table : Table := ⟨⟨bytes, 1, 28, by decide⟩, 8⟩
    let view : GraphView := ⟨table⟩
    Scalar.uint32.width = 4 ∧ table.fieldPosition? 0 4 = .ok (some 12) ∧ view.nodeCount = .ok 2 ∧
      table.scalars .uint32 0 = .ok (some [7, 9]) ∧
      table.scalarView .uint32 0 = .ok (some [7, 9]) ∧
      table.element .uint32 0 (1 : ℕ) = .ok 9 ∧
      table.element .uint32 0 (2 : ℕ) = .error (.outOfBounds (2 : ℕ) 2 0) ∧
      (∃ node, view.node (0 : ℕ) = .ok node) ∧
      ∃ cause, view.nodes = .error cause ∧ view.node (1 : ℕ) = .error (.malformed cause) := by
  intro bytes table view
  have hposition : table.fieldPosition? 0 4 = .ok (some 12) := by decide +kernel
  have hcount : view.nodeCount = .ok 2 := by decide +kernel
  have hlist : table.scalars .uint32 0 = .ok (some [7, 9]) := by decide +kernel
  have hfirst : (view.node (0 : ℕ)).toOption.isSome = true := by decide +kernel
  have hbeyond : view.nodes.toOption = none := by
    have hnone : view.nodes.toOption.isNone = true := by decide +kernel
    exact Option.isNone_iff_eq_none.mp hnone
  obtain ⟨node, hnode⟩ : ∃ node, view.node (0 : ℕ) = .ok node := by
    cases hresult : view.node (0 : ℕ) with
    | ok node => exact ⟨node, rfl⟩
    | error error =>
        rw [hresult] at hfirst
        cases hfirst
  have hnodes := vectors_read_alike.2 view 12 2 hposition hcount
  obtain ⟨cause, index, hfails, hindex, hrefused, -⟩ := hnodes.firstFailure (by
    intro nodes hlisted
    rw [hlisted] at hbeyond
    cases hbeyond)
  obtain rfl : index = 1 := by
    by_contra hother
    obtain rfl : index = 0 := by omega
    rw [hnode] at hrefused
    cases hrefused
  cases vectors_read_alike.1 table .uint32 0 rfl with
  | malformed _ _ _ hlist' => exact absurd (hlist.symm.trans hlist') (by simp)
  | absent _ _ hlist' => exact absurd (hlist.symm.trans hlist') (by simp)
  | present values hlength hlist' hwords helement houtside =>
      obtain rfl : [7, 9] = values := Option.some.inj (Except.ok.inj (hlist.symm.trans hlist'))
      refine ⟨rfl, hposition, hcount, hlist, hwords, ?_, ?_, ⟨node, hnode⟩, cause, hfails, hrefused⟩
      · exact helement (1 : ℕ) 1 9 (Number.toNat?_natCast 1) rfl
      · apply houtside (2 : ℕ)
        intro place hplace
        rw [Number.toNat?_natCast]
        have hbelow : place < 2 := hplace
        simp only [ne_eq, Option.some.injEq]
        omega

end GraphWire

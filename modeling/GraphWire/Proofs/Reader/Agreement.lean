import GraphWire.Proofs.Reader.Extension
import GraphWire.Proofs.Reader.Items

/-!
# Reading from windows that agree in part

A reader that follows a reference to a vector or a string looks at the count behind the reference
and at as many bytes behind that as the elements take.  So two windows of one length that hold the
same bytes there are read alike, whatever else they hold.
-/

namespace GraphWire

/-! ## Ranges -/

/-- Windows of one length with the same bytes from one index up to another. -/
structure Window.Agree (window window' : Window) (first last : ℕ) : Prop where
  length : window'.length = window.length
  slice : ∀ {index size : ℕ}, first ≤ index → index + size ≤ last →
    window'.slice index size = window.slice index size

/-- Of a chunk that is in a window a reader gets every part. -/
theorem Window.slice_inside {window : Window} {chunk : List UInt8} {offset index size : ℕ}
    (hplaced : Placed window.toList chunk offset) (hfirst : window.length - offset ≤ index)
    (hlast : index + size ≤ window.length - offset + chunk.length) :
    window.slice index size = (chunk.drop (index - (window.length - offset))).take size := by
  have hchunk := slice_placed hplaced
  rw [slice_eq] at hchunk
  have hindex : index = window.length - offset + (index - (window.length - offset)) := by omega
  rw [slice_eq, hindex, ← List.drop_drop, Nat.add_sub_cancel_left]
  conv_rhs => rw [← hchunk]
  rw [List.drop_take, List.take_take, Nat.min_eq_left (by omega)]

/-- Windows that have a chunk in common agree where it is. -/
theorem Window.agree_of_placed {window window' : Window} (hlength : window'.length = window.length)
    {chunk : List UInt8} {offset : ℕ} (hplaced : Placed window.toList chunk offset)
    (hplaced' : Placed window'.toList chunk offset) :
    window.Agree window' (window.length - offset) (window.length - offset + chunk.length) where
  length := hlength
  slice := by
    intro index size hfirst hlast
    rw [slice_inside hplaced hfirst hlast]
    rw [← hlength] at hfirst hlast ⊢
    exact slice_inside hplaced' hfirst hlast

/-- A natural position that is claimed is its own index. -/
theorem Window.of_claim {window : Window} {position size index : ℕ}
    (hclaim : window.claim position size = .ok index) : index = position := by
  have hyields := window.claim_yields position size
  rw [hclaim] at hyields
  exact (Option.some.inj ((Number.toNat?_natCast position).symm.trans hyields.1)).symm

namespace Window.Agree

variable {window window' : Window} {first last : ℕ} (hagree : window.Agree window' first last)

include hagree

theorem cover_eq (index size : ℕ) : window'.cover index size = window.cover index size := by
  simp only [cover, hagree.length]

theorem claim_eq (position : Number) (size : ℕ) :
    window'.claim position size = window.claim position size := by
  simp only [claim, hagree.length]

theorem load_eq {index width : ℕ} (hfirst : first ≤ index) (hlast : index + width ≤ last) :
    window'.load index width = window.load index width := by
  simp only [load, hagree.cover_eq, wordAt, hagree.slice hfirst hlast]

theorem bytesAt_eq {index size : ℕ} (hfirst : first ≤ index) (hlast : index + size ≤ last) :
    window'.bytesAt index size = window.bytesAt index size := by
  simp only [bytesAt, hagree.cover_eq, hagree.slice hfirst hlast]

theorem readWord_eq {index width : ℕ} (hfirst : first ≤ index) (hlast : index + width ≤ last) :
    window'.readWord width index = window.readWord width index := by
  simp only [readWord, hagree.claim_eq]
  cases hclaim : window.claim index width with
  | error cause => rfl
  | ok place =>
      obtain rfl := of_claim hclaim
      exact hagree.load_eq hfirst hlast

theorem read_eq {index : ℕ} {type : Scalar} (hfirst : first ≤ index)
    (hlast : index + type.width ≤ last) : window'.read type index = window.read type index := by
  simp only [read, hagree.readWord_eq hfirst hlast]

theorem indirect_eq {index : ℕ} (hfirst : first ≤ index) (hlast : index + 4 ≤ last) :
    window'.indirect index = window.indirect index := by
  simp only [indirect, hagree.claim_eq, hagree.length]
  cases hclaim : window.claim index 4 with
  | error cause => rfl
  | ok place =>
      obtain rfl := of_claim hclaim
      simp only [bind, Except.bind, hagree.load_eq hfirst hlast]

end Window.Agree

/-! ## Rows -/

/-- The elements of a vector or the bytes of a string: where their count is, that count, and how
many bytes they take. -/
structure Row where
  offset : ℕ
  count : ℕ
  size : ℕ

/-- The row is in a buffer. -/
structure Row.At (row : Row) (bytes : List UInt8) : Prop where
  placed : Placed bytes (LittleEndian.split 4 row.count) row.offset
  small : row.count < 256 ^ 4
  room : 4 + row.size ≤ row.offset

/-- The row is in two windows, with the same bytes. -/
structure Window.Shares (window window' : Window) (row : Row) : Prop where
  agree : window.Agree window' (window.length - row.offset)
    (window.length - row.offset + 4 + row.size)
  found : row.At window.toList

namespace Window.Shares

variable {window window' : Window} {row : Row} (hshares : window.Shares window' row)
  {place place' : Number} (hplace : window.indirect place = .ok (window.length - row.offset))
  (hplace' : window'.indirect place' = .ok (window.length - row.offset))

include hshares hplace hplace'

theorem vectorLength_eq (stride : Number) :
    window'.vectorLength place' stride = window.vectorLength place stride := by
  have hagree := hshares.agree
  have hload := hagree.load_eq (le_refl (window.length - row.offset)) (Nat.le_add_right _ row.size)
  simp only [vectorLength, hplace, hplace', bind, Except.bind, hagree.claim_eq, hagree.length]
  cases hclaim : window.claim (window.length - row.offset : ℕ) 4 with
  | error cause => rfl
  | ok index =>
      obtain rfl := of_claim hclaim
      simp only [hload]

omit hplace' in
/-- The count that is read is that of the row. -/
theorem count_eq {stride : Number} {count : ℕ}
    (hcount : window.vectorLength place stride = .ok count) : count = row.count := by
  have hload := Window.load_placed hshares.found.placed hshares.found.small
  simp only [vectorLength, hplace, bind, Except.bind] at hcount
  cases hclaim : window.claim (window.length - row.offset : ℕ) 4 with
  | error cause =>
      rw [hclaim] at hcount
      cases hcount
  | ok index =>
      obtain rfl := of_claim hclaim
      simp only [hclaim, hload] at hcount
      split at hcount
      · cases hcount
      · exact (Except.ok.inj hcount).symm

omit hshares in
theorem vector_eq : window'.vector place' = window.vector place := by
  rw [window.vector_eq hplace, window'.vector_eq hplace']

theorem string_eq (hfits : row.count ≤ row.size) : window'.string place' = window.string place := by
  have hagree := hshares.agree
  have hstart := window.vector_eq hplace
  simp only [string, stringBytes, hshares.vectorLength_eq hplace hplace',
    vector_eq hplace hplace', hstart]
  cases hlength : window.vectorLength place 1 with
  | error cause => rfl
  | ok count =>
      obtain rfl := hshares.count_eq hplace hlength
      simp only [bind, Except.bind, hagree.bytesAt_eq (Nat.le_add_right _ 4)
        (Nat.add_le_add_left hfits _)]

end Window.Shares

/-! ## Slots -/

/-- Tables at one position, whatever the windows are. -/
def Table.Alike (table table' : Table) : Prop :=
  table'.position = table.position

/-- A slot that leads to a row is read alike, by every reader that looks at no more than the bytes
of the row. -/
structure Table.RowAlike (table table' : Table) (slot : Number) (row : Row) : Prop where
  vectorLength : ∀ stride, table'.vectorLength slot stride = table.vectorLength slot stride
  text : row.count ≤ row.size → table'.string? slot = table.string? slot
  element : ∀ (type : Scalar) (index : Number), row.count * type.width ≤ row.size →
    table'.element type slot index = table.element type slot index
  reference : ∀ index : Number, row.count * 4 ≤ row.size →
    Stays True Table.Alike (table.tableElement slot index) (table'.tableElement slot index)
  scalars : ∀ type : Scalar, type.width = 4 → row.count * 4 ≤ row.size →
    table'.scalars type slot = table.scalars type slot
  scalarView : ∀ type : Scalar, type.width = 4 → row.count * 4 ≤ row.size →
    table'.scalarView type slot = table.scalarView type slot
  references : row.count * 4 ≤ row.size →
    Stays True (Option.Rel (List.Forall₂ Table.Alike)) (table.tables slot) (table'.tables slot)

namespace Window.Shares

variable {window window' : Window} {row : Row} (hshares : window.Shares window' row)
  {position position' slot : Number}
  (hleads : Table.LeadsTo ⟨window, position⟩ slot (window.length - row.offset))
  (hleads' : Table.LeadsTo ⟨window', position'⟩ slot (window.length - row.offset))

include hshares hleads hleads'

theorem elementPosition_eq (index stride : Number) :
    Table.elementPosition ⟨window', position'⟩ slot index stride
      = Table.elementPosition ⟨window, position⟩ slot index stride := by
  obtain ⟨place, hplace, htarget⟩ := hleads
  obtain ⟨place', hplace', htarget'⟩ := hleads'
  simp only [Table.elementPosition, hplace, hplace', AccessError.lift_ok, bind, Except.bind,
    hshares.vectorLength_eq htarget htarget' stride, vector_eq htarget htarget']

omit hleads' in
/-- The position of an element is inside the row, if the elements fit. -/
theorem of_elementPosition {index element : Number} {width : ℕ}
    (hfits : row.count * width ≤ row.size)
    (helement : Table.elementPosition ⟨window, position⟩ slot index width = .ok element) :
    ∃ place : ℕ, element = (place : Number) ∧ window.length - row.offset + 4 ≤ place ∧
      place + width ≤ window.length - row.offset + 4 + row.size := by
  obtain ⟨origin, horigin, htarget⟩ := hleads
  simp only [Table.elementPosition, horigin, window.vector_eq htarget, Number.toNat?_natCast,
    AccessError.lift_ok, bind, Except.bind] at helement
  cases hlength : window.vectorLength origin width with
  | error cause =>
      rw [hlength] at helement
      cases helement
  | ok count =>
      obtain rfl := hshares.count_eq htarget hlength
      rw [hlength, AccessError.lift_ok] at helement
      dsimp only at helement
      cases hindex : Table.elementIndex? index row.count with
      | none =>
          rw [hindex] at helement
          cases helement
      | some number =>
          obtain ⟨-, hbelow⟩ := Option.filter_eq_some_iff.mp hindex
          rw [decide_eq_true_eq] at hbelow
          rw [hindex] at helement
          have hnext : (number + 1) * width ≤ row.count * width := Nat.mul_le_mul_right _ hbelow
          rw [Nat.succ_mul] at hnext
          exact ⟨_, (Except.ok.inj helement).symm, Nat.le_add_right _ _, by omega⟩

theorem element_eq {type : Scalar} (hfits : row.count * type.width ≤ row.size) (index : Number) :
    Table.element ⟨window', position'⟩ type slot index
      = Table.element ⟨window, position⟩ type slot index := by
  simp only [Table.element, hshares.elementPosition_eq hleads hleads']
  cases helement : Table.elementPosition ⟨window, position⟩ slot index type.width with
  | error cause => rfl
  | ok element =>
      obtain ⟨place, rfl, hfirst, hlast⟩ := hshares.of_elementPosition hleads hfits helement
      simp only [bind, Except.bind, hshares.agree.read_eq (by omega) hlast]

theorem tableElement_stays (hfits : row.count * 4 ≤ row.size) (index : Number) :
    Stays True Table.Alike (Table.tableElement ⟨window, position⟩ slot index)
      (Table.tableElement ⟨window', position'⟩ slot index) := by
  simp only [Table.tableElement, hshares.elementPosition_eq hleads hleads']
  cases helement : Table.elementPosition ⟨window, position⟩ slot index 4 with
  | error cause => exact .error _
  | ok element =>
      obtain ⟨place, rfl, hfirst, hlast⟩ := hshares.of_elementPosition hleads hfits helement
      have htarget := hshares.agree.indirect_eq (show _ ≤ place by omega) hlast
      simp only [bind, Except.bind, htarget]
      cases window.indirect place with
      | error cause => exact .error _
      | ok target => exact .ok rfl

theorem elements_stays (hfits : row.count * 4 ≤ row.size) {α β : Type} {related : α → β → Prop}
    {read : ℕ → Except Malformed α} {read' : ℕ → Except Malformed β}
    (hread : ∀ place, window.length - row.offset ≤ place →
      place + 4 ≤ window.length - row.offset + 4 + row.size →
        Stays True related (read place) (read' place)) :
    Stays True (Option.Rel (List.Forall₂ related))
      (Table.elements ⟨window, position⟩ slot read)
      (Table.elements ⟨window', position'⟩ slot read') := by
  obtain ⟨place, hplace, htarget⟩ := hleads
  obtain ⟨place', hplace', htarget'⟩ := hleads'
  have hslot : Stays True (fun found found' => found = some place ∧ found' = some place')
      (Table.fieldPosition? ⟨window, position⟩ slot 4)
      (Table.fieldPosition? ⟨window', position'⟩ slot 4) := by
    rw [hplace, hplace']
    exact .ok ⟨rfl, rfl⟩
  have hlength : Stays True (fun count count' => count = row.count ∧ count' = row.count)
      (window.vectorLength place 4) (window'.vectorLength place' 4) := by
    rw [hshares.vectorLength_eq htarget htarget' 4]
    cases hcount : window.vectorLength place 4 with
    | error cause => exact .error _
    | ok count =>
        have hsame := hshares.count_eq htarget hcount
        exact .ok ⟨hsame, hsame⟩
  have hvector : Stays True (fun start start' => start = window.length - row.offset + 4 ∧
      start' = window.length - row.offset + 4) (window.vector place) (window'.vector place') := by
    rw [window.vector_eq htarget, window'.vector_eq htarget']
    exact .ok ⟨rfl, rfl⟩
  apply hslot.bind
  rintro _ _ ⟨rfl, rfl⟩
  apply hlength.bind
  rintro _ _ ⟨rfl, rfl⟩
  apply hvector.bind
  rintro _ _ ⟨rfl, rfl⟩
  rw [hshares.agree.cover_eq]
  apply (Stays.refl (window.cover _ _)).bind
  intro _ _ _
  have hindices : List.Forall₂ (fun index index' => index = index' ∧ index < row.count)
      (List.range row.count) (List.range row.count) := by
    simp [List.forall₂_same]
  refine Stays.map (Stays.mapM hindices ?_) fun _ _ hvalues => .some hvalues
  rintro index _ ⟨rfl, hindex⟩
  exact hread _ (by omega) (by omega)

theorem rowAlike : Table.RowAlike ⟨window, position⟩ ⟨window', position'⟩ slot row := by
  have hread {type : Scalar} (hwidth : type.width = 4) (hfits : row.count * 4 ≤ row.size) :
      Table.scalars ⟨window', position'⟩ type slot
        = Table.scalars ⟨window, position⟩ type slot := by
    have hword (place : ℕ) (hfirst : window.length - row.offset ≤ place)
        (hlast : place + 4 ≤ window.length - row.offset + 4 + row.size) :
        Stays True Eq (window.read type place) (window'.read type place) := by
      rw [hshares.agree.read_eq hfirst (hwidth ▸ hlast)]
      exact .refl _
    apply Stays.eq
    apply (hshares.elements_stays hleads hleads' hfits hword).mono
    rintro _ _ (hvalues | _)
    · rw [List.forall₂_eq_eq_eq] at hvalues
      rw [hvalues]
    · rfl
  constructor
  · intro stride
    obtain ⟨place, hplace, htarget⟩ := hleads
    obtain ⟨place', hplace', htarget'⟩ := hleads'
    simp only [Table.vectorLength, hplace, hplace', bind, Except.bind,
      hshares.vectorLength_eq htarget htarget' stride]
  · intro hfits
    obtain ⟨place, hplace, htarget⟩ := hleads
    obtain ⟨place', hplace', htarget'⟩ := hleads'
    simp only [Table.string?, hplace, hplace', bind, Except.bind,
      hshares.string_eq htarget htarget' hfits]
  · exact fun type index hfits => hshares.element_eq hleads hleads' hfits index
  · exact fun index hfits => hshares.tableElement_stays hleads hleads' hfits index
  · exact fun type hwidth hfits => hread hwidth hfits
  · intro type hwidth hfits
    rw [Table.scalarView_eq_scalars _ hwidth, Table.scalarView_eq_scalars _ hwidth]
    exact hread hwidth hfits
  · intro hfits
    apply hshares.elements_stays hleads hleads' hfits
    intro place hfirst hlast
    rw [hshares.agree.indirect_eq hfirst hlast]
    cases window.indirect place with
    | error cause => exact .error _
    | ok target => exact .ok rfl

end Window.Shares

end GraphWire

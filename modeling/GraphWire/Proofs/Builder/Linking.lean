import GraphWire.Builder.Table
import GraphWire.Proofs.Builder.Space

/-!
# Linking a table to its vtable

Closing a table writes zeros where the distance to the vtable belongs, writes the vtable, and then
fills in the distance and maybe gives up the vtable again.  For the bytes that comes to putting the
distance in front of the body and the vtable in front of that (`Build.linkBody`), since nothing but
the vtable lies in front of the distance.
-/

namespace GraphWire

namespace Region

variable {region : Region}

theorem behind_push (region : Region) (front : List UInt8) :
    (region.push front).behind region.size = region := by
  ext1
  simp only [behind, bytes_push, size_push, Nat.add_sub_cancel, List.drop_left]

/-- What is overwritten at the front of a region leaves what was put before that. -/
theorem overwritten_push (region : Region) (front : List UInt8) {bytes : List UInt8} {offset : ℕ}
    (hlength : bytes.length = 4) (hoffset : offset = region.size + 4) :
    (((region.push (List.replicate 4 0)).push front).overwritten offset bytes)
      = (region.push bytes).push front := by
  have hzeros : (List.replicate 4 (0 : UInt8)).length = 4 := List.length_replicate
  have hskip : front.length + ((List.replicate 4 (0 : UInt8)).length + region.size)
      - (region.size + 4) = front.length := by omega
  have hrest : List.drop (front.length + 4)
      (front ++ (List.replicate 4 (0 : UInt8) ++ region.bytes)) = region.bytes := by
    rw [← List.append_assoc]
    exact List.drop_left' (by simp)
  ext1
  simp only [overwritten, bytes_push, size_push, hoffset, hskip, hlength, List.take_left, hrest]

end Region

namespace Build

variable {before after : Builder}

/-! ## What a step has written -/

/-- The buffer grows to what is required, or as far as it can. -/
theorem ensureCapacity_eq {σ : Type} [Store σ] (required : ℕ) (before : Builder σ) :
    ensureCapacity required before
      = if (before.growTo required).capacity < required then
          .error .capacityLimit (before.growTo required)
        else .ok () (before.growTo required) := by
  change (if (before.growTo required).capacity < required then throw .capacityLimit
    else pure () : BuildOver σ Unit) (before.growTo required) = _
  split <;> rfl

/-- Padding grows the buffer to what is required and fails for want of room. -/
theorem pad_eq {σ : Type} [Store σ] (zeros required : ℕ) (before : Builder σ) :
    pad zeros required before
      = if (before.growTo required).capacity < required then
          .error .capacityLimit (before.growTo required)
        else .ok () { before.growTo required with
          written := Store.pad zeros (before.growTo required).written } := by
  have hgrow := ensureCapacity_eq required before
  split
  · next hshort =>
      rw [if_pos hshort] at hgrow
      exact bind_of_error hgrow
  · next hroom =>
      rw [if_neg hroom] at hgrow
      exact bind_of_ok hgrow

theorem pad_cases (zeros required : ℕ) (before : Builder) :
    pad zeros required before = .error .capacityLimit (before.growTo required) ∨
      required ≤ (before.growTo required).capacity ∧
        pad zeros required before = .ok () { before.growTo required with
          written := before.written.push (List.replicate zeros 0) } := by
  rw [pad_eq]
  split
  · exact .inl rfl
  · next hroom => exact .inr ⟨Nat.le_of_not_lt hroom, rfl⟩

theorem of_pad {zeros required : ℕ} (hresult : pad zeros required before = .ok () after) :
    required ≤ after.capacity ∧ after.written = before.written.push (List.replicate zeros 0) := by
  rcases pad_cases zeros required before with herror | ⟨hroom, hdone⟩
  · rw [herror] at hresult
    cases hresult
  · rw [hdone] at hresult
    cases hresult
    exact ⟨hroom, rfl⟩

theorem of_requireWritable {result : Unit} (hresult : requireWritable before = .ok result after) :
    before.phase ≠ .finished ∧ after = before := by
  unfold requireWritable at hresult
  rw [get_bind_apply] at hresult
  split at hresult
  · cases hresult
  · next hwritable =>
      cases hresult
      exact ⟨hwritable, rfl⟩

/-- A reservation that succeeds has made the room. -/
theorem of_reserve {alignment additional : ℕ}
    (hresult : reserve alignment additional before = .ok () after) :
    after.written.size + alignment + additional ≤ after.capacity ∧
      after.written = before.written.push
        (List.replicate (padding alignment (before.written.size + additional)) 0) := by
  unfold reserve at hresult
  obtain ⟨_, writable, hwritable, hreserved⟩ := of_bind_ok hresult
  obtain ⟨-, rfl⟩ := of_requireWritable hwritable
  obtain ⟨_, noted, hnoted, hpadded⟩ := of_bind_ok hreserved
  cases hnoted
  rw [get_bind_apply] at hpadded
  obtain ⟨hroom, hwritten⟩ := of_pad hpadded
  rw [Builder.offset_eq] at hroom hwritten
  refine ⟨?_, hwritten⟩
  rw [hwritten, Region.size_push, List.length_replicate]
  dsimp only at hroom ⊢
  omega

theorem of_write {type : Scalar} {value : type.Value}
    (hresult : write type value before = .ok () after) :
    ∃ word, type.word value = .ok word ∧ after.written
      = (before.written.push (List.replicate (padding type.width before.written.size) 0)).push
          (LittleEndian.split type.width word) := by
  unfold write at hresult
  cases hword : type.word value with
  | error refused =>
      rw [hword] at hresult
      cases hresult
  | ok word =>
      rw [hword] at hresult
      obtain ⟨_, reserved, hreserved, hpush⟩ := of_bind_ok hresult
      cases hpush
      exact ⟨word, rfl, congrArg (Region.push · _) (of_reserve hreserved).2⟩

/-- A scalar takes its width. -/
theorem size_le_of_write {type : Scalar} {value : type.Value} {result : Unit}
    (hresult : write type value before = .ok result after) :
    before.written.size + type.width ≤ after.written.size := by
  obtain ⟨word, -, hwritten⟩ := of_write hresult
  rw [hwritten, Region.size_push, Region.size_push, LittleEndian.length_split]
  omega

/-- Entries take two bytes each. -/
theorem size_le_of_writeEntries {words : List ℕ} {result : Unit}
    (hresult : writeAll (fun entry : ℕ => write .uint16 (entry : Number)) words before
      = .ok result after) : before.written.size + 2 * words.length ≤ after.written.size := by
  induction words generalizing after result with
  | nil =>
      cases hresult
      exact le_refl _
  | cons word words ih =>
      obtain ⟨_, middle, hmiddle, hlast⟩ := of_bind_ok hresult
      have hearlier := ih hmiddle
      have hword : middle.written.size + 2 ≤ after.written.size := size_le_of_write hlast
      rw [List.length_cons]
      omega

/-- The words of a vtable that has been written follow each other and are entries. -/
theorem of_writeEntries {words : List ℕ} {result : Unit} (haligned : 2 ∣ before.written.size)
    (hresult : writeAll (fun entry : ℕ => write .uint16 (entry : Number)) words before
      = .ok result after) : (∀ word ∈ words, word ≤ Layout.maxEntry) ∧
        after.written = before.written.push (LittleEndian.splitAll 2 words) := by
  induction words generalizing after result with
  | nil =>
      cases hresult
      exact ⟨List.forall_mem_nil _, (Region.push_nil _).symm⟩
  | cons entry words ih =>
      obtain ⟨_, middle, hmiddle, hlast⟩ := of_bind_ok hresult
      obtain ⟨hsmall, hwritten⟩ := ih hmiddle
      obtain ⟨word, hword, hafter⟩ := of_write hlast
      have hentry := (Scalar.fits_natCast rfl).mp (Scalar.fits_iff.mpr ⟨word, hword⟩)
      obtain rfl := Scalar.eq_of_word rfl (Number.toNat?_natCast _) hword
      have hwidth : Scalar.uint16.width = 2 := rfl
      have hnone : padding 2 middle.written.size = 0 := by
        apply isWidth_two.padding_eq_zero
        rw [hwritten, Region.size_push, LittleEndian.length_splitAll]
        exact Nat.dvd_add (Nat.dvd_mul_right _ _) haligned
      rw [hwidth, hnone, List.replicate_zero, Region.push_nil, hwritten, Region.push_push,
        ← LittleEndian.splitAll_cons] at hafter
      exact ⟨List.forall_mem_cons.mpr ⟨Layout.le_maxEntry_iff.mpr hentry, hsmall⟩, hafter⟩

/-! ## Closing a table -/

theorem length_vtableDistance (vtable table : ℕ) : (vtableDistance vtable table).length = 4 :=
  LittleEndian.length_split _ _

/-- Puts the distance to its vtable in front of the body of a table.  When the vtable just written
is equal to one that is shared, its bytes are dropped. -/
def linkBody (body : Region) (table vtableSize : ℕ) : Build Unit := do
  let builder ← get
  let bytes := builder.written.bytes.take vtableSize
  match sharedVtable? builder bytes with
  | some stored =>
      set { builder with
        written := body.push (vtableDistance stored.offset table)
        phase := .idle }
  | none =>
      let vtable := builder.written.size
      set { builder with
        written := (body.push (vtableDistance vtable table)).push bytes
        phase := .idle
        vtables :=
          if builder.dedupeVtables then ⟨bytes, vtable⟩ :: builder.vtables
          else builder.vtables
        vtableCount := builder.vtableCount + 1 }

/-- Closes a table that is open. -/
def closeTable (opened : OpenTable) : Build ℕ := do
  reserve Layout.offsetWidth 0
  let body := (← get).written
  push (List.replicate Layout.offsetWidth 0)
  let table := body.size + Layout.offsetWidth
  let tableSize := table - opened.start
  if Layout.maxEntry < tableSize then throw (.tableTooLarge tableSize)
  let entries := slotEntries table 0 opened.entries
  let vtableSize := (entries.length + Layout.vtableHeaderEntries) * Layout.entryWidth
  writeAll (fun entry : ℕ => write .uint16 (entry : Number)) (vtableSize :: tableSize :: entries)
  linkBody body table vtableSize
  return table

/-- Filling in the distance behind a vtable is putting both in front of the body. -/
theorem linkVtable_eq_linkBody {body : Region} {front : List UInt8} {vtableSize : ℕ}
    (hwritten : before.written = (body.push (List.replicate Layout.offsetWidth 0)).push front)
    (hlength : front.length = vtableSize) :
    linkVtable (body.size + Layout.offsetWidth) vtableSize before
      = linkBody body (body.size + Layout.offsetWidth) vtableSize before := by
  have hbehind : before.written.behind (body.size + Layout.offsetWidth)
      = body.push (List.replicate Layout.offsetWidth 0) := by
    have hsize : body.size + Layout.offsetWidth
        = (body.push (List.replicate Layout.offsetWidth 0)).size := by
      rw [Region.size_push, List.length_replicate, Nat.add_comm]
    rw [hwritten, hsize, Region.behind_push]
  have hfront : before.written.bytes.take vtableSize = front := by
    rw [hwritten, Region.bytes_push, ← hlength, List.take_left]
  unfold linkVtable linkBody
  rw [get_bind_apply, get_bind_apply, Region.store_front, hfront]
  cases sharedVtable? before front with
  | some stored =>
      have hpatch := Region.overwritten_push body []
        (length_vtableDistance stored.offset (body.size + Layout.offsetWidth)) rfl
      simp only [Region.push_nil] at hpatch
      change EStateM.Result.ok () { before with
        written := (before.written.behind _).overwritten _ _, phase := .idle } = _
      rw [hbehind]
      exact congrArg (fun written : Region =>
        EStateM.Result.ok () { before with written, phase := .idle }) hpatch
  | none =>
      have hpatch := Region.overwritten_push body front
        (length_vtableDistance before.written.size (body.size + Layout.offsetWidth)) rfl
      rw [show (4 : ℕ) = Layout.offsetWidth from rfl, ← hwritten] at hpatch
      exact congrArg (fun written : Region => EStateM.Result.ok () { before with
        written
        phase := .idle
        vtables :=
          if before.dedupeVtables then ⟨front, before.written.size⟩ :: before.vtables
          else before.vtables
        vtableCount := before.vtableCount + 1 }) hpatch

/-- The entries of the vtable are all that lies in front of the distance. -/
theorem writeEntries_linkVtable {body : Region} {entries : List ℕ} {vtableSize : ℕ}
    (hwritten : before.written = body.push (List.replicate Layout.offsetWidth 0))
    (haligned : 4 ∣ body.size) (hlength : vtableSize = 2 * entries.length) :
    (do
      writeAll (fun entry : ℕ => write .uint16 (entry : Number)) entries
      linkVtable (body.size + Layout.offsetWidth) vtableSize
      return body.size + Layout.offsetWidth : Build ℕ) before
    = (do
      writeAll (fun entry : ℕ => write .uint16 (entry : Number)) entries
      linkBody body (body.size + Layout.offsetWidth) vtableSize
      return body.size + Layout.offsetWidth : Build ℕ) before := by
  have hsize : before.written.size = body.size + 4 := by
    rw [hwritten, Region.size_push, List.length_replicate, Nat.add_comm]
    rfl
  cases hresult : writeAll (fun entry : ℕ => write .uint16 (entry : Number)) entries before with
  | error error refused => rw [bind_of_error hresult, bind_of_error hresult]
  | ok _ after =>
      obtain ⟨-, hfront⟩ := of_writeEntries (by omega) hresult
      rw [hwritten] at hfront
      have hcount := (LittleEndian.length_splitAll 2 entries).trans hlength.symm
      rw [bind_of_ok hresult, bind_of_ok hresult]
      simp only [bind, EStateM.bind, linkVtable_eq_linkBody hfront hcount]

/-- Closing a table, as far as the bytes are concerned. -/
theorem endTable_eq : (endTable : Build ℕ) = (do
    match (← get).phase with
    | .table opened => closeTable opened
    | _ => throw .noOpenTable) := by
  funext before
  unfold endTable
  rw [get_bind_apply, get_bind_apply]
  cases before.phase with
  | idle => rfl
  | vector _ => rfl
  | finished => rfl
  | table opened =>
      simp only [closeTable]
      cases hreserved : reserve Layout.offsetWidth 0 before with
      | error error refused => rw [bind_of_error hreserved, bind_of_error hreserved]
      | ok _ middle =>
          have hsize := congrArg Region.size (of_reserve hreserved).2
          rw [Region.size_push, List.length_replicate, Nat.add_comm] at hsize
          have haligned : 4 ∣ middle.written.size := by
            rw [hsize]
            exact isWidth_four.dvd_add_padding before.written.size
          have hoffset : (middle.written.push (List.replicate Layout.offsetWidth 0)).size
              = middle.written.size + Layout.offsetWidth := by
            rw [Region.size_push, List.length_replicate, Nat.add_comm]
          rw [bind_of_ok hreserved, bind_of_ok hreserved, get_bind_apply]
          simp only [pushZeros, push]
          rw [modify_bind_apply, modify_bind_apply, get_bind_apply, Builder.offset_eq]
          simp only [Region.store_pad, Region.store_push, hoffset]
          split
          · rfl
          · apply writeEntries_linkVtable rfl haligned
            simp only [List.length_cons, Layout.vtableHeaderEntries, Layout.entryWidth]
            omega

end Build

end GraphWire

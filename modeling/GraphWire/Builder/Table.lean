import GraphWire.Builder.Space

/-!
# Writing tables

Fields are added in strictly descending slot order, so the written entries of an open table are in
ascending order, latest first.  Closing the table puts the distance to its vtable in front of the
fields and the vtable in front of that: its own size, the size of the table, and one entry per slot
up to the last one with a value.  A vtable whose bytes are in the buffer already is shared, and the
copy just written is dropped.
-/

namespace GraphWire

-- Powers are those of the core library, also where another power is in scope.
attribute [local instance (high)] instPowNat

/-- What a slot is to hold. -/
inductive Field where
  /-- A scalar, left out when it is equal to the default. -/
  | scalar (type : Scalar) (value default : type.Value)
  /-- A reference; zero stands for an absent one and is never written. -/
  | reference (target : Number)

/-- The vtable entries from slot `slot` on of a table at offset `table`: the distance to each value
and zero for the slots between. -/
def slotEntries (table : Nat) : Nat → List (Nat × Nat) → List Nat
  | _, [] => []
  | slot, (next, offset) :: rest =>
      List.replicate (next - slot) 0 ++ (table - offset) :: slotEntries table (next + 1) rest

/-- The number of slots that a table stays below. -/
def slotLimit : Nat := 2 ^ (32 : Nat)

namespace Build

variable {σ : Type} [Store σ]

def startTable (fieldCount : Number) : BuildOver σ Unit := do
  requireWritable
  requireIdle .table
  match fieldCount.toNat? with
  | none => throw (.argument (.fieldCount fieldCount))
  | some count =>
      if slotLimit ≤ count then throw (.argument .tooManyFields)
      modify fun builder =>
        { builder with phase := .table ⟨count, builder.offset, count, []⟩ }

/-- Takes the slot of the next field, whether or not a value will be written for it. -/
def takeSlot (slot : Number) : BuildOver σ Nat := do
  match (← get).phase with
  | .table opened =>
      match slot.toNat?.filter (· < opened.fieldCount) with
      | none => throw (.slotOutsideTable slot opened.fieldCount)
      | some index =>
          if opened.limit ≤ index then throw (.slotOrder slot opened.limit)
          modify fun builder => { builder with phase := .table { opened with limit := index } }
          return index
  | _ => throw (.fieldOutsideTable slot)

/-- Notes that the value of a slot starts where the region starts now. -/
def noteEntry (slot : Nat) : BuildOver σ Unit := do
  let builder ← get
  match builder.phase with
  | .table opened =>
      let entries := (slot, builder.offset) :: opened.entries
      set { builder with phase := .table { opened with entries } }
  | _ => return

def addField (slot : Number) (field : Field) : BuildOver σ Unit := do
  let index ← takeSlot slot
  match field with
  | .scalar type value default =>
      if (← get).forceDefaults || !type.same value default then
        write type value
        noteEntry index
  | .reference target =>
      if !target.equals 0 then
        writeOffset target
        noteEntry index

/-- The stored vtable with the given bytes, if vtables are shared and there is one. -/
def sharedVtable? (builder : Builder σ) (bytes : List UInt8) : Option StoredVtable :=
  if builder.dedupeVtables then builder.vtables.find? (·.bytes == bytes) else none

/-- The distance from a table to its vtable, as it is stored at the start of the table. -/
def vtableDistance (vtable table : Nat) : List UInt8 :=
  LittleEndian.split 4 (TwosComplement.word 4 ((vtable : Int) - table))

/-- Fills in the distance from a table to its vtable.  When the vtable just written is equal to one
that is shared, its bytes are given up. -/
def linkVtable (table vtableSize : Nat) : BuildOver σ Unit := do
  let builder ← get
  let bytes := Store.front vtableSize builder.written
  match sharedVtable? builder bytes with
  | some stored =>
      let body := Store.rollback table builder.written
      set { builder with
        written := Store.patch table (vtableDistance stored.offset table) body
        phase := .idle }
  | none =>
      let vtable := builder.offset
      set { builder with
        written := Store.patch table (vtableDistance vtable table) builder.written
        phase := .idle
        vtables :=
          if builder.dedupeVtables then ⟨bytes, vtable⟩ :: builder.vtables
          else builder.vtables
        vtableCount := builder.vtableCount + 1 }

def endTable : BuildOver σ Nat := do
  match (← get).phase with
  | .table opened =>
      -- The distance is not known yet.
      reserve Layout.offsetWidth 0
      pushZeros Layout.offsetWidth
      let table := (← get).offset
      let tableSize := table - opened.start
      if Layout.maxEntry < tableSize then throw (.tableTooLarge tableSize)
      let entries := slotEntries table 0 opened.entries
      let vtableSize := (entries.length + Layout.vtableHeaderEntries) * Layout.entryWidth
      writeAll (fun entry : Nat => write .uint16 (entry : Number))
        (vtableSize :: tableSize :: entries)
      linkVtable table vtableSize
      return table
  | _ => throw .noOpenTable

def table (fields : List Field) : BuildOver σ Nat := do
  startTable fields.length
  addFields 0 fields
  endTable
where
  /-- Adds fields from a slot on, the last one first. -/
  addFields (slot : Nat) : List Field → BuildOver σ Unit
    | [] => return
    | field :: rest => do
        addFields (slot + 1) rest
        addField (slot : Number) field

end Build

end GraphWire

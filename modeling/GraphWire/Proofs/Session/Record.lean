import GraphWire.Proofs.Builder.Table
import GraphWire.Proofs.Reader.Items
import GraphWire.Session

/-!
# What a session has closed

The calls of a session and their answers tell which objects a buffer has to hold, without a look at
the builder.  `Record` follows them: it gathers the contents of what is open and keeps every object
that was closed under the offset that the caller got for it.
-/

namespace GraphWire

/-- What a session has open. -/
inductive Opened where
  | nothing
  | table (slots : List (ℕ × Content))
  | vector (width : ℕ) (contents : List Content)

namespace Opened

/-- A content written on its own is an element of an open vector; elsewhere it belongs to
nothing. -/
def write (content : Content) : Opened → Opened
  | vector width contents => vector width (content :: contents)
  | opened => opened

/-- A field fills its slot of an open table, unless it is left out. -/
def fill (slot : ℕ) (kept : Option Content) : Opened → Opened
  | table slots =>
      match kept with
      | some content => table ((slot, content) :: slots)
      | none => table slots
  | opened => opened

/-- The object that closing leaves. -/
def item? : Opened → Option Item
  | nothing => none
  | table slots => some (.table slots)
  | vector width contents => some (.vector width contents)

/-- Whether a content of some width may be written on its own: an open vector takes elements
only. -/
def Takes (size : ℕ) : Opened → Prop
  | vector width _ => size = width
  | _ => True

/-- Whether bytes that belong to nothing may be written. -/
def TakesPadding : Opened → Prop
  | vector _ _ => False
  | _ => True

end Opened

/-- What is open in a session, and the objects it has closed with their offsets, latest first. -/
structure Record where
  opened : Opened
  closed : List (ℕ × Item)

namespace Record

def empty : Record :=
  ⟨.nothing, []⟩

/-- An object has been written whole. -/
def add (record : Record) (offset : ℕ) (item : Item) : Record :=
  ⟨.nothing, (offset, item) :: record.closed⟩

/-- What was open has been closed. -/
def close (record : Record) (offset : ℕ) : Record :=
  match record.opened.item? with
  | some item => record.add offset item
  | none => record

/-- The record after a call that has given an answer. -/
def after (force : Bool) (record : Record) : Call → Answer → Record
  | .write type value, _ => { record with opened := record.opened.write (.scalar type value) }
  | .writeOffset target, _ =>
      { record with opened := record.opened.write (.reference (target.toNat?.getD 0)) }
  | .addField slot field, _ =>
      { record with opened := record.opened.fill (slot.toNat?.getD 0) (field.kept force) }
  | .startTable _, _ => { record with opened := .table [] }
  | .endTable, .offset offset => record.close offset
  | .startVector elementSize _ _, _ =>
      { record with opened := .vector (elementSize.toNat?.getD 0) [] }
  | .endVector, .offset offset => record.close offset
  | .scalars type values, .offset offset =>
      record.add offset (.vector type.width (values.map (.scalar type)))
  | .offsets targets, .offset offset =>
      record.add offset (.vector 4 (targets.map fun target => .reference (target.toNat?.getD 0)))
  | .string bytes, .offset offset => record.add offset (.string bytes)
  | .finish _ _, _ => { record with opened := .nothing }
  | .clear, _ => empty
  | _, _ => record

/-- Whether a call keeps to the terms: the alignments and element sizes are powers of two, sizes are
not negative, and an open vector is filled with elements of its width alone.  The calls that write
parts of a model are made of the others. -/
def Allows (record : Record) : Call → Prop
  | .prepare alignment additional =>
      (∃ exponent : ℕ, alignment = (2 ^ exponent : ℕ)) ∧ Number.atMost 0 additional = true ∧
        record.opened.TakesPadding
  | .write type _ => record.opened.Takes type.width
  | .writeOffset _ => record.opened.Takes Layout.offsetWidth
  | .startVector elementSize _ alignment =>
      (∃ exponent : ℕ, elementSize = (2 ^ exponent : ℕ)) ∧
        ∃ exponent : ℕ, alignment = (2 ^ exponent : ℕ)
  | .attrs _ | .payload _ | .operator _ | .constant _ | .valueNode | .node _ | .graph _
  | .model _ => False
  | _ => True

/-- The record after some calls with their answers. -/
def follow (force : Bool) (record : Record) : List (Call × Answer) → Record
  | [] => record
  | (call, answer) :: rest => (record.after force call answer).follow force rest

/-- Whether each of some calls keeps to the terms when it is made. -/
def AllowsAll (force : Bool) (record : Record) : List (Call × Answer) → Prop
  | [] => True
  | (call, answer) :: rest =>
      record.Allows call ∧ (record.after force call answer).AllowsAll force rest

end Record

end GraphWire

import GraphWire.Argument
import GraphWire.Number.Arithmetic

/-!
# Options

Options leave out what the caller does not care about; settings are complete and checked.  Each
kind of options resolves to its settings or to the argument that was wrong.
-/

namespace GraphWire

structure BuilderOptions where
  /-- The starting capacity in bytes. -/
  initialSize : Option Number := none
  /-- Write scalar fields even when they equal their default. -/
  forceDefaults : Option Bool := none
  /-- Share one vtable between tables of one layout. -/
  dedupeVtables : Option Bool := none

/-- Checked choices about a builder. -/
structure BuilderSettings where
  initialSize : Nat
  forceDefaults : Bool
  dedupeVtables : Bool
deriving DecidableEq, Repr

/-- Fills in the defaults and refuses a starting capacity that is not positive or too large. -/
def BuilderOptions.resolve (options : BuilderOptions) : Except ArgumentError BuilderSettings := do
  let offered := options.initialSize.getD Layout.defaultInitialSize
  match offered.toNat? with
  | some initialSize =>
      if 1 ≤ initialSize ∧ initialSize ≤ Layout.maxBufferSize then
        return {
          initialSize
          forceDefaults := options.forceDefaults.getD false
          dedupeVtables := options.dedupeVtables.getD true }
      else throw (.initialSize offered)
  | none => throw (.initialSize offered)

structure ReaderOptions where
  /-- Refuse a buffer whose identifier or schema version is not the expected one. -/
  strict : Option Bool := none
  identifier : Option String := none
  /-- The buffer starts with a size prefix. -/
  sizePrefixed : Option Bool := none
  expectedVersion : Option Number := none

structure ReaderSettings where
  strict : Bool
  identifier : String
  sizePrefixed : Bool
  /-- An integer, kept as it was given. -/
  expectedVersion : Number
deriving DecidableEq

/-- Fills in the defaults; the identifier is checked before the version. -/
def ReaderOptions.resolve (options : ReaderOptions) : Except ArgumentError ReaderSettings := do
  let identifier := options.identifier.getD Layout.modelIdentifier
  Identifier.check identifier
  let expectedVersion := options.expectedVersion.getD (Number.ofInt Layout.schemaVersion)
  if expectedVersion.toInt?.isNone then throw (.expectedVersion expectedVersion)
  return {
    strict := options.strict.getD false
    identifier
    sizePrefixed := options.sizePrefixed.getD false
    expectedVersion }

end GraphWire

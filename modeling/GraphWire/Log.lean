import GraphWire.Number.Basic
import GraphWire.Text.Level

/-!
# Log records

What a builder or a reader reports about its work.  The records are values that the operations
return; who keeps them, and from which level on, is the caller's choice.
-/

namespace GraphWire

/-- The part of the library that a record comes from. -/
inductive Component where
  | builder
  | reader
deriving DecidableEq, Repr

def Component.name : Component → String
  | builder => "builder"
  | reader => "reader"

inductive Event where
  /-- A builder moved to a larger buffer. -/
  | grown (capacity newCapacity : Nat)
  /-- A builder sealed its buffer. -/
  | finished (bytes vtables : Nat) (identifier : Option String)
  /-- A lenient reader met a schema version other than the expected one. -/
  | versionMismatch (version expected : Number)
  /-- A reader resolved the root table of a model. -/
  | rootResolved (bytes root : Nat) (version : Number)
deriving DecidableEq

namespace Event

def level : Event → LogLevel
  | grown .. | finished .. | rootResolved .. => .debug
  | versionMismatch .. => .warn

def component : Event → Component
  | grown .. | finished .. => .builder
  | versionMismatch .. | rootResolved .. => .reader

def message : Event → String
  | grown .. => "builder buffer grown"
  | finished .. => "buffer finished"
  | versionMismatch .. => "schema version mismatch; reading known fields only"
  | rootResolved .. => "model root resolved"

def kept (threshold : LogLevel) (events : List Event) : List Event :=
  events.filter fun event => threshold.admits event.level

end Event

/-- The name that the library's own log goes by. -/
def logName : String := "graphbuf"

end GraphWire

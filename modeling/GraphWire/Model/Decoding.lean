import GraphWire.Log
import GraphWire.Model.Encoding
import GraphWire.Model.Validation
import GraphWire.Model.View
import GraphWire.Options

/-!
# Decoding models

`ModelView.open` finds the root of a buffer and checks what its caller asked for; everything else is
checked when a field is read.  `Model.decode` reads the whole model.
-/

namespace GraphWire

/-- Why the root of a model could not be had. -/
inductive ReadError where
  | argument (cause : ArgumentError)
  | malformed (cause : Malformed)
  /-- The identifier is missing or differs from the expected one. -/
  | identifier (expected : String) (actual : Option String)
  | version (expected actual : Number)
deriving DecidableEq

namespace ReadError

def message : ReadError → String
  | argument cause => cause.message
  | malformed cause => cause.message
  | identifier expected none => s!"Expected file identifier '{expected}', found none."
  | identifier expected (some actual) =>
      s!"Expected file identifier '{expected}', found '{actual}'."
  | version expected actual =>
      s!"Model schemaVersion {actual} does not match expected version {expected}."

end ReadError

inductive DecodeError where
  | read (error : ReadError)
  | validation (error : ValidationError)
deriving DecidableEq

def DecodeError.message : DecodeError → Utf16
  | read error => error.message
  | validation error => error.message

def hasModelIdentifier (window : Window) (sizePrefixed : Bool) : Bool :=
  window.hasIdentifier Layout.modelIdentifier sizePrefixed

namespace ReaderSettings

/-- The bytes that belong to the buffer: all of them, or those that its size prefix declares. -/
def frame (settings : ReaderSettings) (window : Window) : Except ReadError Window :=
  if settings.sizePrefixed then window.frame.mapError .malformed else .ok window

/-- Refuses an identifier other than the expected one, if the reader is strict. -/
def checkIdentifier (settings : ReaderSettings) (actual : Option String) : Except ReadError Unit :=
  if settings.strict ∧ actual ≠ some settings.identifier then
    .error (.identifier settings.identifier actual)
  else .ok ()

/-- Refuses a version other than the expected one, if the reader is strict.  A lenient reader logs
it. -/
def checkVersion (settings : ReaderSettings) (version : Number) :
    Except ReadError (List Event) :=
  if version.equals settings.expectedVersion then .ok []
  else if settings.strict then .error (.version settings.expectedVersion version)
  else .ok [.versionMismatch version settings.expectedVersion]

end ReaderSettings

/-- The root of a model under checked settings, with the records logged. -/
def ModelView.openWith (window : Window) (settings : ReaderSettings) :
    Except ReadError (ModelView × List Event) := do
  let window ← settings.frame window
  settings.checkIdentifier (window.identifier? settings.sizePrefixed)
  let root ← (window.rootTable settings.sizePrefixed).mapError .malformed
  let view : ModelView := ⟨⟨window, (root : Number)⟩⟩
  let version ← view.schemaVersion.mapError .malformed
  let mismatch ← settings.checkVersion version
  return (view, mismatch ++ [.rootResolved window.length root version])

def ModelView.open (window : Window) (options : ReaderOptions) :
    Except ReadError (ModelView × List Event) := do
  let settings ← options.resolve.mapError .argument
  ModelView.openWith window settings

structure DecodeOptions extends ReaderOptions where
  /-- Refuse a model with an issue. -/
  validate : Option Bool := none

/-- The model below a view, validated if asked for. -/
def ModelView.decode (view : ModelView) (validate : Bool) : Except DecodeError Model := do
  let model ← view.unpack.mapError fun cause => .read (.malformed cause)
  if validate then model.checkValid.mapError .validation
  return model

def Model.decode (window : Window) (options : DecodeOptions) : Logged DecodeError Model :=
  match ModelView.open window options.toReaderOptions with
  | .error error => ⟨[], .error (.read error)⟩
  | .ok (view, events) => ⟨events, view.decode (options.validate.getD false)⟩

end GraphWire

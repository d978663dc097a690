/-!
# Levels of log records

The levels are ordered by severity.  A setting names a level in any letter case and with blanks
around it; a setting that names none means `warn`.
-/

namespace GraphWire

/-- A level of log records, or as a threshold the least level that is kept. -/
inductive LogLevel where
  | fatal | error | warn | info | debug | trace | silent
deriving DecidableEq, Repr

namespace LogLevel

/-- All levels, from the most severe on; `silent` is a threshold above all of them. -/
def all : List LogLevel := [fatal, error, warn, info, debug, trace, silent]

def name : LogLevel → String
  | fatal => "fatal"
  | error => "error"
  | warn => "warn"
  | info => "info"
  | debug => "debug"
  | trace => "trace"
  | silent => "silent"

def severity : LogLevel → Nat
  | trace => 1
  | debug => 2
  | info => 3
  | warn => 4
  | error => 5
  | fatal => 6
  | silent => 7

/-- Whether records of a level are kept under a threshold. -/
def admits (threshold level : LogLevel) : Bool :=
  threshold.severity ≤ level.severity

def ofName? (name : String) : Option LogLevel :=
  all.find? fun level => level.name == name

/-- The characters that may surround a setting: the Unicode space separators, the ASCII controls
that lay out text, the line and paragraph separators and the byte order mark. -/
def isBlank (character : Char) : Bool :=
  let code := character.toNat
  (0x9 ≤ code && code ≤ 0xD) || code == 0x20 || code == 0xA0 || code == 0x1680
    || (0x2000 ≤ code && code ≤ 0x200A) || code == 0x2028 || code == 0x2029 || code == 0x202F
    || code == 0x205F || code == 0x3000 || code == 0xFEFF

def trim (text : String) : String :=
  let front := text.toList.dropWhile isBlank
  String.ofList (front.reverse.dropWhile isBlank).reverse

/-- The level that a setting asks for.  Folding ASCII letters alone is enough: of the other
characters only the Kelvin sign has an ASCII lower-case form, and no level has the letter k. -/
def ofSetting (setting : Option String) : LogLevel :=
  match setting with
  | none => warn
  | some text => (ofName? ((trim text).map Char.toLower)).getD warn

end LogLevel

end GraphWire

/-
Scaffold/Run/Event.lean

What a run reports while it works.

An event has a level, a message and named fields.  A field is shown as it is,
shown in quotation marks, or is a number or a flag; `Event.line` writes an
event on one line, on which a message cannot steer the terminal.
-/
import Scaffold.Document
import Scaffold.Path.Basic
import Scaffold.Text.Quoted

namespace Scaffold

/-- How important an event is. -/
inductive Level where
  | debug
  | info
  | warn
deriving DecidableEq, Repr

namespace Level

def name : Level → String
  | debug => "DEBUG"
  | info => "INFO"
  | warn => "WARN"

/-- Whether an event of this level is reported when the threshold is `threshold`. -/
def reaches (threshold : Level) : Level → Bool
  | warn => true
  | info => threshold != warn
  | debug => threshold == debug

end Level

/-- The value of an event's field. -/
inductive FieldValue where
  | shown (s : String)
  | quoted (s : String)
  | count (n : Nat)
  | flag (b : Bool)
deriving DecidableEq, Repr

def FieldValue.text : FieldValue → String
  | shown s => s
  | quoted s => Text.quoted s
  | count n => ToString.toString n
  | flag b => if b then "true" else "false"

def FieldValue.toJson : FieldValue → Json
  | shown s => .string s
  | quoted s => .string s
  | count n => .nat n
  | flag b => .bool b

inductive Event where
  | settingsLoaded (document : Path)
  | globCompiled (pattern expression : String)
  | settingsUsed (document : Path)
  | destinationExists (source : Path)
  | extracted (source : Path) (functions classes exports : Nat)
  | defaultIgnored (d : IgnoredDefault)
  | generated (source destination : Path)
  | failed (source : Path) (message : String)
  | finished (generated skipped failed : Nat) (dryRun : Bool)
deriving DecidableEq, Repr

namespace Event

def level : Event → Level
  | settingsLoaded _ | globCompiled .. | destinationExists _ | extracted .. | generated .. => .debug
  | settingsUsed _ | finished .. => .info
  | defaultIgnored _ | failed .. => .warn

def message : Event → String
  | settingsLoaded _ => "loaded config"
  | globCompiled pattern expression =>
    "glob `Glob(" ++ Text.quoted pattern ++ ")` converted to regex: `" ++ Text.quoted expression ++ "`"
  | settingsUsed _ => "using config"
  | destinationExists _ => "destination exists, skipping"
  | extracted .. => "extracted"
  | defaultIgnored _ => "multiple default exports; keeping the first"
  | generated .. => "generated"
  | failed _ message => message
  | finished .. => "run complete"

def fields : Event → List (String × FieldValue)
  | settingsLoaded document | settingsUsed document => [("config", .shown document.toString)]
  | globCompiled .. => []
  | destinationExists source => [("source", .shown source.toString)]
  | extracted source functions classes exports =>
    [("source", .shown source.toString), ("functions", .count functions),
      ("classes", .count classes), ("exports", .count exports)]
  | defaultIgnored d =>
    [("import_path", .quoted d.importPath), ("kept", .quoted d.kept), ("ignored", .shown d.ignored)]
  | generated source destination =>
    [("source", .shown source.toString), ("destination", .shown destination.toString)]
  | failed source _ => [("source", .shown source.toString)]
  | finished made kept lost dryRun =>
    [("generated", .count made), ("skipped", .count kept), ("failed", .count lost),
      ("dry_run", .flag dryRun)]

/-- One character of a message on a line.  The control characters a terminal acts on are written
as escapes. -/
def messageChar (c : Char) : List Char :=
  let n := c.toNat
  if n = 0x07 ∨ n = 0x08 ∨ n = 0x0C ∨ n = 0x1B ∨ n = 0x7F then
    '\\' :: 'x' :: (if n < 0x10 then ['0'] else []) ++ Text.hexadecimal n
  else if 0x80 ≤ n ∧ n ≤ 0x9F then
    ['\\', 'u', '{'] ++ Text.hexadecimal n ++ ['}']
  else [c]

/-- A message on a line. -/
def messageText (s : String) : String := String.ofList (s.toList.flatMap messageChar)

def line (e : Event) : String :=
  " ".intercalate
    ([e.level.name, messageText e.message] ++ e.fields.map fun (k, v) => k ++ "=" ++ v.text)

example : messageText "\x1b[31m\t" = "\\x1b[31m\t" := by decide +kernel

def toJson (e : Event) : Json :=
  .object ([("level", .string e.level.name), ("message", .string e.message)]
    ++ e.fields.map fun (k, v) => (k, v.toJson))

end Event

end Scaffold

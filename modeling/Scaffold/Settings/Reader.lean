/-
Scaffold/Settings/Reader.lean

Settings from JSON.

Settings are written as an object, whose members are taken in the order they
come in, or as an array of the values in the order of the fields, where the
last ones may be left out.  `null` leaves a value unset; only the list of
exclude patterns cannot be `null`.

The first thing wrong is reported (`ShapeError`): a value of another type than
the field wants, a member no field has, or too many values in an array.
-/
import Scaffold.Settings.Basic
import Scaffold.Number.Shortest
import Scaffold.Text.Quoted

namespace Scaffold

/-! ### Fields -/

inductive Field where
  | src
  | output
  | pattern
  | framework
  | overwrite
  | onlyMissing
  | exclude
deriving DecidableEq, Repr

namespace Field

def all : List Field := [src, output, pattern, framework, overwrite, onlyMissing, exclude]

def key : Field → String
  | src => "src"
  | output => "output"
  | pattern => "pattern"
  | framework => "framework"
  | overwrite => "overwrite"
  | onlyMissing => "only_missing"
  | exclude => "exclude"

def ofKey? (key : String) : Option Field := all.find? (fun f => f.key == key)

end Field

/-! ### Errors -/

/-- What a place in a settings document wants. -/
inductive Wanted where
  | settings
  | path
  | text
  | truth
  | list
deriving DecidableEq, Repr

def Wanted.phrase : Wanted → String
  | settings => "struct TestsmithConfig"
  | path => "path string"
  | text => "a string"
  | truth => "a boolean"
  | list => "a sequence"

/-- A value that was found instead, in words. -/
def Json.phrase : Json → String
  | .null => "null"
  | .bool b => "boolean `" ++ (if b then "true" else "false") ++ "`"
  | .int n => "integer `" ++ ToString.toString n ++ "`"
  | .float x => "floating point `" ++ x.text ++ "`"
  | .string s => "string " ++ Text.quoted s
  | .array _ => "sequence"
  | .object _ => "map"

/-- Why a JSON value is no settings. -/
inductive ShapeError where
  | wrongType (found : Json) (wanted : Wanted)
  | unknownField (key : String)
  | tooMany (count : Nat)

def ShapeError.message : ShapeError → String
  | wrongType found wanted => "invalid type: " ++ found.phrase ++ ", expected " ++ wanted.phrase
  | unknownField key =>
    "unknown field `" ++ key ++ "`, expected one of "
      ++ ", ".intercalate (Field.all.map fun f => "`" ++ f.key ++ "`")
  | tooMany count =>
    "invalid length " ++ ToString.toString count ++ ", expected fewer elements in array"

/-! ### Values -/

namespace Json

/-- A text, or nothing for `null`. -/
def text? (wanted : Wanted) : Json → Except ShapeError (Option String)
  | .null => .ok none
  | .string s => .ok (some s)
  | v => .error (.wrongType v wanted)

/-- A truth value, or nothing for `null`. -/
def truth? : Json → Except ShapeError (Option Bool)
  | .null => .ok none
  | .bool b => .ok (some b)
  | v => .error (.wrongType v .truth)

def textItems : List Json → Except ShapeError (List String)
  | [] => .ok []
  | .string s :: vs =>
    match textItems vs with
    | .ok ss => .ok (s :: ss)
    | .error e => .error e
  | v :: _ => .error (.wrongType v .text)

def texts : Json → Except ShapeError (List String)
  | .array vs => textItems vs
  | v => .error (.wrongType v .list)

end Json

namespace Settings

/-- The settings with one field read from a value. -/
def read (s : Settings) (f : Field) (v : Json) : Except ShapeError Settings :=
  match f with
  | .src => (v.text? .path).map fun x => { s with src := x }
  | .output => (v.text? .path).map fun x => { s with output := x }
  | .pattern => (v.text? .text).map fun x => { s with pattern := x }
  | .framework => (v.text? .text).map fun x => { s with framework := x }
  | .overwrite => v.truth?.map fun x => { s with overwrite := x }
  | .onlyMissing => v.truth?.map fun x => { s with onlyMissing := x }
  | .exclude => v.texts.map fun x => { s with exclude := x }

/-- Settings read from members. -/
def readMembers : Settings → List (String × Json) → Except ShapeError Settings
  | s, [] => .ok s
  | s, (k, v) :: rest =>
    match Field.ofKey? k with
    | none => .error (.unknownField k)
    | some f =>
      match s.read f v with
      | .ok s' => readMembers s' rest
      | .error e => .error e

/-- Settings read from the values of fields in order. -/
def readItems : Settings → List (Field × Json) → Except ShapeError Settings
  | s, [] => .ok s
  | s, (f, v) :: rest =>
    match s.read f v with
    | .ok s' => readItems s' rest
    | .error e => .error e

def ofJson : Json → Except ShapeError Settings
  | .object members => readMembers unset members
  | .array items =>
    match readItems unset (Field.all.zip items) with
    | .ok s => if Field.all.length < items.length then .error (.tooMany items.length) else .ok s
    | .error e => .error e
  | v => .error (.wrongType v .settings)

def toJson (s : Settings) : Json :=
  .object [("src", .orNull .string s.src), ("output", .orNull .string s.output),
    ("pattern", .orNull .string s.pattern), ("framework", .orNull .string s.framework),
    ("overwrite", .orNull .bool s.overwrite), ("only_missing", .orNull .bool s.onlyMissing),
    ("exclude", .strings s.exclude)]

end Settings

end Scaffold

/-
Scaffold/Settings/Location.lean

Where settings come from.

A project's settings stand in one of three documents in its root, tried in
order (`settingsLocations`); of the last one only a section counts, and a
document without that section is passed over.  The first document that is
there decides: when it is wrong, the others are not looked at.

Paths are those of a program that runs in a directory `here`, the root of the
file system unless it is said otherwise: what a path leads to is looked for from
there (`here.join`), and errors and reports show the path as it is.  Only the
project's own documents are in its root; a document that is given is where its
path says, whatever the root is.

`Failure` lists what can stop a run before it begins, and `Failure.chain` puts
one into words, the outermost first.
-/
import Scaffold.FileTree.Lookup
import Scaffold.Json.Reader
import Scaffold.Settings.Reader
import Scaffold.Settings.Resolved

namespace Scaffold

/-! ### Failures -/

/-- What stops a run before any source is looked at. -/
inductive Failure where
  | missingSourceRoot (root : Path)
  | invalidSettings (cause : SettingsError)
  | unreadableDocument (document : Path) (cause : IoError)
  | notJson (document : Path)
  | wrongShape (document : Path) (cause : ShapeError)
  | invalidDocument (document : Path) (cause : SettingsError)

namespace Failure

/-- What went wrong, in words, from the outermost to the innermost cause. -/
def chain : Failure → List String
  | missingSourceRoot root => ["source root does not exist: " ++ root.toString]
  | invalidSettings cause => cause.chain
  | unreadableDocument document cause =>
    ["failed to read config file: " ++ document.toString, cause.message]
  | notJson document => ["failed to parse config file: " ++ document.toString]
  | wrongShape document cause => ["invalid config in: " ++ document.toString, cause.message]
  | invalidDocument document cause => ("invalid config in: " ++ document.toString) :: cause.chain

end Failure

/-! ### Documents -/

/-- The documents settings are looked for in, with the section that holds them if they are not the
whole document. -/
def settingsLocations : List (String × Option String) :=
  [(".testsmithrc.json", none), ("testsmith.config.json", none), ("package.json", some "testsmith")]

/-- The JSON value in a document; `shown` is the path an error shows. -/
def readDocument (t : FileTree) (p shown : Path) : Except Failure Json :=
  match t.readText p with
  | .error e => .error (.unreadableDocument shown e)
  | .ok text =>
    match Json.parse text with
    | some v => .ok v
    | none => .error (.notJson shown)

/-- Valid settings from a JSON value; `shown` is the path an error shows. -/
def checkedSettings (v : Json) (shown : Path) : Except Failure Settings :=
  match Settings.ofJson v with
  | .error e => .error (.wrongShape shown e)
  | .ok s =>
    match s.validate with
    | .error e => .error (.invalidDocument shown e)
    | .ok () => .ok s

def loadDocument (t : FileTree) (p shown : Path) : Except Failure Settings :=
  match readDocument t p shown with
  | .error e => .error e
  | .ok v => checkedSettings v shown

/-- The settings of the first location that has any, and where they are. -/
def discoverIn (t : FileTree) (here root : Path) :
    List (String × Option String) → Except Failure (Option (Settings × Path))
  | [] => .ok none
  | (name, key) :: others =>
    let p := root.join (Path.ofString name)
    if t.isFile (here.join p) then
      match readDocument t (here.join p) p with
      | .error e => .error e
      | .ok document =>
        let settings :=
          match key with
          | none => some document
          | some key => document.member? key
        match settings with
        | none => discoverIn t here root others
        | some v => (checkedSettings v p).map fun s => some (s, p)
    else discoverIn t here root others

/-- The settings of a project, and the document they are in. -/
def discoverSettings (t : FileTree) (root : Path) (here : Path := .ofString "/") :
    Except Failure (Option (Settings × Path)) :=
  discoverIn t here root settingsLocations

/-- The settings of a given document, or else those of the project, or else none; and the document
they are in. -/
def loadSettings (t : FileTree) (here root : Path) :
    Option Path → Except Failure (Settings × Option Path)
  | some p => (loadDocument t (here.join p) p).map fun s => (s, some p)
  | none =>
    (discoverSettings t root here).map fun
      | some (s, p) => (s, some p)
      | none => (Settings.unset, none)

/-- Loaded settings with `upper` laid over them, ready for a run. -/
def resolveLoaded (root : Path) (upper : Settings) (loaded : Settings × Option Path) :
    Except Failure Resolved :=
  match (loaded.1.merge upper).resolve root with
  | .error e => .error (.invalidSettings e)
  | .ok r => .ok { r with configPath := loaded.2 }

/-- The settings of a project with `upper` laid over them, ready for a run. -/
def loadAndResolve (t : FileTree) (root : Path) (document : Option Path) (upper : Settings)
    (here : Path := .ofString "/") : Except Failure Resolved :=
  match loadSettings t here root document with
  | .error e => .error e
  | .ok loaded => resolveLoaded root upper loaded

end Scaffold

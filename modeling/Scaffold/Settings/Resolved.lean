/-
Scaffold/Settings/Resolved.lean

Settings ready for a run.

`Settings.validate` checks what can be wrong with settings of the right shape:
the name of the framework, the include pattern, and the exclude patterns, in
this order.  `Settings.resolve` makes a valid layer into a `Resolved`: globs
compiled and put together, roots joined to a base directory, defaults filled
in.  Only there does it show that a glob nests too deeply to be matched.
-/
import Scaffold.Framework
import Scaffold.Glob.Selection
import Scaffold.Glob.Reader
import Scaffold.Path.Basic
import Scaffold.Settings.Basic

namespace Scaffold

/-! ### Errors -/

/-- What a pattern is used for. -/
inductive PatternUse where
  | include
  | exclude
deriving DecidableEq, Repr

def PatternUse.phrase : PatternUse → String
  | .include => "include"
  | .exclude => "exclude"

/-- Why settings are not valid. -/
inductive SettingsError where
  | unknownFramework (name : String)
  | invalidPattern (use : PatternUse) (pattern : String) (cause : GlobError)
  | nestedTooDeep (use : PatternUse) (patterns : List String) (cause : NestingError)
deriving DecidableEq, Repr

/-- What is wrong, in words, followed by its cause if that has words of its own. -/
def SettingsError.chain : SettingsError → List String
  | unknownFramework name =>
    ["unknown framework '" ++ name ++ "' (expected one of: " ++ Framework.knownIds ++ ")"]
  | invalidPattern use pattern cause =>
    withReason use pattern (cause.message pattern)
  | nestedTooDeep use patterns cause =>
    withReason use (", ".intercalate patterns) cause.message
where
  /-- A pattern or several, and what is wrong. -/
  withReason (use : PatternUse) (patterns reason : String) : List String :=
    ["invalid " ++ use.phrase ++ " pattern '" ++ patterns ++ "': " ++ reason, reason]

/-! ### Validation -/

/-- The glob of a pattern, or the error its use makes of it. -/
def compileFor (use : PatternUse) (pattern : String) : Except SettingsError Glob :=
  match Glob.compile pattern with
  | .ok g => .ok g
  | .error e => .error (.invalidPattern use pattern e)

def compileAll (use : PatternUse) : List String → Except SettingsError (List Glob)
  | [] => .ok []
  | p :: ps =>
    match compileFor use p with
    | .error e => .error e
    | .ok g => (compileAll use ps).map (g :: ·)

/-- The globs of several patterns put together. -/
def select (use : PatternUse) (patterns : List String) : Except SettingsError Selection :=
  match compileAll use patterns with
  | .error e => .error e
  | .ok gs =>
    match Selection.ofGlobs gs with
    | .error e => .error (.nestedTooDeep use patterns e)
    | .ok s => .ok s

/-- The framework of a name, the default one without a name. -/
def chooseFramework : Option String → Except SettingsError Framework
  | none => .ok Framework.default
  | some name =>
    match Framework.ofId? name with
    | some f => .ok f
    | none => .error (.unknownFramework name)

/-! ### Resolved settings -/

/-- What to do about a test that exists. -/
inductive WritePolicy where
  | overwrite
  | skipExisting
deriving DecidableEq, Repr

namespace WritePolicy

/-- Tests are kept only when nothing asks to write them again. -/
def ofFlags (overwrite onlyMissing : Bool) : WritePolicy :=
  if overwrite || !onlyMissing then .overwrite else .skipExisting

end WritePolicy

/-- Settings ready for a run. -/
structure Resolved where
  srcRoot : Path
  outputRoot : Path
  /-- What a source has to match, if anything. -/
  included : Option Selection
  /-- What a source must not match. -/
  excluded : Selection
  framework : Framework
  overwrite : Bool
  onlyMissing : Bool
  /-- The document the settings come from, if any. -/
  configPath : Option Path

namespace Resolved

def writePolicy (r : Resolved) : WritePolicy := .ofFlags r.overwrite r.onlyMissing

/-- Whether the globs let a path, relative to the source root, pass. -/
def admits (r : Resolved) (path : List Char) : Bool :=
  !r.excluded.accepts path && r.included.all (fun s => s.accepts path)

end Resolved

namespace Settings

def defaultSrc : String := "src"

def defaultOutput : String := "test"

/-- Checks the framework, the include pattern and the exclude patterns, in this order. -/
def validate (s : Settings) : Except SettingsError Unit := do
  if let some name := s.framework then
    if (Framework.ofId? name).isNone then throw (.unknownFramework name)
  if let some pattern := s.pattern then
    let _ ← compileFor .include pattern
  checkAll s.exclude
where
  /-- Checks exclude patterns. -/
  checkAll : List String → Except SettingsError Unit
    | [] => pure ()
    | p :: ps => do
      let _ ← compileFor .exclude p
      checkAll ps

/-- What the include pattern of the settings matches, if they have one. -/
def inclusion (s : Settings) : Except SettingsError (Option Selection) :=
  match s.pattern with
  | none => pure none
  | some pattern => some <$> select .include [pattern]

/-- The general globs among some patterns. -/
def generalGlobs (use : PatternUse) (patterns : List String) : List Glob :=
  match compileAll use patterns with
  | .ok gs => gs.filter (fun g => g.kind == .general)
  | .error _ => []

/-- The general globs that `resolve` compiles, in order: those of the include pattern, and of the
exclude patterns if it gets to them. -/
def compiledGlobs (s : Settings) : List Glob :=
  let included := generalGlobs .include s.pattern.toList
  match s.validate, s.inclusion with
  | .error _, _ => []
  | .ok (), .error _ => included
  | .ok (), .ok _ => included ++ generalGlobs .exclude s.exclude

/-- Valid settings compiled and completed, their roots joined to a base directory. -/
def resolve (s : Settings) (base : Path) : Except SettingsError Resolved := do
  s.validate
  let included ← s.inclusion
  let excluded ← select .exclude s.exclude
  let framework ← chooseFramework s.framework
  return {
    srcRoot := base.join (Path.ofString (s.src.getD defaultSrc))
    outputRoot := base.join (Path.ofString (s.output.getD defaultOutput))
    included
    excluded
    framework
    overwrite := s.overwrite.getD false
    onlyMissing := s.onlyMissing.getD true
    configPath := none }

end Settings

end Scaffold

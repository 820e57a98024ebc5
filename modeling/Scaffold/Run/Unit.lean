/-
Scaffold/Run/Unit.lean

One source of a run.

`processUnit` reads a source, writes its test document and says what became of
it (`Outcome`).  A test that exists is kept if the policy says so, before the
source is even read.  A document is written to a temporary file beside its
destination and moved over it, so a destination holds either what it held
before or the whole document; when that fails, the temporary file is removed
again.  A dry run stops before anything is written.
-/
import Scaffold.Document
import Scaffold.Extraction
import Scaffold.FileTree.Change
import Scaffold.Path.Destination
import Scaffold.Run.Event
import Scaffold.Settings.Resolved

namespace Scaffold

/-! ### Errors and outcomes -/

/-- Why a source could not be processed. -/
inductive UnitError where
  | read (path : Path) (cause : IoError)
  | makeDirectory (path : Path) (cause : IoError)
  | write (path : Path) (cause : IoError)
deriving DecidableEq, Repr

namespace UnitError

def path : UnitError → Path
  | read p _ | makeDirectory p _ | write p _ => p

/-- What the file system said. -/
def cause : UnitError → IoError
  | read _ e | makeDirectory _ e | write _ e => e

/-- What could not be done. -/
def action : UnitError → String
  | read .. => "failed to read "
  | makeDirectory .. => "failed to create directory "
  | write .. => "failed to write "

/-- What went wrong, in words. -/
def message (e : UnitError) : String :=
  e.action ++ e.path.toString ++ ": " ++ e.cause.message

def chain (e : UnitError) : List String := [e.message, e.cause.message]

end UnitError

/-- What became of a source. -/
inductive Outcome where
  | generated (source destination : Path)
  | skipped (source destination : Path)
  | failed (error : UnitError)
deriving DecidableEq, Repr

/-! ### Reading a source -/

/-- The outline of the file at a path; `shown` is the path an error shows. -/
def analyzeFile (t : FileTree) (p shown : Path) : Except UnitError Outline :=
  match t.readText p with
  | .ok text => .ok (extract text)
  | .error e => .error (.read shown e)

/-- The test document of a source, and what there is to report about it. -/
def renderUnit (t : FileTree) (r : Resolved) (source destination : Path) :
    Except UnitError (String × List Event) :=
  match analyzeFile t source source with
  | .error e => .error e
  | .ok o =>
    let way := importPath destination source
    let name := String.ofList (source.stem.getD [])
    let counts : Event :=
      .extracted source o.functions.length o.classes.length o.exports.length
    .ok (document r.framework o way name,
      counts :: (o.ignoredDefaults way).map Event.defaultIgnored)

/-! ### Writing a document -/

/-- The temporary file a document is written to. -/
def temporaryPath (p : Path) : Path := p.withFileName (p.fileName.getD [] ++ ".tmp".toList)

/-- Writes a document to a path, by way of a temporary file. -/
def replaceFile (t : FileTree) (p : Path) (contents : ByteArray) :
    FileTree × Except UnitError Unit :=
  let temporary := temporaryPath p
  let cleaned (t : FileTree) : FileTree :=
    match t.removeFile temporary with
    | .ok t' => t'
    | .error _ => t
  match t.writeFile temporary contents with
  | .error e => (cleaned t, .error (.write p e))
  | .ok t₁ =>
    match t₁.move temporary p with
    | .error e => (cleaned t₁, .error (.write p e))
    | .ok t₂ => (t₂, .ok ())

/-- Writes a document to a path, and makes the directories above it. -/
def writeDocument (t : FileTree) (p : Path) (text : String) : FileTree × Except UnitError Unit :=
  match p.parent with
  | none => replaceFile t p text.toUTF8
  | some above =>
    match t.makeDirectories above with
    | (t', .error e) => (t', .error (.makeDirectory above e))
    | (t', .ok ()) => replaceFile t' p text.toUTF8

/-! ### Processing -/

/-- The state after a source, what became of it, and what there is to report. -/
structure UnitResult where
  tree : FileTree
  outcome : Outcome
  events : List Event

/-- The result of a source that failed. -/
def UnitResult.ofError (t : FileTree) (source : Path) (events : List Event) (e : UnitError) :
    UnitResult :=
  ⟨t, .failed e, events ++ [.failed source e.message]⟩

/-- Processes one source. -/
def processUnit (r : Resolved) (policy : WritePolicy) (dryRun : Bool) (t : FileTree)
    (source : Path) : UnitResult :=
  let target := destination source r.srcRoot r.outputRoot
  if policy = .skipExisting ∧ t.exists? target then
    ⟨t, .skipped source target, [.destinationExists source]⟩
  else
    match renderUnit t r source target with
    | .error e => .ofError t source [] e
    | .ok (text, events) =>
      let done (t' : FileTree) : UnitResult :=
        ⟨t', .generated source target, events ++ [.generated source target]⟩
      if dryRun then done t
      else
        match writeDocument t target text with
        | (t', .ok ()) => done t'
        | (t', .error e) => .ofError t' source events e

end Scaffold

/-
Scaffold/Main.lean

The command line.

A call works on a value that stands for the file system (`FileTree`), so this
module is what connects the two: `snapshot` reads the part of the system that a
call looks at, and `store` writes back what the call has changed.  Everything
in between is `Options.execute`.

Design.  The settings say where the sources are, and the sources say which
tests matter, so a snapshot is taken in three steps, each after a look at the
one before: the documents with settings, everything below the source root, and
the ways to the tests.  Nothing else is read.
-/
import Scaffold.CommandLine.Program

namespace Scaffold

namespace Snapshot

/-! ### Reading the system -/

/-- A place as the system writes it. -/
def pathText (place : Place) : String := "/" ++ String.ofList (Path.slashed place)

/-- What kind of thing stands at a place, a link for itself. -/
def kind (place : Place) : IO (Option IO.FS.FileType) := do
  try return some (← ((← IO.currentDir) / pathText place).symlinkMetadata).type
  catch _ => return none

def names (place : Place) : IO (List (List Char)) := do
  return (← ((← IO.currentDir) / pathText place).readDir).toList.map (·.fileName.toList)

/-- A path that leads nowhere: no directory has the name it goes through. -/
def nowhere : Path := ⟨[Char.ofNat 0, '/', '.']⟩

/-- Where a link leads in the end.  One that runs in a circle leads to itself. -/
def linkTarget (place : Place) : IO Path := do
  try return Path.ofString (← IO.FS.realPath (pathText place)).toString
  catch _ =>
    try
      let _ ← ((← IO.currentDir) / pathText place).metadata
      return nowhere
    catch
      | .invalidArgument .. => return Path.ofString (pathText place)
      | _ => return nowhere

def addFile (t : FileTree) (place : Place) : IO FileTree := do
  return t.put place (.file (← IO.FS.readBinFile (pathText place)))

/-- A tree with what some steps from a place lead past and to. -/
def addSteps (t : FileTree) (links : Nat) (here : Place) : List (List Char) → IO FileTree
  | [] => return t
  | step :: rest => do
    if step = ['.'] ∨ step = [] then addSteps t links here rest
    else if step = ['.', '.'] then addSteps t links here.dropLast rest
    else
      let place := here ++ [step]
      match ← kind place with
      | none => return t
      | some .dir => addSteps (t.put place .directory) links place rest
      | some .symlink =>
        let target ← linkTarget place
        let t := t.put place (.link target)
        match links with
        | links + 1 => addSteps t links [] (target.steps ++ rest)
        | 0 => return t
      | some _ => addFile t place
termination_by steps => (links, steps.length)

/-- A tree with what a path leads past and to. -/
def addPath (t : FileTree) (p : Path) : IO FileTree := addSteps t FileTree.maxLinks [] p.steps

/-- A tree with the sources below a directory, at most `depth` directories down. -/
def addSources (t : FileTree) : (depth : Nat) → Place → IO FileTree
  | 0, _ => return t
  | depth + 1, here => do
    (← names here).foldlM (fun t name => do
      let place := here ++ [name]
      match ← kind place with
      | some .dir =>
        let t := t.put place .directory
        if isSkippedDirectory name then return t else addSources t depth place
      | some .file => if isSourceName name then addFile t place else return t
      | _ => return t) t

/-- No path has more steps than this. -/
def maxDepth : Nat := 4096

/-- A tree with the sources of a run, and the tests they have. -/
def addRun (t : FileTree) (r : Resolved) : IO FileTree := do
  let t ← addPath t r.srcRoot
  let t ← match t.locate .target r.srcRoot with
    | .ok (.entry root .directory) => addSources t maxDepth root
    | _ => pure t
  (discoverSources t r).foldlM (fun t source => do
    let target := destination source r.srcRoot r.outputRoot
    addPath (← addPath t target) (temporaryPath target)) t

end Snapshot

/-- The part of the file system that a call in the directory `here` looks at. -/
def snapshot (o : Options) (here : Path) : IO FileTree := do
  let t ← Snapshot.addPath .empty here
  match o.value? .dumpModel with
  | some file => Snapshot.addPath t (here.join (Path.ofString file))
  | none =>
    let document := (o.value? .config).map Path.ofString
    let candidates : List Path := match document with
      | some p => [p]
      | none => settingsLocations.map (fun l => Path.ofString l.1)
    let t ← candidates.foldlM (fun t p => Snapshot.addPath t (here.join p)) t
    match loadAndResolve t here document o.overrides here with
    | .ok r => Snapshot.addRun t r
    | .error _ => return t

/-! ### Writing the system -/

/-- Puts an entry where it is not yet.  A file is moved to its place when it is complete. -/
def storeEntry (place : Place) : Entry → IO Unit
  | .directory => IO.FS.createDir (Snapshot.pathText place)
  | .file contents => do
    let p := Snapshot.pathText place
    let temporary := (temporaryPath (Path.ofString p)).toString
    IO.FS.writeBinFile temporary contents
    IO.FS.rename temporary p
  | .link _ => return

/-- Writes what changed between two states of the file system, directories before what is in
them. -/
def store (before after : FileTree) : IO Unit := do
  for (place, _) in before.entries do
    if (after.get? place).isNone then IO.FS.removeFile (Snapshot.pathText place)
  for (place, e) in after.entries.mergeSort (fun a b => a.1.length ≤ b.1.length) do
    if before.get? place ≠ some e then storeEntry place e

/-- Does what the options say, and returns the exit code. -/
def call (o : Options) : IO UInt32 := do
  let here := Path.ofString (← IO.currentDir).toString
  let before ← snapshot o here
  let report := o.execute before here
  store before report.tree
  for e in report.events do
    IO.eprintln e.line
  IO.print report.output
  IO.eprint report.error
  return report.exitCode.toUInt32

end Scaffold

/-- Reads the options and does what they say. -/
def main (arguments : List String) : IO UInt32 := do
  match Scaffold.Options.parse arguments with
  | .ok o => Scaffold.call o
  | .error e =>
    IO.eprintln ("error: " ++ e.message)
    return 2

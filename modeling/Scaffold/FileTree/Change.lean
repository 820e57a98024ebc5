/-
Scaffold/FileTree/Change.lean

Changing a file system.

The operations a run needs: making a directory, alone or with all directories
above it, creating or replacing the contents of a file, moving an entry over
another, and removing a file.  Each one either returns the changed tree or
fails and changes nothing, with one exception: making several directories may
fail after it has made some of them, so `makeDirectories` returns the tree it
leaves in either case.
-/
import Scaffold.FileTree.Lookup

namespace Scaffold

open Text

namespace FileTree

def makeDirectory (t : FileTree) (p : Path) : Except IoError FileTree :=
  match t.locate .itself p with
  | .error e => .error e
  | .ok (.entry _ _) => .error .alreadyExists
  | .ok (.free place) => .ok (t.put place .directory)

/-- Makes one directory, and is content with one that is there. -/
def ensureDirectory (t : FileTree) (p : Path) : FileTree × Except IoError Unit :=
  match t.makeDirectory p with
  | .ok t' => (t', .ok ())
  | .error e => (t, if t.isDirectory p then .ok () else .error e)

/-- Makes a directory and the ones above it, at most `n` of those. -/
def makeDirectoriesUpTo : Nat → FileTree → Path → FileTree × Except IoError Unit
  | 0, t, p => t.ensureDirectory p
  | n + 1, t, p =>
    if p.chars.isEmpty then (t, .ok ())
    else
      match t.makeDirectory p, p.parent with
      | .error .notFound, some above =>
        match makeDirectoriesUpTo n t above with
        | (t', .ok ()) => t'.ensureDirectory p
        | (t', .error e) => (t', .error e)
      | _, _ => t.ensureDirectory p

/-- Makes a directory and all directories above it that are missing. -/
def makeDirectories (t : FileTree) (p : Path) : FileTree × Except IoError Unit :=
  makeDirectoriesUpTo (p.chars.length + 1) t p

/-- Gives a file new contents, and makes it if it is missing. -/
def writeFile (t : FileTree) (p : Path) (contents : ByteArray) : Except IoError FileTree :=
  match t.locate .writing p with
  | .error e => .error e
  | .ok (.entry place (.file _)) => .ok (t.put place (.file contents))
  | .ok (.entry _ _) => .error .isDirectory
  | .ok (.free place) => .ok (t.put place (.file contents))

/-- Moves a file over another place.  A slash at the end of the target asks for a directory, which
a file is not. -/
def move (t : FileTree) (source target : Path) : Except IoError FileTree :=
  if target.chars.getLast? = some '/' then
    match t.locate .itself source, t.locate .itself ⟨dropEndWhile (· == '/') target.chars⟩ with
    | .error e, _ => .error e
    | _, .error e => .error e
    | .ok (.free _), _ => .error .notFound
    | .ok (.entry _ _), _ => .error .notDirectory
  else
    match t.locate .itself source, t.locate .itself target with
    | .error e, _ => .error e
    | _, .error e => .error e
    | .ok (.free _), _ => .error .notFound
    | .ok (.entry _ _), .ok (.entry _ .directory) => .error .isDirectory
    | .ok (.entry place e), .ok (.entry place' _) => .ok ((t.erase place).put place' e)
    | .ok (.entry place e), .ok (.free place') => .ok ((t.erase place).put place' e)

def removeFile (t : FileTree) (p : Path) : Except IoError FileTree :=
  match t.locate .itself p with
  | .error e => .error e
  | .ok (.free _) => .error .notFound
  | .ok (.entry _ .directory) => .error .isDirectory
  | .ok (.entry place _) => .ok (t.erase place)

end FileTree

end Scaffold

/-
Scaffold/FileTree/Lookup.lean

From a path to what it leads to.

A path is followed step by step (`Path.steps`).  Every step but a link needs a
directory to start from; `.` stays, `..` goes up, and a name goes down.  A
symbolic link on the way is replaced by its target; what happens to one at the
end depends on what the look-up is for (`Purpose`).  At most `maxLinks` links
are followed, a name must not be longer than `maxName` bytes, and a path must
be shorter than `maxPath` bytes.

A look-up ends at an entry, or at a free place in an existing directory
(`Located`), or fails for one of the reasons of `IoError`.
-/
import Scaffold.FileTree.Basic

namespace Scaffold

open Text

/-- Why an operation on the file system fails. -/
inductive IoError where
  | notFound
  | alreadyExists
  | notDirectory
  | isDirectory
  | nameTooLong
  | tooManyLinks
  | nulInPath
  | notText
  /-- Anything else, in the words of the system. -/
  | other (reason : String)
deriving DecidableEq, Repr

def IoError.message : IoError → String
  | notFound => "No such file or directory (os error 2)"
  | alreadyExists => "File exists (os error 17)"
  | notDirectory => "Not a directory (os error 20)"
  | isDirectory => "Is a directory (os error 21)"
  | nameTooLong => "File name too long (os error 36)"
  | tooManyLinks => "Too many levels of symbolic links (os error 40)"
  | nulInPath => "file name contained an unexpected NUL byte"
  | notText => "stream did not contain valid UTF-8"
  | other reason => reason

/-- Where a path leads. -/
inductive Located where
  | entry (place : Place) (e : Entry)
  | free (place : Place)

/-- What a look-up is for. -/
inductive Purpose where
  /-- What a path names: a link at its end stands for itself. -/
  | itself
  /-- What a path leads to: a link at its end is followed. -/
  | target
  /-- A file to write: a link at the end of the path is followed, and no file can be written to a
  name with a slash after it. -/
  | writing
deriving DecidableEq, Repr

/-- The steps of a path: its pieces without the empty ones, and an empty step for a slash at the
end, which asks for a directory as a `.` there would. -/
def Path.steps (p : Path) : List (List Char) :=
  let named := (Path.pieces p.chars).filter (fun s => !s.isEmpty)
  if p.chars.getLast? = some '/' then named ++ [[]] else named

namespace FileTree

/-- The longest name, in bytes. -/
def maxName : Nat := 255

/-- The length, in bytes, that a path must stay below. -/
def maxPath : Nat := 4096

/-- The most links that are followed for one path. -/
def maxLinks : Nat := 40

/-- Follows steps from a place.  `expand` goes on from a link: it is given the directory of the
link, the target, and the steps after it. -/
def follow (t : FileTree) (purpose : Purpose)
    (expand : Place → Path → List (List Char) → Except IoError Located) :
    Place → List (List Char) → Except IoError Located
  | here, [] =>
    match t.get? here with
    | some e => .ok (.entry here e)
    | none => .error .notFound
  | here, step :: rest =>
    match t.get? here with
    | some .directory =>
      if step = ['.'] ∨ step = [] then t.follow purpose expand here rest
      else if step = ['.', '.'] then t.follow purpose expand here.dropLast rest
      else if purpose = .writing ∧ rest = [[]] then .error .isDirectory
      else if maxName < byteLength step then .error .nameTooLong
      else
        let next := here ++ [step]
        match t.get? next with
        | none => if rest.isEmpty then .ok (.free next) else .error .notFound
        | some (.link target) =>
          if rest.isEmpty && purpose == .itself then .ok (.entry next (.link target))
          else expand here target rest
        | some _ => t.follow purpose expand next rest
    | some _ => .error .notDirectory
    | none => .error .notFound

/-- Follows steps from a place through at most `links` links. -/
def followLinks (t : FileTree) (purpose : Purpose) :
    (links : Nat) → Place → List (List Char) → Except IoError Located
  | 0, here, steps => t.follow purpose (fun _ _ _ => .error .tooManyLinks) here steps
  | links + 1, here, steps =>
    t.follow purpose
      (fun here target rest =>
        t.followLinks purpose links (if target.isAbsolute then [] else here)
          (target.steps ++ rest))
      here steps

/-- Where an absolute path leads. -/
def locate (t : FileTree) (purpose : Purpose) (p : Path) : Except IoError Located :=
  if p.chars.contains (Char.ofNat 0) then .error .nulInPath
  else if p.chars.isEmpty then .error .notFound
  else if maxPath ≤ byteLength p.chars then .error .nameTooLong
  else t.followLinks purpose maxLinks [] p.steps

/-- What stands at the end of a path, links followed. -/
def entryAt? (t : FileTree) (p : Path) : Option Entry :=
  match t.locate .target p with
  | .ok (.entry _ e) => some e
  | _ => none

def exists? (t : FileTree) (p : Path) : Bool := (t.entryAt? p).isSome

/-- Whether a path leads to a regular file. -/
def isFile (t : FileTree) (p : Path) : Bool := (t.entryAt? p).any Entry.isFile

/-- Whether a path leads to a directory. -/
def isDirectory (t : FileTree) (p : Path) : Bool := (t.entryAt? p).any Entry.isDirectory

def readText (t : FileTree) (p : Path) : Except IoError String :=
  match t.locate .target p with
  | .error e => .error e
  | .ok (.entry _ (.file contents)) =>
    match String.fromUTF8? contents with
    | some s => .ok s
    | none => .error .notText
  | .ok (.entry _ _) => .error .isDirectory
  | .ok (.free _) => .error .notFound

end FileTree

end Scaffold

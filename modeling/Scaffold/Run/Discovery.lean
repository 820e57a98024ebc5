/-
Scaffold/Run/Discovery.lean

The sources a run is about.

The source root is walked (`walk`): directories in which no source is looked
for are not entered, nor is one whose name is no text, and links are not
followed, the root itself excepted.  Of the files met, those count that have a
source's name and a path, relative to the root, that the globs admit.  The
result is in the order of paths, so that the order in which directories list
their entries does not show (`sourcesBelow`).

Every directory below the root can be listed: a walk that fails half-way is
beyond the model.
-/
import Scaffold.FileTree.Listing
import Scaffold.FileTree.Lookup
import Scaffold.Path.Destination
import Scaffold.Settings.Resolved

namespace Scaffold

/-- What is found under a name in a directory; `enter` is what is found in a directory of its own. -/
def foundUnder (enter : FileName → List (List (List Char))) :
    FileName × Entry → List (List (List Char))
  | (.text name, .file _) => [[name]]
  | (.text name, .directory) =>
    if isSkippedDirectory name then [] else (enter (.text name)).map (name :: ·)
  | (.text _, .link _) => []
  -- no source has such a name, and no directory of such a name is entered
  | (.stray .., _) => []

/-- The names that lead from a directory to the files below it, at most `depth` directories
down. -/
def walk (l : Listing) : (depth : Nat) → List FileName → List (List (List Char))
  | 0, _ => []
  | depth + 1, here =>
    (l.children here).flatMap (foundUnder fun name => walk l depth (here ++ [name]))

/-- The names that lead from a place to the files below it. -/
def filesBelow (l : Listing) (root : List FileName) : List (List (List Char)) :=
  walk l (l.entries.length + 1) root

/-- A relative path as globs see it. -/
def globView (names : List (List Char)) : List Char :=
  (Path.slashed names).map (fun c => if c = '\\' then '/' else c)

/-- Whether the file some names lead to is a source of the run. -/
def isSource (r : Resolved) (names : List (List Char)) : Bool :=
  names.getLast?.any isSourceName && r.admits (globView names)

/-- The path some names lead to from a root. -/
def pathBelow (root : Path) (names : List (List Char)) : Path :=
  names.foldl (fun p name => p.join ⟨name⟩) root

/-- The sources below a place in the order of paths, where the source root is that place. -/
def sourcesBelow (l : Listing) (root : List FileName) (r : Resolved) : List Path :=
  (((filesBelow l root).filter (isSource r)).map (pathBelow r.srcRoot)).mergeSort Path.le

/-- The sources below the source root, in the order of paths. -/
def discoverSources (t : FileTree) (r : Resolved) : List Path :=
  match t.locate .target r.srcRoot with
  | .ok (.entry root _) => sourcesBelow t.listing (root.map .text) r
  | _ => []

end Scaffold

/-
Scaffold/Path/Destination.lean

Where the test of a source file goes, and how it finds its source.

`destination` moves a source from the source root to the output root and marks
its name as a test's, unless the name is marked already.  `importPath` is the
way back: the source's path from the directory of the test, without extension,
written so that it is relative to that directory.

Both judge paths by their text alone.  The names that are sources at all, and
the directories no source is looked for in, are decided here too.
-/
import Scaffold.Path.Basic

namespace Scaffold

open Text

/-! ### Names -/

/-- How the stem of a test file ends. -/
def testMarkers : List (List Char) := [".test".toList, ".spec".toList]

def isTestFile (p : Path) : Bool :=
  p.stem.any (fun stem => testMarkers.any (fun marker => marker.isSuffixOf stem))

def sourceExtensions : List (List Char) :=
  ["js", "jsx", "mjs", "cjs", "ts", "tsx", "mts", "cts"].map String.toList

/-- Whether a name is that of a source file: a known extension, and neither a declaration file
nor a test. -/
def isSourceName (name : List Char) : Bool :=
  let p : Path := ⟨name⟩
  !(".d.ts".toList.isSuffixOf name) && !isTestFile p
    && p.extension.any (fun ext => sourceExtensions.contains ext)

/-- The directories, besides hidden ones, that no source is looked for in. -/
def skippedDirectories : List (List Char) :=
  ["node_modules", "dist", "build", "coverage", "__tests__", "__mocks__"].map String.toList

/-- Whether no source is looked for in a directory of this name. -/
def isSkippedDirectory (name : List Char) : Bool :=
  name.head? == some '.' || skippedDirectories.contains name

/-! ### Destinations -/

def testName (p : Path) : Option (List Char) :=
  p.stem.map fun stem =>
    match p.extension with
    | some ext => stem ++ ".test.".toList ++ ext
    | none => stem ++ ".test".toList

/-- What is left of parts after a leading sequence of parts. -/
def partsAfter? (lead ps : List Part) : Option (List Part) :=
  if lead.isPrefixOf ps then some (ps.drop lead.length) else none

/-- The location of a source below the output root: its path below the source root, or its own
path if it is relative and outside, or its name. -/
def relativeSource (source srcRoot : Path) : Path :=
  let normal := source.normalize
  match partsAfter? srcRoot.normalize.parts normal.parts with
  | some rest => Path.ofParts rest
  | none => if normal.isAbsolute then ⟨normal.fileName.getD []⟩ else normal

/-- Where the test of a source goes. -/
def destination (source srcRoot outputRoot : Path) : Path :=
  let target := outputRoot.normalize.join (relativeSource source srcRoot)
  if isTestFile target then target
  else
    match testName target with
    | some name => target.withFileName name
    | none => target

/-! ### Import paths -/

/-- How many parts two sequences have in common at the front. -/
def commonParts : List Part → List Part → Nat
  | a :: as, b :: bs => if a = b then commonParts as bs + 1 else 0
  | _, _ => 0

/-- The way from one place to another: up to the last common place, and down from it. -/
def wayBetween (start target : List Part) : List (List Char) :=
  let n := commonParts start target
  List.replicate (start.length - n) Part.up.text ++ (target.drop n).map Part.text

/-- The path a test imports its source by.  It is marked as relative with `./` unless it begins
with a dot. -/
def importPath (destination source : Path) : String :=
  let start := (destination.parent.getD Path.empty).normalize.parts
  let target := source.dropExtension.normalize.parts
  let way := Path.slashed (wayBetween start target)
  String.ofList (if way.head? = some '.' then way else '.' :: '/' :: way)

end Scaffold

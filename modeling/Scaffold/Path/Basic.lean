/-
Scaffold/Path/Basic.lean

Paths.

A path is kept as it is written, and read as a sequence of parts (`Path.parts`):
the root of an absolute path, `.` at the front of a relative one, `..`, and
names.  Repeated slashes, slashes at the end and every other `.` are written
but not read.

What depends on the reading alone — the order of paths, whether one path leads
another, normalisation — is defined on parts.  What must keep the writing —
joining, the parent, changing the last name — cuts the text around its last
real piece (`Path.splitLast`).

A name ends in an extension when it has a dot that is not its first character;
the last dot decides.

A path is taken to be Unicode text.  A system keeps bytes, and shows what is not
UTF-8 among them in some other way; such a path is beyond the model.
-/
import Scaffold.Text.Basic

namespace Scaffold

open Text

/-- A path as it is written. -/
structure Path where
  chars : List Char
deriving DecidableEq, Repr

/-- One step of a path. -/
inductive Part where
  | root
  | here
  | up
  | name (chars : List Char)
deriving DecidableEq, Repr

namespace Part

/-- How a part is written. -/
def text : Part → List Char
  | root => ['/']
  | here => ['.']
  | up => ['.', '.']
  | name cs => cs

/-- The part a piece between slashes stands for, after the first piece. -/
def ofPiece? (piece : List Char) : Option Part :=
  if piece = [] ∨ piece = ['.'] then none
  else if piece = ['.', '.'] then some up
  else some (name piece)

/-- The key parts are ordered by: names after everything else, and by their characters. -/
def sortKey : Part → List Nat
  | root => [0]
  | here => [1]
  | up => [2]
  | name cs => 3 :: cs.map Char.toNat

end Part

namespace Path

def ofString (s : String) : Path := ⟨s.toList⟩

def toString (p : Path) : String := String.ofList p.chars

def empty : Path := ⟨[]⟩

def isAbsolute (p : Path) : Bool := p.chars.head? == some '/'

/-! ### Reading -/

/-- The pieces of a text between slashes. -/
def pieces (cs : List Char) : List (List Char) := splitWhere (· == '/') cs

/-- The parts of a path. -/
def parts (p : Path) : List Part :=
  match pieces p.chars with
  | [] => []
  | first :: rest =>
    let leading :=
      if p.isAbsolute then [Part.root]
      else if first = ['.'] then [Part.here]
      else (Part.ofPiece? first).toList
    leading ++ rest.filterMap Part.ofPiece?

/-- Pieces with slashes between. -/
def slashed (ps : List (List Char)) : List Char := List.intercalate ['/'] ps

/-- The plainest way to write parts. -/
def ofParts : List Part → Path
  | .root :: ps => ⟨'/' :: slashed (ps.map Part.text)⟩
  | ps => ⟨slashed (ps.map Part.text)⟩

/-- Whether a path comes no later than another: part by part, and a path before those below it. -/
def le (p q : Path) : Bool :=
  !List.lex (q.parts.map Part.sortKey) (p.parts.map Part.sortKey) (List.lex · · Nat.blt)

/-! ### The last piece -/

/-- A piece that is written but not read. -/
def isIdle (piece : List Char) : Bool := piece.isEmpty || piece == ['.']

/-- The text before the last piece that is read, and that piece; nothing for the root and for the
empty path. -/
def splitLast (p : Path) : Option (List Char × List Char) :=
  match pieces p.chars with
  | [] => none
  | first :: rest =>
    match rest.reverse.dropWhile isIdle with
    | last :: before => some (slashed (first :: before.reverse) ++ ['/'], last)
    | [] => if first.isEmpty then none else some ([], first)

/-- A text without the slashes and idle pieces at its end; the root keeps its slash. -/
def dropIdleEnd (cs : List Char) : List Char :=
  match pieces cs with
  | [] => []
  | first :: rest =>
    let kept := (rest.reverse.dropWhile isIdle).reverse
    if kept.isEmpty && first.isEmpty && !cs.isEmpty then ['/'] else slashed (first :: kept)

def parent (p : Path) : Option Path := p.splitLast.map fun s => ⟨dropIdleEnd s.1⟩

/-- The name a path ends in; nothing when it ends in the root, `.` or `..`. -/
def fileName (p : Path) : Option (List Char) :=
  p.splitLast.bind fun s => if s.2 = ['.'] ∨ s.2 = ['.', '.'] then none else some s.2

/-! ### Extensions -/

/-- A name cut at its last dot, if that is not its first character. -/
def splitExtension (name : List Char) : Option (List Char × List Char) :=
  let (ext, rest) := name.reverse.span (· != '.')
  match rest with
  | [] => none
  | _ :: stem => if stem.isEmpty then none else some (stem.reverse, ext.reverse)

def nameStem (name : List Char) : List Char :=
  match splitExtension name with
  | some (stem, _) => stem
  | none => name

def stem (p : Path) : Option (List Char) := p.fileName.map nameStem

def extension (p : Path) : Option (List Char) :=
  p.fileName.bind fun name => (splitExtension name).map (·.2)

/-! ### Writing -/

/-- A path below another; an absolute path is below nothing. -/
def join (p q : Path) : Path :=
  if q.isAbsolute then q
  else if p.chars.isEmpty || p.chars.getLast? == some '/' then ⟨p.chars ++ q.chars⟩
  else ⟨p.chars ++ '/' :: q.chars⟩

/-- A path with another last name, or with a name added if it has none. -/
def withFileName (p : Path) (name : List Char) : Path :=
  let base := if p.fileName.isSome then p.parent.getD empty else p
  base.join ⟨name⟩

/-- A path without the extension of its last name, and without what is written after that name.
A path that ends in no name stays as it is.  Where a stem `.` would end the path, the dot of the
extension is kept, and the path ends in `..`. -/
def dropExtension (p : Path) : Path :=
  match p.splitLast, p.fileName with
  | some (before, _), some name =>
    let stem := nameStem name
    if stem = ['.'] ∧ p.chars = before ++ name then ⟨before ++ ['.', '.']⟩ else ⟨before ++ stem⟩
  | _, _ => p

/-! ### Normalisation -/

/-- One part put on a stack of parts: `.` is dropped and `..` takes the name below it away. -/
def pushPart (stack : List Part) : Part → List Part
  | .here => stack
  | .up =>
    match stack with
    | .name _ :: rest => rest
    | _ => .up :: stack
  | part => part :: stack

/-- Parts without `.`, and with `..` only where there is no name to take away. -/
def normalParts (ps : List Part) : List Part := (ps.foldl pushPart []).reverse

/-- The path with its `.` and `..` folded, judged by the text alone. -/
def normalize (p : Path) : Path := ofParts (normalParts p.parts)

end Path

end Scaffold

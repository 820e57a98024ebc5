/-
Scaffold/Glob/Selection.lean

The paths that several globs select.

A glob that is matched as an expression may not nest too deeply.  That is found
out when globs are put together (`Selection.ofGlobs`), for globs that go beyond
an extension before general ones.  The former are reported by their expression,
the latter by their position among the general globs.
-/
import Scaffold.Glob.Basic

namespace Scaffold

/-- Which glob nests too deeply to be matched. -/
inductive NestingError where
  /-- A glob that goes beyond an extension. -/
  | beyondExtension (e : Expression)
  /-- A general glob, by its position among the general ones. -/
  | general (position : Nat)
deriving DecidableEq, Repr

def NestingError.message : NestingError → String
  | beyondExtension e =>
    "error parsing glob '" ++ e.wholeText ++ "': error parsing pattern 0"
  | general position => "error parsing pattern " ++ toString position

/-- Whether a glob nests too deeply to be matched as an expression. -/
def Glob.isTooDeep (g : Glob) : Bool := decide (Expression.maxNesting < g.expression.nesting)

/-- Globs of which any may match. -/
structure Selection where
  globs : List Glob

namespace Selection

/-- The first of the globs of a kind that nests too deeply, with its position among them. -/
def tooDeep? (kind : GlobKind) (gs : List Glob) : Option (Glob × Nat) :=
  (gs.filter (fun g => g.kind == kind)).zipIdx.find? (fun p => p.1.isTooDeep)

/-- Globs put together. -/
def ofGlobs (gs : List Glob) : Except NestingError Selection :=
  match tooDeep? .beyondExtension gs, tooDeep? .general gs with
  | some (g, _), _ => .error (.beyondExtension g.expression)
  | none, some (_, position) => .error (.general position)
  | none, none => .ok ⟨gs⟩

def size (s : Selection) : Nat := s.globs.length

def accepts (s : Selection) (path : List Char) : Bool := s.globs.any (fun g => g.accepts path)

end Selection

end Scaffold

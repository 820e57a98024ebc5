/-
Scaffold/CodeMap.lean

Which part of a source text is code, and how deep its braces nest.

One pass over a source text finds its comments and string literals, which are
never code, and the braces in what is left.  A `CodeMap` records both:

* `quiet` — the byte spans of the comments and strings, in order;
* `braces` — the code-level braces with the depth each one leaves behind.

Everything else is a question to those two lists: `isCode`, `depthAt` and
`blockFrom`, the block of a declaration.

The rules of the pass.  A line comment ends before its newline, and a string
in plain quotes that is not closed ends there too; a string in back quotes
runs over lines; the opener of a block comment shares no character with its
closer; inside a string a backslash protects the next character; and whatever
is not closed runs to the end of the text.  Depth never goes below zero: a
closing brace without an open one is absorbed.

Design.  The length of a comment or string is measured where it opens
(`quietLength`), and the pass then walks over that many bytes, so the pass
itself is one recursion over the text.  Regular-expression literals are not
recognised: a brace inside one counts, and a quote inside one opens a string.
-/
import Scaffold.Text.Basic

namespace Scaffold

open Text

/-- A span of bytes, its end not included. -/
structure Span where
  start : Nat
  stop : Nat
deriving DecidableEq, Repr

def Span.contains (s : Span) (offset : Nat) : Bool :=
  decide (s.start ≤ offset) && decide (offset < s.stop)

/-- A code-level brace. -/
structure Brace where
  offset : Nat
  opens : Bool
  /-- The nesting depth right after the brace. -/
  depth : Nat
deriving DecidableEq, Repr

/-! ### Comments and strings -/

/-- The bytes up to the end of the line, the newline not counted. -/
def lineLength : List Char → Nat
  | [] => 0
  | c :: cs => if c = '\n' then 0 else c.utf8Size + lineLength cs

/-- The bytes up to the end of a block comment, its closer counted. -/
def blockCommentLength : List Char → Nat
  | [] => 0
  | '*' :: '/' :: _ => 2
  | c :: cs => c.utf8Size + blockCommentLength cs

/-- The bytes of a string literal after its opening quote, the closing quote counted. -/
def stringLength (quote : Char) : List Char → Nat
  | [] => 0
  | ['\\'] => 1
  | '\\' :: c :: cs => 1 + c.utf8Size + stringLength quote cs
  | c :: cs =>
    if c = quote then c.utf8Size
    else if c = '\n' ∧ quote ≠ '`' then 0
    else c.utf8Size + stringLength quote cs

/-- The length of the comment or string that opens at the head of a text, nothing where code
goes on. -/
def quietLength : List Char → Option Nat
  | '/' :: '/' :: cs => some (2 + lineLength cs)
  | '/' :: '*' :: cs => some (2 + blockCommentLength cs)
  | '\'' :: cs => some (1 + stringLength '\'' cs)
  | '"' :: cs => some (1 + stringLength '"' cs)
  | '`' :: cs => some (1 + stringLength '`' cs)
  | _ => none

/-! ### The pass -/

/-- What the pass meets: a comment or string, or a brace in code. -/
inductive Mark where
  | quiet (span : Span)
  | brace (b : Brace)
deriving DecidableEq, Repr

/-- The comment or string a mark stands for. -/
def Mark.span? : Mark → Option Span
  | .quiet s => some s
  | .brace _ => none

/-- The brace a mark stands for. -/
def Mark.brace? : Mark → Option Brace
  | .quiet _ => none
  | .brace b => some b

/-- The marks of a text that begins at `offset`, at brace depth `depth`, its first `skip` bytes
being the rest of a comment or string. -/
def marksFrom : (skip offset depth : Nat) → List Char → List Mark
  | _, _, _, [] => []
  | skip, offset, depth, c :: cs =>
    let next := offset + c.utf8Size
    if 0 < skip then marksFrom (skip - c.utf8Size) next depth cs
    else
      match quietLength (c :: cs) with
      | some n =>
        .quiet ⟨offset, offset + n⟩ :: marksFrom (n - c.utf8Size) next depth cs
      | none =>
        if c = '{' then .brace ⟨offset, true, depth + 1⟩ :: marksFrom 0 next (depth + 1) cs
        else if c = '}' then .brace ⟨offset, false, depth - 1⟩ :: marksFrom 0 next (depth - 1) cs
        else marksFrom 0 next depth cs

/-- The comments, strings and braces of a source text. -/
structure CodeMap where
  /-- The length of the text in bytes. -/
  size : Nat
  quiet : List Span
  braces : List Brace
deriving DecidableEq, Repr

namespace CodeMap

def ofText (cs : List Char) : CodeMap :=
  let marks := marksFrom 0 0 0 cs
  { size := byteLength cs
    quiet := marks.filterMap Mark.span?
    braces := marks.filterMap Mark.brace? }

/-! ### Questions -/

/-- Whether an offset is outside every comment and string. -/
def isCode (m : CodeMap) (offset : Nat) : Bool := !m.quiet.any (fun s => s.contains offset)

/-- The brace depth in effect at an offset: what the last brace before it leaves behind. -/
def depthAt (m : CodeMap) (offset : Nat) : Nat :=
  match (m.braces.takeWhile (fun b => decide (b.offset < offset))).getLast? with
  | some b => b.depth
  | none => 0

/-- Whether an offset is code outside all braces. -/
def isTopLevel (m : CodeMap) (offset : Nat) : Bool := m.isCode offset && m.depthAt offset == 0

/-- The inside of the first block that opens at or after `start`: from its opening brace to the
closing brace that restores the depth before it, or to the end of the text. -/
def blockFrom (m : CodeMap) (start : Nat) : Option Span :=
  let later := m.braces.dropWhile (fun b => decide (b.offset < start))
  match later.dropWhile (fun b => !b.opens) with
  | [] => none
  | opening :: rest =>
    let closing := rest.find? (fun b => !b.opens && b.depth == opening.depth - 1)
    some ⟨opening.offset + 1, (closing.map (·.offset)).getD m.size⟩

end CodeMap

end Scaffold

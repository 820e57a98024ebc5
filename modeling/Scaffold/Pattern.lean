/-
Scaffold/Pattern.lean

Patterns over text, with captures.

A pattern is matched at a place in a text (`Cursor`): the character before it,
its byte offset and the characters after it.  Of the ways a pattern can match
there is always a first one: an alternative is tried before those after it, a
repetition prefers one more round to stopping, and an optional part prefers to
be present.  `Pattern.run` searches in that order and hands each way to a
continuation, which refuses it by returning nothing.

The main definitions are

* `Pattern` — character classes, sequence, choice, repetition, captures, and
  the two assertions a declaration needs, a word boundary and the end of a
  line;
* `Pattern.matchAt?` — the first way to match at a place;
* `Pattern.findAll` — the matches of a whole text from left to right, each
  beginning no earlier than the last one ended.

Design.  Runs of one class are their own constructors, recursing on the text.
Where what follows a run can never begin with a character of its class, giving
characters back cannot help, and `longest` does not try; `many` does.  A
general repetition (`rounds`) stops when a round consumes nothing, so the
length of the text bounds it.
-/
import Scaffold.CodeMap
import Scaffold.Text.WordChar

namespace Scaffold

open Text

/-! ### Places and captures -/

/-- A place in a text. -/
structure Cursor where
  /-- The character before the place. -/
  before : Option Char
  /-- The bytes before the place. -/
  offset : Nat
  /-- The characters after the place. -/
  rest : List Char

namespace Cursor

/-- The beginning of a text. -/
def atStart (cs : List Char) : Cursor := ⟨none, 0, cs⟩

/-- The place after one more character. -/
def advance (p : Cursor) (c : Char) (cs : List Char) : Cursor := ⟨some c, p.offset + c.utf8Size, cs⟩

/-- The place after the characters of a class that come next; the place is given by its parts. -/
def skip (cls : Char → Bool) : (before : Option Char) → (offset : Nat) → List Char → Cursor
  | before, offset, [] => ⟨before, offset, []⟩
  | before, offset, c :: cs =>
    if cls c then skip cls (some c) (offset + c.utf8Size) cs else ⟨before, offset, c :: cs⟩

/-- Whether a word begins or ends here. -/
def isBoundary (p : Cursor) : Bool := p.before.any isWordChar != p.rest.head?.any isWordChar

/-- Whether a line ends here. -/
def isLineEnd (p : Cursor) : Bool :=
  match p.rest with
  | [] => true
  | c :: _ => c == '\n'

end Cursor

/-- The parts of a declaration that a pattern picks out. -/
inductive Slot where
  | name
  | parameters
  | asyncMark
  | accessor
  | defaultMark
  | typeMark
  | entries
deriving DecidableEq, Repr

/-- The spans captured so far, the latest first. -/
abbrev Captures := List (Slot × Span)

/-! ### Patterns -/

inductive Pattern where
  /-- The empty text. -/
  | empty
  /-- One character of a class. -/
  | one (cls : Char → Bool)
  /-- As many characters of a class as there are. -/
  | longest (cls : Char → Bool)
  /-- As many characters of a class as possible, or fewer. -/
  | many (cls : Char → Bool)
  /-- One pattern after another. -/
  | seq (p q : Pattern)
  /-- One pattern, or else another. -/
  | alt (p q : Pattern)
  /-- As many rounds of a pattern as possible, or fewer. -/
  | rounds (p : Pattern)
  /-- A pattern whose span is kept. -/
  | keep (slot : Slot) (p : Pattern)
  /-- A place where a word begins or ends. -/
  | boundary
  /-- A place where a line ends. -/
  | lineEnd

namespace Pattern

def inOrder : List Pattern → Pattern
  | [] => empty
  | [p] => p
  | p :: ps => seq p (inOrder ps)

/-- The first pattern of a list that fits, `p` when the list is empty. -/
def oneOf (p : Pattern) : List Pattern → Pattern
  | [] => p
  | q :: qs => alt p (oneOf q qs)

/-- A pattern that may be absent. -/
def optional (p : Pattern) : Pattern := alt p empty

def char (c : Char) : Pattern := one (· == c)

def literal (s : String) : Pattern := inOrder (s.toList.map char)

def words (first : String) (others : List String) : Pattern :=
  oneOf (literal first) (others.map literal)

def some1 (cls : Char → Bool) : Pattern := seq (one cls) (longest cls)

/-- A character other than those listed. -/
def noneOf (excluded : List Char) (c : Char) : Bool := !excluded.contains c

/-! ### Matching -/

/-- A place reached with the captures made on the way. -/
structure State where
  cursor : Cursor
  captures : Captures

/-- Tries the places after each prefix of a run of `cls`, the longest first. -/
def runMany {α : Type} (cls : Char → Bool) (k : Cursor → Option α) :
    Option Char → Nat → List Char → Option α
  | before, offset, [] => k ⟨before, offset, []⟩
  | before, offset, c :: cs =>
    if cls c then
      match runMany cls k (some c) (offset + c.utf8Size) cs with
      | some a => some a
      | none => k ⟨before, offset, c :: cs⟩
    else k ⟨before, offset, c :: cs⟩

/-- Tries one more round first, as long as rounds consume something, and at most `n` of them. -/
def runRounds {α : Type} (round : State → (State → Option α) → Option α)
    (k : State → Option α) : Nat → State → Option α
  | 0, s => k s
  | n + 1, s =>
    let more := round s fun s' =>
      if s.cursor.offset < s'.cursor.offset then runRounds round k n s' else none
    match more with
    | some a => some a
    | none => k s

/-- The first result of `k` over the ways the pattern matches at a state, in order. -/
def run {α : Type} : Pattern → State → (State → Option α) → Option α
  | empty, s, k => k s
  | one cls, s, k =>
    match s.cursor.rest with
    | [] => none
    | c :: cs => if cls c then k ⟨s.cursor.advance c cs, s.captures⟩ else none
  | longest cls, s, k =>
    k ⟨Cursor.skip cls s.cursor.before s.cursor.offset s.cursor.rest, s.captures⟩
  | many cls, s, k =>
    runMany cls (fun cursor => k ⟨cursor, s.captures⟩) s.cursor.before s.cursor.offset s.cursor.rest
  | seq p q, s, k => p.run s fun s' => q.run s' k
  | alt p q, s, k =>
    match p.run s k with
    | some a => some a
    | none => q.run s k
  | rounds p, s, k => runRounds (fun s' k' => p.run s' k') k s.cursor.rest.length s
  | keep slot p, s, k =>
    p.run s fun s' =>
      k ⟨s'.cursor, (slot, ⟨s.cursor.offset, s'.cursor.offset⟩) :: s'.captures⟩
  | boundary, s, k => if s.cursor.isBoundary then k s else none
  | lineEnd, s, k => if s.cursor.isLineEnd then k s else none

/-! ### Matches -/

/-- Where a pattern matched, and what it captured. -/
structure Match where
  span : Span
  captures : Captures
deriving DecidableEq, Repr

/-- The first way the pattern matches at a place. -/
def matchAt? (p : Pattern) (cursor : Cursor) : Option Match :=
  p.run ⟨cursor, []⟩ fun s => some ⟨⟨cursor.offset, s.cursor.offset⟩, s.captures⟩

/-- The matches from a place on, beginning at offset `resume` or later.  A match of the empty text
lets the search go on after the next character. -/
def findFrom (p : Pattern) : (resume : Nat) → (before : Option Char) → (offset : Nat) →
    List Char → List Match
  | resume, before, offset, [] =>
    if offset < resume then [] else (p.matchAt? ⟨before, offset, []⟩).toList
  | resume, before, offset, c :: cs =>
    let next := offset + c.utf8Size
    if offset < resume then p.findFrom resume (some c) next cs
    else
      match p.matchAt? ⟨before, offset, c :: cs⟩ with
      | some m => m :: p.findFrom (max m.span.stop next) (some c) next cs
      | none => p.findFrom 0 (some c) next cs

/-- The matches of a text, from left to right and without overlap. -/
def findAll (p : Pattern) (cs : List Char) : List Match := p.findFrom 0 none 0 cs

/-- Whether a text begins with a match. -/
def leads (p : Pattern) (cs : List Char) : Bool := (p.matchAt? (Cursor.atStart cs)).isSome

end Pattern

namespace Pattern.Match

/-- The span captured for a slot. -/
def capture? (m : Match) (slot : Slot) : Option Span :=
  (m.captures.find? (fun c => c.1 == slot)).map (·.2)

def has (m : Match) (slot : Slot) : Bool := (m.capture? slot).isSome

/-- The text captured for a slot, empty for a slot that took no part; `source` is the text that
was searched. -/
def text (m : Match) (slot : Slot) (source : List Char) : List Char :=
  match m.capture? slot with
  | some s => slice s.start s.stop source
  | none => []

end Pattern.Match

end Scaffold

/-
Scaffold/Glob/Expression.lean

Regular expressions over bytes.

A glob is matched byte by byte against a whole path, and what it accepts is
said by an `Expression`.  Three readings of an expression are defined here:

* the byte strings it accepts (`Expression.accepts`);
* how deeply its parts nest (`Expression.nesting`);
* how it is written (`Expression.text`).

`Expression.leftovers` runs an expression from several suffixes of a string at
once and returns the suffixes it can leave over, each once and the longest
first.  The number of suffixes is bounded by the length of the string, so
matching takes polynomial time however many runs the expression has.

A class names characters but is a set of bytes: the bytes of the characters it
names, and between two ends the range from the last byte of the lower to the
first byte of the upper one.  For characters of one byte that is the usual
meaning.
-/
namespace Scaffold

/-- A range of characters, both ends included. -/
abbrev CharRange := Char × Char

/-- A regular expression over bytes. -/
inductive Expression where
  | empty
  | byte (b : UInt8)
  | anyByte
  | cls (negated : Bool) (ranges : List CharRange)
  | anyRun
  | optional (e : Expression)
  | seq (a b : Expression)
  | alt (a b : Expression)
  | group (e : Expression)
deriving DecidableEq, Repr

namespace Expression

/-- Expressions one after another. -/
def inOrder : List Expression → Expression
  | [] => empty
  | [a] => a
  | a :: as => seq a (inOrder as)

def char (c : Char) : Expression := inOrder ((String.utf8EncodeChar c).map byte)

/-- The bytes a range of characters puts into a class, as ranges of bytes. -/
def byteRanges (r : CharRange) : List (UInt8 × UInt8) :=
  let low := String.utf8EncodeChar r.1
  let high := String.utf8EncodeChar r.2
  let single (b : UInt8) := (b, b)
  if r.1 = r.2 then low.map single
  else
    low.dropLast.map single
      ++ [(low.getLastD 0, high.headD 0)]
      ++ high.tail.map single

/-! ### What an expression accepts -/

/-- Whether a byte belongs to a class. -/
def inClass (negated : Bool) (ranges : List CharRange) (b : UInt8) : Bool :=
  negated != (ranges.flatMap byteRanges).any (fun r => decide (r.1 ≤ b) && decide (b ≤ r.2))

/-- The suffixes of a string, itself first. -/
def suffixes : List UInt8 → List (List UInt8)
  | [] => [[]]
  | b :: bs => (b :: bs) :: suffixes bs

/-- Two lists of suffixes of one string, each with the longest first, as one. -/
def mergeSuffixes : List (List UInt8) → List (List UInt8) → List (List UInt8)
  | [], ys => ys
  | xs, [] => xs
  | x :: xs, y :: ys =>
    if x.length = y.length then x :: mergeSuffixes xs ys
    else if y.length < x.length then x :: mergeSuffixes xs (y :: ys)
    else y :: mergeSuffixes (x :: xs) ys

/-- What one byte of a set leaves over. -/
def afterOne (p : UInt8 → Bool) : List UInt8 → Option (List UInt8)
  | [] => none
  | b :: bs => if p b then some bs else none

/-- The suffixes an expression can leave over, begun at any of the given ones. -/
def leftovers : Expression → List (List UInt8) → List (List UInt8)
  | empty, ss => ss
  | byte b, ss => ss.filterMap (afterOne (· == b))
  | anyByte, ss => ss.filterMap (afterOne fun _ => true)
  | cls negated ranges, ss => ss.filterMap (afterOne (inClass negated ranges))
  | anyRun, ss =>
    match ss with
    | [] => []
    | longest :: _ => suffixes longest
  | optional e, ss => mergeSuffixes (e.leftovers ss) ss
  | seq a b, ss => b.leftovers (a.leftovers ss)
  | alt a b, ss => mergeSuffixes (a.leftovers ss) (b.leftovers ss)
  | group e, ss => e.leftovers ss

/-- Whether an expression accepts a whole string. -/
def accepts (e : Expression) (bytes : List UInt8) : Bool := (e.leftovers [bytes]).contains []

/-! ### How deeply an expression nests -/

/-- What an expression is a direct part of. -/
inductive Surrounding where
  | sequence
  | choice
  | other
deriving DecidableEq, Repr

/-- The levels of an expression inside a surrounding.  A sequence is one level however long it is,
and so is a choice; groups, repetitions and classes are one level each, and a class of several
items is two. -/
def levels : Surrounding → Expression → Nat
  | _, empty | _, byte _ | _, anyByte => 0
  | _, cls _ ranges => if (ranges.flatMap byteRanges).length = 1 then 1 else 2
  | _, anyRun => 1
  | _, optional e | _, group e => 1 + e.levels .other
  | s, seq a b => (if s = .sequence then 0 else 1) + max (a.levels .sequence) (b.levels .sequence)
  | s, alt a b => (if s = .choice then 0 else 1) + max (a.levels .choice) (b.levels .choice)

/-- How deeply the parts of an expression nest.  The whole is a sequence: it stands between the
marks for the two ends of the text. -/
def nesting (e : Expression) : Nat := 1 + e.levels .sequence

/-- The deepest nesting that can be matched. -/
def maxNesting : Nat := 250

/-! ### How an expression is written -/

/-- The characters that mean something of their own in an expression. -/
def signs : List Char :=
  ['\\', '.', '+', '*', '?', '(', ')', '|', '[', ']', '{', '}', '^', '$', '#', '&', '-', '~']

def byteText (b : UInt8) : List Char :=
  let c := Char.ofNat b.toNat
  if 0x80 ≤ b then '\\' :: 'x' :: Nat.toDigits 16 b.toNat
  else if signs.contains c then ['\\', c]
  else [c]

/-- A character as it is written, byte by byte. -/
def charText (c : Char) : List Char := (String.utf8EncodeChar c).flatMap byteText

def rangeText (r : CharRange) : List Char :=
  if r.1 = r.2 then charText r.1 else charText r.1 ++ '-' :: charText r.2

def text : Expression → List Char
  | empty => []
  | byte b => byteText b
  | anyByte => ['.']
  | cls negated ranges =>
    '[' :: (if negated then ['^'] else []) ++ ranges.flatMap rangeText ++ [']']
  | anyRun => ['.', '*']
  | optional e => e.text ++ ['?']
  | seq a b => a.text ++ b.text
  | alt a b => a.text ++ '|' :: b.text
  | group e => ['(', '?', ':'] ++ e.text ++ [')']

/-- An expression for a whole text, as it is written. -/
def wholeText (e : Expression) : String :=
  "(?-u)^" ++ String.ofList e.text ++ "$"

end Expression

end Scaffold

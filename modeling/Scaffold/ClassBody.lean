/-
Scaffold/ClassBody.lean

The body of a class, and the methods in it.

A class's body is the first block after the class, unless a semicolon comes
before that block (`bodySpan`).  A method is a member of the body in one of
two forms:

* `name(…) { … }`, with modifiers, a star or a return type;
* `name = (…) => …`, a field that holds an arrow function.

Both forms are searched for up to the opening parenthesis only (`methodHead`,
`fieldHead`).  The parameters end at the closing parenthesis that balances it
(`closingParen`), and what follows must go on as a method or an arrow does
(`methodTail`, `fieldTail`).  A head counts only if its name stands in code
directly in the body, outside parentheses, where a member can begin.

Private members cannot be called from outside and accessors are read rather
than called, so neither is a method; nor is a statement that merely looks like
a member (`nonMethodNames`).
-/
import Scaffold.Recognizer

namespace Scaffold

open Text

/-! ### Patterns -/

namespace Pattern

/-- The modifiers in front of a field. -/
def fieldModifiers : List String := ["public", "private", "protected", "readonly", "override"]

/-- Any number of modifiers: `static` and the given ones. -/
def modifiers (others : List String) : Pattern :=
  rounds (inOrder [boundary, words "static" others, blanks1])

/-- The name of a member, with the mark of a private one. -/
def memberName : Pattern := keep .name (seq (optional (char '#')) identifier)

def methodHead : Pattern :=
  inOrder [modifiers (fieldModifiers ++ ["abstract"]),
    optional (keep .asyncMark (wordThenBlanks "async")),
    optional (seq (keep .accessor (words "get" ["set"])) blanks1),
    optional (char '*'), blanks, memberName, blanks, char '(']

def methodTail : Pattern :=
  inOrder [blanks, optional (seq (char ':') (longest (noneOf ['{', '}', ';', '=']))), char '{']

def fieldHead : Pattern :=
  inOrder [modifiers fieldModifiers, memberName, blanks, char '=', blanks,
    optional (keep .asyncMark (seq (literal "async") blanks)), char '(']

/-- What follows the parameters of an arrow function: a return type, and the arrow. -/
def fieldTail : Pattern :=
  inOrder [blanks, optional (seq (char ':') (longest (noneOf ['=', ';', '{', '}']))), literal "=>"]

end Pattern

/-- Names that look like a method's but are not. -/
def nonMethodNames : List String :=
  ["constructor", "if", "for", "while", "switch", "catch", "function", "return", "with", "do",
    "else", "super", "new", "typeof", "await"]

/-! ### Parentheses -/

/-- The parenthesis depth after each code-level parenthesis of a text that begins at `offset`, at
depth `depth`.  A closing one without an open one is absorbed. -/
def parenDepths (map : CodeMap) : (offset depth : Nat) → List Char → List (Nat × Nat)
  | _, _, [] => []
  | offset, depth, c :: cs =>
    let next := offset + c.utf8Size
    if c = '(' ∧ map.isCode offset then
      (offset, depth + 1) :: parenDepths map next (depth + 1) cs
    else if c = ')' ∧ map.isCode offset then
      (offset, depth - 1) :: parenDepths map next (depth - 1) cs
    else parenDepths map next depth cs

/-- The parenthesis depth just before an offset. -/
def parenDepthAt (depths : List (Nat × Nat)) (offset : Nat) : Nat :=
  match (depths.takeWhile (fun d => decide (d.1 < offset))).getLast? with
  | some d => d.2
  | none => 0

/-- The offset of the code-level parenthesis that closes the one a text begins with; the text
begins at `offset`, with `depth` parentheses open. -/
def closingParen (map : CodeMap) : (offset depth : Nat) → List Char → Option Nat
  | _, _, [] => none
  | offset, depth, c :: cs =>
    let next := offset + c.utf8Size
    if !map.isCode offset then closingParen map next depth cs
    else if c = '(' then closingParen map next (depth + 1) cs
    else if c = ')' then
      if depth ≤ 1 then some offset else closingParen map next (depth - 1) cs
    else closingParen map next depth cs

/-! ### Members -/

/-- Whether a member can begin after a text: at its start, on a new line, or right after a brace
or semicolon. -/
def canBeginMember (before : List Char) : Bool :=
  let kept := trimEnd before
  (before.drop kept.length).contains '\n' ||
    (match kept.getLast? with
      | none => true
      | some c => c == '{' || c == ';' || c == '}')

/-- A class body inside its source text.  What follows from the first three fields is kept, since
every head is judged by it. -/
structure ClassBody where
  source : List Char
  map : CodeMap
  span : Span
  /-- The text of the body. -/
  text : List Char := slice span.start span.stop source
  /-- The parenthesis depths in the body. -/
  parens : List (Nat × Nat) := parenDepths map span.start 0 text
  text_eq : text = slice span.start span.stop source := by rfl
  parens_eq : parens = parenDepths map span.start 0 text := by rfl

namespace ClassBody

/-- Whether a match in the body is the head of a callable member of it. -/
def isMember (b : ClassBody) (m : Pattern.Match) : Bool :=
  match m.capture? .name with
  | none => false
  | some name =>
    let offset := b.span.start + name.start
    let head := slice m.span.start m.span.stop b.text
    let blanks := byteLength (head.takeWhile isBlank)
    (m.text .name b.text).head? != some '#'
      && b.map.isCode offset
      && b.map.depthAt offset == b.map.depthAt b.span.start
      && parenDepthAt b.parens offset == 0
      && canBeginMember (takeBytes (m.span.start + blanks) b.text)

/-- The parameters after a head, and the text after their closing parenthesis. -/
def parametersAfter (b : ClassBody) (m : Pattern.Match) : Option (List Char × List Char) :=
  let opening := b.span.start + m.span.stop - 1
  (closingParen b.map opening 0 (slice opening b.span.stop b.source)).map fun closing =>
    (slice (opening + 1) closing b.source, slice (closing + 1) b.span.stop b.source)

/-- The member a head stands for, with the offset of its name, if what follows fits `tail`. -/
def member? (b : ClassBody) (tail : Pattern) (m : Pattern.Match) : Option (Nat × MethodItem) :=
  if b.isMember m then
    match b.parametersAfter m, m.capture? .name with
    | some (parameters, rest), some name =>
      if tail.leads rest then
        some (b.span.start + name.start,
          { name := String.ofList (m.text .name b.text)
            parameters := splitParameters parameters
            isAsync := m.has .asyncMark })
      else none
    | _, _ => none
  else none

def plainMethods (b : ClassBody) : List (Nat × MethodItem) :=
  (Pattern.methodHead.findAll b.text).filterMap fun m =>
    if m.has .accessor || nonMethodNames.contains (String.ofList (m.text .name b.text)) then none
    else b.member? .methodTail m

def fieldMethods (b : ClassBody) : List (Nat × MethodItem) :=
  (Pattern.fieldHead.findAll b.text).filterMap (b.member? .fieldTail)

/-- The methods of a class body, in the order of their names in the source. -/
def methods (b : ClassBody) : List MethodItem :=
  ((b.plainMethods ++ b.fieldMethods).mergeSort (fun x y => decide (x.1 ≤ y.1))).map (·.2)

end ClassBody

/-- The body of the class at an offset: the first block after it, unless a semicolon comes
first. -/
def bodySpan (source : List Char) (map : CodeMap) (offset : Nat) : Option Span :=
  (map.blockFrom offset).bind fun body =>
    if (slice offset (body.start - 1) source).contains ';' then none else some body

end Scaffold

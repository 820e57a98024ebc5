/-
Scaffold/Glob/Basic.lean

Glob patterns.

A glob is a sequence of tokens.  `?` stands for any byte and `*` for any run
of bytes, slashes included.  A `**` that is a whole component stands for any
number of components: at the front (`leading`), in the middle, or at the end
(`trailing`); a glob that is nothing but a leading one accepts every path.  A
class lists ranges of characters, and a group lists alternatives.  An
alternative that writes nothing is dropped from its group, and a group of
which nothing is left writes nothing itself.

`Token.expression?` is the meaning of a token, and `Glob.accepts` that of a
glob.  A glob's kind (`GlobKind`) tells which part of a path it is about.  One
that compares the last name of a path, or its extension, accepts no path that
ends in `..`, which is no name.
-/
import Scaffold.Glob.Expression
import Scaffold.Text.Basic

namespace Scaffold

/-- One part of a glob. -/
inductive Token where
  | literal (c : Char)
  | anyByte
  | run
  | leading
  | middle
  | trailing
  | cls (negated : Bool) (ranges : List CharRange)
  /-- Alternatives, or nothing where none of them writes anything. -/
  | group (e : Option Expression)

namespace Token

open Expression (inOrder)

def slash : Expression := .byte '/'.toUInt8

/-- The byte strings a token accepts, unless it writes nothing. -/
def expression? : Token → Option Expression
  | literal c => some (.char c)
  | anyByte => some .anyByte
  | run => some .anyRun
  | leading => some (.group (.alt (.optional slash) (inOrder [.anyRun, slash])))
  | middle => some (.group (.alt slash (inOrder [slash, .anyRun, slash])))
  | trailing => some (inOrder [slash, .anyRun])
  | cls negated ranges => some (.cls negated ranges)
  | group e => e

/-- The byte strings a sequence of tokens accepts, unless all of them write nothing. -/
def expressionOf? (ts : List Token) : Option Expression :=
  match ts.filterMap expression? with
  | [] => none
  | es => some (inOrder es)

/-- The group of some alternatives. -/
def ofAlternatives (alternatives : List (List Token)) : Token :=
  match alternatives.filterMap expressionOf? with
  | [] => group none
  | first :: others => group (some (.group (others.foldl .alt first)))

/-- The character a token stands for, if it stands for one. -/
def char? : Token → Option Char
  | literal c => some c
  | _ => none

/-- Whether a token stands for one character or byte of a name: it never accepts a slash. -/
def isNamePart : Token → Bool
  | literal c => c != '/'
  | cls negated ranges => !Expression.inClass negated ranges '/'.toUInt8
  | _ => false

end Token

/-! ### Kinds -/

/-- What a glob says about a path. -/
inductive GlobKind where
  /-- Its last name, in full. -/
  | name
  /-- The extension of its last name. -/
  | extension
  /-- Its whole text, or the text it begins or ends with. -/
  | text
  /-- More than that, the extension of its last name included. -/
  | beyondExtension
  /-- Every character of what follows its last slash, classes included. -/
  | classes
  /-- Anything else. -/
  | general
deriving DecidableEq, Repr

namespace GlobKind

/-- Whether a text is one extension, its dot included. -/
def isExtension : List Char → Bool
  | '.' :: cs => cs.all (fun c => c != '.' && c != '/')
  | _ => false

/-- Whether a text ends in an extension: it has a dot after its last slash. -/
def endsInExtension (cs : List Char) : Bool := (cs.reverse.takeWhile (· != '/')).contains '.'

/-- Whether tokens are characters and then any run of bytes or of components. -/
def isBeginning (ts : List Token) : Bool :=
  match ts.reverse with
  | .run :: before | .trailing :: before => before.all (fun t => t.char?.isSome)
  | _ => false

/-- Whether tokens stand for what follows the last slash of a path, character by character. -/
def isLastPiece : List Token → Bool
  | .leading :: t :: ts => (t :: ts).all Token.isNamePart
  | _ => false

/-- The kind of a sequence of tokens: it depends on the characters they end in and on what is
before those. -/
def ofTokens (ts : List Token) : GlobKind :=
  let ending := (ts.reverse.map Token.char?).takeWhile Option.isSome
  let cs := ending.reverse.filterMap id
  match ts.take (ts.length - cs.length) with
  | [] => if cs.isEmpty then general else text
  | [.leading] => if cs.isEmpty then general else if cs.contains '/' then text else name
  | [.run] | [.leading, .run] =>
    if isExtension cs then extension else if cs.isEmpty || cs == ['/'] then general else text
  | before =>
    if cs.isEmpty && isBeginning before then text
    else if endsInExtension cs then beyondExtension
    else if isLastPiece ts then classes
    else general

/-- Whether a glob of this kind is about the last name of a path as a name. -/
def needsName : GlobKind → Bool
  | name | extension | beyondExtension => true
  | text | classes | general => false

end GlobKind

/-! ### Globs -/

/-- A glob pattern: its text, its kind, and the byte strings it accepts. -/
structure Glob where
  pattern : String
  kind : GlobKind
  expression : Expression

namespace Glob

def ofTokens (pattern : String) (ts : List Token) : Glob :=
  match ts with
  | [.leading] => ⟨pattern, .general, .anyRun⟩
  | _ => ⟨pattern, GlobKind.ofTokens ts, (Token.expressionOf? ts).getD .empty⟩

/-- Whether a path ends in `..`. -/
def endsUp (path : List Char) : Bool :=
  (Text.splitWhere (· == '/') path).getLast? == some ['.', '.']

def accepts (g : Glob) (path : List Char) : Bool :=
  !(g.kind.needsName && endsUp path)
    && g.expression.accepts (path.flatMap String.utf8EncodeChar)

end Glob

end Scaffold

/-
Scaffold/Recognizer.lean

The shapes of a declaration.

A `Recognizer` names one shape in which a source text declares or exports
something: a function by its keyword, a function bound to a variable, a class,
an exported declaration, an exported name, a list of exported names.  Each
shape has a pattern, and `Recognizer.find` keeps the matches that begin in
code outside all braces, minus what the shape itself excludes.

A class is found without its methods here; they come from its body.

Known limits.  A binding whose initial value opens with a parenthesis is taken
for a function.  Only the beginning of a match is checked against the map of
the text, so a match may run through a comment.
-/
import Scaffold.Outline.Basic
import Scaffold.Parameter
import Scaffold.Pattern

namespace Scaffold

open Text

/-! ### Common patterns -/

namespace Pattern

/-- A character an identifier can begin with. -/
def isIdentifierStart (c : Char) : Bool := c.isAlpha || c == '_' || c == '$'

/-- A character an identifier can go on with. -/
def isIdentifierPart (c : Char) : Bool := isWordChar c || c == '$'

def identifier : Pattern := seq (one isIdentifierStart) (longest isIdentifierPart)

def blanks : Pattern := longest isBlank

def blanks1 : Pattern := some1 isBlank

/-- A word and the blanks after it. -/
def wordThenBlanks (s : String) : Pattern := seq (literal s) blanks1

/-- The keyword `function`, with the star of a generator. -/
def functionKeyword : Pattern :=
  inOrder [literal "function", boundary, blanks, optional (char '*'), blanks]

def variableKeyword : Pattern := words "const" ["let", "var"]

/-- A parenthesis, the text up to the next closing one, and that. -/
def parameterList : Pattern :=
  inOrder [char '(', keep .parameters (longest (noneOf [')'])), char ')']

def typeParameters : Pattern :=
  inOrder [char '<', longest (noneOf ['>', '(', ')']), char '>', blanks]

/-! ### One pattern for each shape -/

/-- `function name(…)`, possibly asynchronous, a generator, generic. -/
def functionDeclaration : Pattern :=
  inOrder [boundary, optional (keep .asyncMark (wordThenBlanks "async")), functionKeyword,
    keep .name identifier, blanks, optional typeParameters, parameterList]

/-- `const name = (…)` or `const name = function (…)`, possibly asynchronous or annotated. -/
def boundFunction : Pattern :=
  inOrder [boundary, variableKeyword, blanks1, keep .name identifier, blanks,
    optional (seq (char ':') (some1 (noneOf ['=', ';', '\n']))), char '=', blanks,
    optional (keep .asyncMark (seq (literal "async") blanks)),
    optional (inOrder [functionKeyword, optional identifier, blanks]), parameterList]

/-- `const name = parameter =>`, possibly asynchronous. -/
def boundArrow : Pattern :=
  inOrder [boundary, variableKeyword, blanks1, keep .name identifier, blanks, char '=', blanks,
    optional (keep .asyncMark (wordThenBlanks "async")), keep .parameters identifier, blanks,
    literal "=>"]

def classDeclaration : Pattern :=
  inOrder [boundary, wordThenBlanks "class", keep .name identifier]

/-- `export` in front of a declaration. -/
def exportedDeclaration : Pattern :=
  inOrder [boundary, wordThenBlanks "export",
    optional (keep .defaultMark (wordThenBlanks "default")), optional (wordThenBlanks "declare"),
    optional (wordThenBlanks "abstract"), optional (wordThenBlanks "async"),
    alt functionKeyword (seq (words "class" ["const", "let", "var"]) blanks1),
    keep .name identifier]

/-- `export default name`, up to a semicolon or the end of the line.  A line can end among the
blanks after the name. -/
def exportedName : Pattern :=
  inOrder [boundary, wordThenBlanks "export", wordThenBlanks "default", keep .name identifier,
    many isBlank, alt (char ';') lineEnd]

/-- `export` in front of a list of names in braces. -/
def exportedList : Pattern :=
  inOrder [boundary, literal "export", blanks,
    optional (keep .typeMark (seq (literal "type") blanks)), char '{',
    keep .entries (longest (noneOf ['}'])), char '}']

end Pattern

/-! ### Exclusions -/

/-- The words that follow `class` when the class has no name. -/
def heritageWords : List String := ["extends", "implements"]

/-- The words that may follow `export default` without being a name. -/
def nonNames : List String :=
  ["abstract", "async", "await", "class", "const", "function", "let", "new", "var"]

/-- The characters after which a `function` keyword begins an expression. -/
def expressionMarks : List Char := ['=', '(', ',', ':', '?', '!', '&', '|', '[']

/-- Whether the text before an offset ends, blanks aside, in an operator or opening bracket. -/
def inExpression (source : List Char) (offset : Nat) : Bool :=
  (trimEnd (takeBytes offset source)).getLast?.any (fun c => expressionMarks.contains c)

/-! ### Recognizers -/

/-- The shapes of a declaration. -/
inductive Recognizer where
  | functionKeyword
  | boundFunction
  | classKeyword
  | exportedDeclaration
  | exportedName
  | exportedList
deriving DecidableEq, Repr

/-- What a recognizer finds.  A class has no methods yet. -/
inductive Found where
  | function (f : FunctionItem)
  | classNamed (name : String) (offset : Nat)
  | exporting (e : ExportItem)
deriving DecidableEq, Repr

/-- The export an entry of an export list stands for.  Types, and a default that is only passed
on, have no name to import. -/
def listedExport? (entry : List Char) (offset : Nat) : Option ExportItem :=
  match (words entry).map String.ofList with
  | [] => none
  | "type" :: _ => none
  | ["default"] => none
  | [name] => some (item name name)
  | [inner, "as", outer] => some (item inner outer)
  | _ => none
where
  /-- The export of `inner` under the name `outer`. -/
  item (inner outer : String) : ExportItem :=
    if outer = "default" then ⟨inner, true, offset⟩ else ⟨outer, false, offset⟩

namespace Recognizer

/-- The recognizers in the order they run in. -/
def all : List Recognizer :=
  [functionKeyword, boundFunction, classKeyword, exportedDeclaration, exportedName, exportedList]

/-- The short name of a recognizer. -/
def tag : Recognizer → String
  | functionKeyword => "function"
  | boundFunction => "binding"
  | classKeyword => "class"
  | exportedDeclaration => "export-declaration"
  | exportedName => "export-default-identifier"
  | exportedList => "export-list"

/-- The recognizer of a short name. -/
def ofTag? (tag : String) : Option Recognizer := all.find? (fun r => r.tag == tag)

/-- The patterns of a shape, each searched for on its own. -/
def patterns : Recognizer → List Pattern
  | functionKeyword => [.functionDeclaration]
  | boundFunction => [.boundFunction, .boundArrow]
  | classKeyword => [.classDeclaration]
  | exportedDeclaration => [.exportedDeclaration]
  | exportedName => [.exportedName]
  | exportedList => [.exportedList]

/-- The function a match declares. -/
def functionOf (source : List Char) (m : Pattern.Match) : FunctionItem :=
  { name := String.ofList (m.text .name source)
    parameters := splitParameters (m.text .parameters source)
    isAsync := m.has .asyncMark
    offset := m.span.start }

/-- What one match stands for, given that it begins in code outside all braces. -/
def read (r : Recognizer) (source : List Char) (m : Pattern.Match) : List Found :=
  let name := String.ofList (m.text .name source)
  let offset := m.span.start
  match r with
  | functionKeyword =>
    if inExpression source offset then [] else [.function (functionOf source m)]
  | boundFunction => [.function (functionOf source m)]
  | classKeyword => if heritageWords.contains name then [] else [.classNamed name offset]
  | exportedDeclaration =>
    if heritageWords.contains name then [] else [.exporting ⟨name, m.has .defaultMark, offset⟩]
  | exportedName => if nonNames.contains name then [] else [.exporting ⟨name, true, offset⟩]
  | exportedList =>
    if m.has .typeMark then []
    else
      (splitWhere (· == ',') (m.text .entries source)).filterMap
        (fun entry => (listedExport? entry offset).map .exporting)

/-- Everything of one shape in a source text, in the order it is searched for. -/
def find (r : Recognizer) (source : List Char) (map : CodeMap) : List Found :=
  (r.patterns.flatMap (fun p => p.findAll source)).flatMap fun m =>
    if map.isTopLevel m.span.start then r.read source m else []

end Recognizer

end Scaffold

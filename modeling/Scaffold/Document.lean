/-
Scaffold/Document.lean

Test documents.

A document is written from an outline: the imports, and one group of test
cases for each declaration worth testing (`Outline.targets`).  With exports in
the outline only what is exported is tested; without any, everything is.  A
name gets at most one group.

`Outline.importStatement` is shaped by the exports: the first default export
is bound by itself, the others by name; where nothing is exported the module
is bound to a name made from that of its file (`moduleBinding`).  Only one
default can be imported, so the others are reported
(`Outline.ignoredDefaults`).

Design.  A document is a list of lines, each ended by a newline; every part of
it is a function to lines.
-/
import Scaffold.Framework
import Scaffold.Outline.Basic
import Scaffold.Parameter

namespace Scaffold

open Text

/-- The items of a list without those whose key occurred before. -/
def distinctBy {α β : Type} [BEq β] (key : α → β) : List α → List α
  | [] => []
  | x :: xs => x :: (distinctBy key xs).filter (fun y => !(key y == key x))

/-! ### Targets -/

/-- A declaration to test. -/
inductive Target where
  | function (f : FunctionItem)
  | classItem (c : ClassItem)
deriving DecidableEq, Repr

def Target.name : Target → String
  | .function f => f.name
  | .classItem c => c.name

namespace Outline

/-- The declaration of a name, functions before classes. -/
def target? (o : Outline) (name : String) : Option Target :=
  match o.function? name with
  | some f => some (.function f)
  | none => (o.class? name).map .classItem

/-- The declarations to test: the exported ones in the order of the exports, or all of them when
nothing is exported. -/
def targets (o : Outline) : List Target :=
  if o.exports.isEmpty then
    distinctBy Target.name (o.functions.map .function ++ o.classes.map .classItem)
  else (distinctBy (·.name) o.exports).filterMap (fun e => o.target? e.name)

/-! ### Imports -/

/-- The names of the default exports. -/
def defaults (o : Outline) : List String := (o.exports.filter (·.isDefault)).map (·.name)

/-- The names to import besides the default one. -/
def namedExports (o : Outline) : List String :=
  distinctBy (fun name => name)
    (((o.exports.filter (fun e => !e.isDefault)).map (·.name)).filter
      (fun name => !(some name == o.defaults.head?)))

end Outline

/-- A default export that cannot be imported because another one is. -/
structure IgnoredDefault where
  importPath : String
  kept : String
  ignored : String
deriving DecidableEq, Repr

/-- The default exports after the first. -/
def Outline.ignoredDefaults (o : Outline) (importPath : String) : List IgnoredDefault :=
  match o.defaults with
  | [] => []
  | kept :: others => others.map (fun ignored => ⟨importPath, kept, ignored⟩)

/-- A character that can stand in a name made from a file's. -/
def isBindingChar (c : Char) : Bool := c.isAlphanum || c == '_' || c == '$'

def capitalize : List Char → List Char
  | [] => []
  | c :: cs => c.toUpper :: cs

/-- The name a module without exports is bound to: the words of its file's name run together, each
with a capital.  A digit cannot come first, and there is always some name. -/
def moduleBinding (unitName : String) : String :=
  let parts := (splitWhere (fun c => !isBindingChar c) unitName.toList).map capitalize
  match parts.flatten with
  | [] => "Module"
  | c :: cs => String.ofList (if c.isDigit then '_' :: c :: cs else c :: cs)

/-- The statement that imports what a module exports. -/
def Outline.importStatement (o : Outline) (importPath unitName : String) : String :=
  let named := "\x7b " ++ ", ".intercalate o.namedExports ++ " \x7d"
  let bindings :=
    match o.defaults.head?, o.namedExports.isEmpty with
    | some name, true => name
    | some name, false => name ++ ", " ++ named
    | none, false => named
    | none, true => moduleBinding unitName
  "import " ++ bindings ++ " from '" ++ importPath ++ "';"

/-! ### Groups of test cases -/

/-- The blanks a line at a nesting level begins with. -/
def indentation (level : Nat) : String := String.ofList (List.replicate (2 * level) ' ')

def line (level : Nat) (text : String) : String := indentation level ++ text

def groupOpening (level : Nat) (name : String) : String :=
  line level ("describe('" ++ name ++ "', () => \x7b")

def closing (level : Nat) : String := line level "\x7d);"

/-- The case that calls something and asserts that its result is defined. -/
def callCase (framework : Framework) (level : Nat) (isAsync : Bool) (setup : List String)
    (call : String) : List String :=
  let arrow := if isAsync then "async () =>" else "() =>"
  let awaiting := if isAsync then "await " else ""
  [line level ("it('should work correctly', " ++ arrow ++ " \x7b")]
    ++ setup.map (line (level + 1))
    ++ [line (level + 1) ("const result = " ++ awaiting ++ call ++ ";"),
      line (level + 1) (framework.definedAssertion "result"), closing level]

/-- A case left to the author, as a comment. -/
def openCase (todo case : String) : List String :=
  [line 1 ("// TODO: " ++ todo), line 1 ("// it('" ++ case ++ "', () => \x7b"),
    line 1 "// \x7d);"]

def functionGroup (framework : Framework) (f : FunctionItem) : List String :=
  [groupOpening 0 f.name]
    ++ callCase framework 1 f.isAsync [] (f.name ++ "(" ++ argumentList f.parameters ++ ")")
    ++ [""] ++ openCase "add edge case tests" "should handle edge cases"
    ++ [""] ++ openCase "add error case tests" "should handle invalid input"
    ++ [closing 0]

/-- The statement that makes an instance of a class. -/
def construction (className : String) : String := "const instance = new " ++ className ++ "();"

def methodGroup (framework : Framework) (className : String) (m : MethodItem) : List String :=
  [groupOpening 1 m.name]
    ++ callCase framework 2 m.isAsync [construction className]
      ("instance." ++ m.name ++ "(" ++ argumentList m.parameters ++ ")")
    ++ [closing 1]

def classGroup (framework : Framework) (c : ClassItem) : List String :=
  [groupOpening 0 c.name, line 1 "it('should create an instance', () => \x7b",
    line 2 (construction c.name), line 2 (framework.instanceAssertion "instance" c.name),
    closing 1]
    ++ c.methods.flatMap (fun m => "" :: methodGroup framework c.name m)
    ++ [closing 0]

def targetGroup (framework : Framework) : Target → List String
  | .function f => functionGroup framework f
  | .classItem c => classGroup framework c

/-! ### The document -/

/-- Lines as a text, each ended by a newline. -/
def unlines (lines : List String) : String := String.join (lines.map (fun l => l ++ "\n"))

def documentLines (framework : Framework) (o : Outline) (importPath unitName : String) :
    List String :=
  (framework.importLine Framework.globals).toList
    ++ [o.importStatement importPath unitName]
    ++ o.targets.flatMap (fun t => "" :: targetGroup framework t)

/-- The test document of an outline. -/
def document (framework : Framework) (o : Outline) (importPath unitName : String) : String :=
  unlines (documentLines framework o importPath unitName)

end Scaffold

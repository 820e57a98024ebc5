/-
Scaffold/Framework.lean

Test frameworks.

A framework decides three lines of a generated document: how its globals are
imported, how a result is asserted to be defined, and how an instance is
asserted to be of its class.  The frameworks are listed in a fixed order, and
the first one is the default.
-/
namespace Scaffold

inductive Framework where
  /-- Its globals are ambient. -/
  | jest
  /-- `describe` and `it` are ambient, the assertions come from a library. -/
  | mocha
  | vitest
deriving DecidableEq, Repr

namespace Framework

def all : List Framework := [jest, mocha, vitest]

/-- The framework used where none is named. -/
def default : Framework := jest

/-- The name a framework is chosen by. -/
def id : Framework → String
  | jest => "jest"
  | mocha => "mocha"
  | vitest => "vitest"

def ofId? (name : String) : Option Framework := all.find? (fun f => f.id == name)

/-- The names of all frameworks, as an error shows them. -/
def knownIds : String := ", ".intercalate (all.map id)

/-- The names every generated document uses. -/
def globals : List String := ["describe", "it", "expect"]

/-- The line that brings names into scope, if the framework needs one. -/
def importLine (names : List String) : Framework → Option String
  | jest => none
  | mocha =>
    if names.contains "expect" then some "import \x7b expect \x7d from 'chai';" else none
  | vitest => some ("import \x7b " ++ ", ".intercalate names ++ " \x7d from 'vitest';")

def definedAssertion (result : String) : Framework → String
  | jest | vitest => "expect(" ++ result ++ ").toBeDefined();"
  | mocha => "expect(" ++ result ++ ").to.not.be.undefined;"

def instanceAssertion (value className : String) : Framework → String
  | jest | vitest => "expect(" ++ value ++ ").toBeInstanceOf(" ++ className ++ ");"
  | mocha => "expect(" ++ value ++ ").to.be.instanceOf(" ++ className ++ ");"

theorem ofId?_id (f : Framework) : ofId? f.id = some f := by cases f <;> decide

end Framework

end Scaffold

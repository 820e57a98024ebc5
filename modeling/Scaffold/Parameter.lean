/-
Scaffold/Parameter.lean

Parameter lists, and what to pass for a parameter.

A parameter list is kept as the raw texts between its top-level commas
(`splitParameters`): a comma inside any kind of bracket, angle brackets
included, belongs to the parameter around it.

A generated call passes one placeholder for each parameter.  The placeholder
is chosen by the name the parameter binds (`boundName`): the first rule of
`placeholderRules` whose word occurs in the name, whatever its case, gives the
expression, so a name that fits several rules always resolves the same way.
-/
import Scaffold.Text.Basic

namespace Scaffold

open Text

/-! ### Splitting a list -/

def isOpening (c : Char) : Bool := c == '(' || c == '[' || c == '{' || c == '<'

def isClosing (c : Char) : Bool := c == ')' || c == ']' || c == '}' || c == '>'

/-- The bracket depth after a character; a closing bracket without an open one is absorbed. -/
def bracketDepth (depth : Nat) (c : Char) : Nat :=
  if isOpening c then depth + 1 else if isClosing c then depth - 1 else depth

/-- The pieces between the commas at depth zero, read from depth `depth`; the first piece is the
rest of the one being read. -/
def splitAtCommas : (depth : Nat) → List Char → List (List Char)
  | _, [] => [[]]
  | depth, c :: cs =>
    if c = ',' ∧ depth = 0 then [] :: splitAtCommas 0 cs
    else
      match splitAtCommas (bracketDepth depth c) cs with
      | [] => [[c]]
      | piece :: pieces => (c :: piece) :: pieces

/-- The parameters of a raw parameter list: its pieces, trimmed, the blank ones left out. -/
def splitParameters (raw : List Char) : List String :=
  (((splitAtCommas 0 raw).map trim).filter (fun p => !p.isEmpty)).map String.ofList

/-! ### Placeholders -/

/-- The words of a parameter name and the expressions they call for, in order of precedence. -/
def placeholderRules : List (String × String) :=
  [("callback", "() => \x7b\x7d"), ("id", "1"), ("name", "'test'"), ("options", "\x7b\x7d"),
    ("config", "\x7b\x7d")]

/-- What is passed where no rule applies. -/
def fallbackPlaceholder : String := "undefined"

/-- The name a raw parameter binds: without a rest prefix, a default value, a type annotation and
an optional marker.  A destructuring pattern stays as it is written. -/
def boundName (raw : List Char) : List Char :=
  let trimmed := trim raw
  match trimmed with
  | '{' :: _ | '[' :: _ => trimmed
  | _ =>
    let bare := (dropRepeated ['.', '.', '.'] trimmed).takeWhile (fun c => c != '=' && c != ':')
    dropEndWhile (· == '?') (trim bare)

/-- The placeholder expression for one raw parameter. -/
def placeholder (raw : String) : String :=
  let name := (boundName raw.toList).map Char.toLower
  match placeholderRules.find? (fun rule => Text.contains rule.1.toList name) with
  | some (_, expression) => expression
  | none => fallbackPlaceholder

/-- The arguments of a call: one placeholder for each parameter. -/
def argumentList (parameters : List String) : String :=
  ", ".intercalate (parameters.map placeholder)

end Scaffold

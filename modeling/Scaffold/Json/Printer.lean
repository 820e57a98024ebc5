/-
Scaffold/Json/Printer.lean

JSON as text.

Two layouts of one value: `compact` on a single line without blanks, and
`pretty` with two spaces for each level of nesting, one item or member to a
line, and an empty array or object closed where it opens.  Both write objects
in the order the value has them, and both escape in a string exactly the
quotation mark, the backslash and the control characters below the space;
everything else stands for itself.
-/
import Scaffold.Json.Value
import Scaffold.Number.Shortest
import Scaffold.Text.Quoted

namespace Scaffold

namespace Json

/-! ### Scalars -/

/-- One character of a JSON string. -/
def escapeChar (c : Char) : List Char :=
  if c = '"' then ['\\', '"']
  else if c = '\\' then ['\\', '\\']
  else if c.toNat = 8 then ['\\', 'b']
  else if c.toNat = 9 then ['\\', 't']
  else if c.toNat = 10 then ['\\', 'n']
  else if c.toNat = 12 then ['\\', 'f']
  else if c.toNat = 13 then ['\\', 'r']
  else if c.toNat < 0x10 then ['\\', 'u', '0', '0', '0'] ++ Text.hexadecimal c.toNat
  else if c.toNat < 0x20 then ['\\', 'u', '0', '0'] ++ Text.hexadecimal c.toNat
  else [c]

def stringText (s : String) : List Char := '"' :: (s.toList.flatMap escapeChar ++ ['"'])

def intText (n : Int) : List Char :=
  if n < 0 then '-' :: Nat.toDigits 10 n.natAbs else Nat.toDigits 10 n.natAbs

/-! ### On one line -/

mutual

/-- The value on one line. -/
def compactText : Json → List Char
  | .null => "null".toList
  | .bool b => (if b then "true" else "false").toList
  | .int n => intText n
  | .float x => x.text.toList
  | .string s => stringText s
  | .array items => '[' :: (compactItems items ++ [']'])
  | .object members => '{' :: (compactMembers members ++ ['}'])

/-- The items of an array with commas between. -/
def compactItems : List Json → List Char
  | [] => []
  | [v] => v.compactText
  | v :: vs => v.compactText ++ ',' :: compactItems vs

/-- The members of an object with commas between. -/
def compactMembers : List (String × Json) → List Char
  | [] => []
  | [(k, v)] => stringText k ++ ':' :: v.compactText
  | (k, v) :: rest => stringText k ++ ':' :: (v.compactText ++ ',' :: compactMembers rest)

end

def compact (v : Json) : String := String.ofList v.compactText

/-! ### Indented -/

/-- A new line at a nesting level. -/
def newLine (level : Nat) : List Char := '\n' :: List.replicate (2 * level) ' '

mutual

/-- The value with its inner lines at one level more than `level`. -/
def prettyText (level : Nat) : Json → List Char
  | .array [] => ['[', ']']
  | .array items =>
    '[' :: (newLine (level + 1) ++ prettyItems (level + 1) items ++ newLine level ++ [']'])
  | .object [] => ['{', '}']
  | .object members =>
    '{' :: (newLine (level + 1) ++ prettyMembers (level + 1) members ++ newLine level ++ ['}'])
  | .null => "null".toList
  | .bool b => (if b then "true" else "false").toList
  | .int n => intText n
  | .float x => x.text.toList
  | .string s => stringText s

/-- The items of an array, each on a line at `level`. -/
def prettyItems (level : Nat) : List Json → List Char
  | [] => []
  | [v] => v.prettyText level
  | v :: vs => v.prettyText level ++ ',' :: (newLine level ++ prettyItems level vs)

/-- The members of an object, each on a line at `level`. -/
def prettyMembers (level : Nat) : List (String × Json) → List Char
  | [] => []
  | [(k, v)] => stringText k ++ ':' :: ' ' :: v.prettyText level
  | (k, v) :: rest =>
    stringText k ++ ':' :: ' ' ::
      (v.prettyText level ++ ',' :: (newLine level ++ prettyMembers level rest))

end

def pretty (v : Json) : String := String.ofList (v.prettyText 0)

end Json

end Scaffold

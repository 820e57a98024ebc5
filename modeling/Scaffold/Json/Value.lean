/-
Scaffold/Json/Value.lean

JSON values.

The members of an object are kept in a list: in the order of their keys when
the value comes from a reader, in the order they are written in when the
library makes the value itself.  Numbers are integers or doubles; a reader
only makes integers of machine size, and everything else a double.

* `Json.member?` — the value under a key of an object;
* `Json.sortKeys` — the same value with every object's members in key order,
  so that two values can be compared by their text.
-/
import Scaffold.Number.Double

namespace Scaffold

inductive Json where
  | null
  | bool (b : Bool)
  | int (n : Int)
  | float (x : Number.Double)
  | string (s : String)
  | array (items : List Json)
  | object (members : List (String × Json))

namespace Json

/-- An integer that is a count. -/
def nat (n : Nat) : Json := .int n

def strings (ss : List String) : Json := .array (ss.map .string)

/-- The value, or `null` for none. -/
def orNull {α : Type} (f : α → Json) : Option α → Json
  | none => .null
  | some a => f a

/-- The value under a key of an object; nothing for a value that is no object. -/
def member? (key : String) : Json → Option Json
  | .object members => (members.find? (fun m => m.1 == key)).map (·.2)
  | _ => none

/-! ### Key order -/

/-- Puts a member in its place among members in key order.  Of two members with one key the new
one is kept. -/
def putMember (key : String) (value : Json) : List (String × Json) → List (String × Json)
  | [] => [(key, value)]
  | (k, v) :: rest =>
    if key = k then (key, value) :: rest
    else if key < k then (key, value) :: (k, v) :: rest
    else (k, v) :: putMember key value rest

mutual

/-- The value with the members of every object in key order. -/
def sortKeys : Json → Json
  | .array items => .array (sortItems items)
  | .object members => .object (sortMembers members)
  | v => v

def sortItems : List Json → List Json
  | [] => []
  | v :: vs => v.sortKeys :: sortItems vs

/-- `sortKeys` on every member, and the members in key order. -/
def sortMembers : List (String × Json) → List (String × Json)
  | [] => []
  | (k, v) :: rest => putMember k v.sortKeys (sortMembers rest)

end

end Json

end Scaffold

/-
Scaffold/Json/Reader.lean

A strict reader of JSON text.

The grammar is the standard's and nothing more: no comments, no trailing
commas, no byte-order mark, no leading zeros, no control character inside a
string, and no surrogate escape without its partner.  Arrays and objects nest
at most `maxDepth` deep.  Of members with the same key the last one counts,
and an object's members come out in key order.

Every reader takes the remaining characters and returns what it read together
with the characters after it, or nothing.

Design.  `value` recurses on the depth that is left, and `items` and
`members` are given the reader of one element, so each of the three is
structural; the length of the text bounds the number of elements.
-/
import Scaffold.Json.Value

namespace Scaffold

namespace Json

/-- What a reader returns: the value and the text after it. -/
abbrev Reading (α : Type) := Option (α × List Char)

/-! ### Blanks and punctuation -/

/-- The four blanks of JSON. -/
def isSpace (c : Char) : Bool := c == ' ' || c == '\t' || c == '\n' || c == '\r'

def skipSpace (cs : List Char) : List Char := cs.dropWhile isSpace

/-! ### Strings -/

/-- Four hexadecimal digits. -/
def hexUnit : List Char → Reading Nat
  | a :: b :: c :: d :: rest =>
    match hexDigit a, hexDigit b, hexDigit c, hexDigit d with
    | some a, some b, some c, some d => some (((a * 16 + b) * 16 + c) * 16 + d, rest)
    | _, _, _, _ => none
  | _ => none
where
  /-- The value of a hexadecimal digit. -/
  hexDigit (c : Char) : Option Nat :=
    if '0' ≤ c ∧ c ≤ '9' then some (c.toNat - '0'.toNat)
    else if 'a' ≤ c ∧ c ≤ 'f' then some (c.toNat - 'a'.toNat + 10)
    else if 'A' ≤ c ∧ c ≤ 'F' then some (c.toNat - 'A'.toNat + 10)
    else none

/-- The character after `\u`: one unit, or a high surrogate and its low one. -/
def unicodeEscape (cs : List Char) : Reading Char :=
  (hexUnit cs).bind fun (u, rest) =>
    if u < 0xD800 ∨ 0xE000 ≤ u then some (Char.ofNat u, rest)
    else if 0xDC00 ≤ u then none
    else
      match rest with
      | '\\' :: 'u' :: rest' =>
        (hexUnit rest').bind fun (l, rest'') =>
          if 0xDC00 ≤ l ∧ l < 0xE000 then
            some (Char.ofNat (0x10000 + (u - 0xD800) * 0x400 + (l - 0xDC00)), rest'')
          else none
      | _ => none

/-- The character after a backslash, other than the Unicode escape. -/
def shortEscape (c : Char) : Option Char :=
  if c = '"' ∨ c = '\\' ∨ c = '/' then some c
  else if c = 'b' then some (Char.ofNat 8)
  else if c = 'f' then some (Char.ofNat 12)
  else if c = 'n' then some '\n'
  else if c = 'r' then some '\r'
  else if c = 't' then some '\t'
  else none

/-- The rest of a string after its opening quotation mark, at most `n` characters of it. -/
def stringBody : Nat → List Char → Reading (List Char)
  | 0, _ => none
  | _ + 1, [] => none
  | n + 1, c :: cs =>
    if c = '"' then some ([], cs)
    else if c = '\\' then
      match cs with
      | [] => none
      | e :: rest =>
        let escape : Reading Char :=
          if e = 'u' then unicodeEscape rest else (shortEscape e).map (fun x => (x, rest))
        escape.bind fun (x, rest') => (stringBody n rest').map fun (xs, r) => (x :: xs, r)
    else if c.toNat < 0x20 then none
    else (stringBody n cs).map fun (xs, r) => (c :: xs, r)

/-- A string, from its opening quotation mark on. -/
def string? : List Char → Reading String
  | '"' :: cs => (stringBody (cs.length + 1) cs).map fun (xs, rest) => (String.ofList xs, rest)
  | _ => none

/-! ### Numbers -/

/-- The largest unsigned integer of machine size. -/
def maxUnsigned : Nat := Nat.pow 2 64 - 1

/-- The largest exponent that is read as a number. -/
def maxPower : Nat := Nat.pow 2 31 - 1

def digitValue (c : Char) : Nat := c.toNat - '0'.toNat

/-- The leading digits that keep the significand of machine size, and the digits after them. -/
def significand (start : Nat) : List Char → Nat × List Char
  | [] => (start, [])
  | d :: ds =>
    let next := start * 10 + digitValue d
    if next ≤ maxUnsigned then significand next ds else (start, d :: ds)

def decimal (ds : List Char) : Nat := ds.foldl (fun n d => n * 10 + digitValue d) 0

/-- The double for a significand and a power of ten written in digits. -/
def scaled (negative : Bool) (m : Nat) (k : Int) : Option Json :=
  (Number.ofDecimal m k).map fun x => .float ⟨negative, x⟩

/-- A number from its parts.  Integer digits past machine size only count as tens, fraction digits
past it are ignored, and a power too large to be read is a zero or out of range. -/
def number (negative : Bool) (whole fraction : List Char) (power : Option (Bool × List Char)) :
    Option Json :=
  let (m, more) := significand 0 whole
  match more, fraction, power with
  | [], [], none =>
    if !negative then some (.int m)
    else if m = 0 ∨ Nat.pow 2 63 < m then scaled true m 0
    else some (.int (-m))
  | _, _, _ =>
    let (m', ignored) := significand m fraction
    let k : Int := more.length - (fraction.length - ignored.length : Nat)
    match power with
    | none => scaled negative m' k
    | some (down, ds) =>
      let e := decimal ds
      if maxPower < e then
        if m' ≠ 0 ∧ !down then none else some (.float ⟨negative, ⟨0, Number.minExponent⟩⟩)
      else scaled negative m' (if down then k - e else k + e)

/-- A run of at least one digit. -/
def digits1 (cs : List Char) : Reading (List Char) :=
  let (ds, rest) := cs.span Char.isDigit
  if ds.isEmpty then none else some (ds, rest)

/-- The digits after a decimal point, none without one. -/
def fraction? : List Char → Reading (List Char)
  | '.' :: cs => digits1 cs
  | cs => some ([], cs)

/-- An exponent: whether it is negative, and its digits. -/
def power? (cs : List Char) : Reading (Option (Bool × List Char)) :=
  match cs with
  | c :: rest =>
    if c = 'e' ∨ c = 'E' then
      let (down, rest) : Bool × List Char :=
        match rest with
        | '-' :: r => (true, r)
        | '+' :: r => (false, r)
        | r => (false, r)
      (digits1 rest).map fun (ds, r) => (some (down, ds), r)
    else some (none, cs)
  | [] => some (none, [])

def number? (cs : List Char) : Reading Json :=
  let (negative, cs) : Bool × List Char :=
    match cs with
    | '-' :: rest => (true, rest)
    | _ => (false, cs)
  (digits1 cs).bind fun (whole, rest) =>
    if whole.head? = some '0' ∧ 1 < whole.length then none
    else
      (fraction? rest).bind fun (fraction, rest) =>
        (power? rest).bind fun (power, rest) =>
          (number negative whole fraction power).map fun v => (v, rest)

/-! ### Values -/

/-- The items of an array after the first blank, up to the closing bracket; at most `n`. -/
def items (item : List Char → Reading Json) : Nat → List Char → Reading (List Json)
  | 0, _ => none
  | n + 1, cs =>
    (item cs).bind fun (v, rest) =>
      match skipSpace rest with
      | ']' :: rest' => some ([v], rest')
      | ',' :: rest' => (items item n rest').map fun (vs, r) => (v :: vs, r)
      | _ => none

/-- The members of an object up to the closing brace, in the order of the text; at most `n`. -/
def members (item : List Char → Reading Json) :
    Nat → List Char → Reading (List (String × Json))
  | 0, _ => none
  | n + 1, cs =>
    (string? (skipSpace cs)).bind fun (k, rest) =>
      match skipSpace rest with
      | ':' :: rest' =>
        (item rest').bind fun (v, rest'') =>
          match skipSpace rest'' with
          | '}' :: r => some ([(k, v)], r)
          | ',' :: r => (members item n r).map fun (ms, r') => ((k, v) :: ms, r')
          | _ => none
      | _ => none

/-- Members in key order, the last of each key. -/
def collect (ms : List (String × Json)) : List (String × Json) :=
  ms.foldl (fun acc m => putMember m.1 m.2 acc) []

/-- The deepest nesting of arrays and objects that is read. -/
def maxDepth : Nat := 127

/-- A value with blanks before it, nesting at most `depth` deep. -/
def value : (depth : Nat) → List Char → Reading Json
  | depth, cs =>
    match skipSpace cs with
    | 'n' :: 'u' :: 'l' :: 'l' :: rest => some (.null, rest)
    | 't' :: 'r' :: 'u' :: 'e' :: rest => some (.bool true, rest)
    | 'f' :: 'a' :: 'l' :: 's' :: 'e' :: rest => some (.bool false, rest)
    | '"' :: rest => (string? ('"' :: rest)).map fun (s, r) => (.string s, r)
    | '[' :: rest =>
      match depth with
      | 0 => none
      | depth + 1 =>
        match skipSpace rest with
        | ']' :: r => some (.array [], r)
        | _ => (items (value depth) rest.length rest).map fun (vs, r) => (.array vs, r)
    | '{' :: rest =>
      match depth with
      | 0 => none
      | depth + 1 =>
        match skipSpace rest with
        | '}' :: r => some (.object [], r)
        | _ => (members (value depth) rest.length rest).map fun (ms, r) => (.object (collect ms), r)
    | cs' => number? cs'

/-- The value a whole text stands for, or nothing if the text is not JSON. -/
def parse (text : String) : Option Json :=
  match value maxDepth text.toList with
  | some (v, rest) => if (skipSpace rest).isEmpty then some v else none
  | none => none

end Json

end Scaffold

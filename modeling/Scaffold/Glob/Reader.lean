/-
Scaffold/Glob/Reader.lean

Reading glob patterns.

The reader keeps the branch it is writing and a frame for each open group
(`Branches`).  A brace opens a frame, a comma inside one ends an alternative,
and the closing brace turns the frame into one token.  Outside every group a
comma stands for itself.

`**` means any number of components only where it is a whole component; what
comes before and after it decides (`Branches.doubleStar`).  Anywhere else it
is two runs.

There are five ways to fail (`GlobError`), and the first one met is reported.
-/
import Scaffold.Glob.Basic

namespace Scaffold

/-- Why a text is no glob. -/
inductive GlobError where
  | unclosedClass
  | invalidRange (low high : Char)
  | unopenedGroup
  | unclosedGroup
  | danglingEscape
deriving DecidableEq, Repr

def GlobError.reason : GlobError → String
  | unclosedClass => "unclosed character class; missing ']'"
  | invalidRange low high =>
    "invalid range; '" ++ String.singleton low ++ "' > '" ++ String.singleton high ++ "'"
  | unopenedGroup =>
    "unopened alternate group; missing '\x7b' (maybe escape '\x7d' with '[\x7d]'?)"
  | unclosedGroup =>
    "unclosed alternate group; missing '\x7d' (maybe escape '\x7b' with '[\x7b]'?)"
  | danglingEscape => "dangling '\\'"

def GlobError.message (pattern : String) (e : GlobError) : String :=
  "error parsing glob '" ++ pattern ++ "': " ++ e.reason

/-! ### Branches -/

/-- An open group: the branch around it, and its finished alternatives, both latest first. -/
structure Frame where
  outer : List Token
  finished : List (List Token)

/-- The branch being read, latest token first, and the groups around it, innermost first. -/
structure Branches where
  tokens : List Token
  frames : List Frame

namespace Branches

def push (b : Branches) (t : Token) : Branches := { b with tokens := t :: b.tokens }

def openGroup (b : Branches) : Branches := ⟨[], ⟨b.tokens, []⟩ :: b.frames⟩

def comma (b : Branches) : Branches :=
  match b.frames with
  | [] => b.push (.literal ',')
  | f :: fs => ⟨[], ⟨f.outer, b.tokens.reverse :: f.finished⟩ :: fs⟩

def closeGroup (b : Branches) : Except GlobError Branches :=
  match b.frames with
  | [] => .error .unopenedGroup
  | f :: fs =>
    .ok ⟨Token.ofAlternatives (b.tokens.reverse :: f.finished).reverse :: f.outer, fs⟩

/-- Puts a token for any number of components in the place of the last token, unless that already
stands for the beginning or the end. -/
def replaceLast (b : Branches) (t : Token) : Branches :=
  match b.tokens with
  | .leading :: _ | .trailing :: _ => b
  | _ :: ts => { b with tokens := t :: ts }
  | [] => b.push t

/-- Reads `**` between two characters, and tells whether the slash after it belongs to it. -/
def doubleStar (b : Branches) (prev next : Option Char) : Branches × Bool :=
  let runs := (b.push .run).push .run
  if b.tokens.isEmpty then
    if next = none ∨ next = some '/' then (b.push .leading, true) else (runs, false)
  else if prev ≠ some '/' ∧ (b.frames.isEmpty ∨ (prev ≠ some ',' ∧ prev ≠ some '{')) then
    (runs, false)
  else if next = none ∨ (!b.frames.isEmpty ∧ (next = some ',' ∨ next = some '}')) then
    (b.replaceLast .trailing, false)
  else if next = some '/' then (b.replaceLast .middle, true)
  else (runs, false)

end Branches

/-! ### Classes -/

/-- A class while it is read. -/
structure ClassDraft where
  negated : Bool
  /-- The ranges so far, latest first. -/
  ranges : List CharRange
  /-- Whether nothing has been read yet. -/
  isFirst : Bool
  /-- Whether a hyphen waits for the upper end of the last range. -/
  inRange : Bool

namespace ClassDraft

/-- Adds a character, as the upper end of the last range if one is awaited. -/
def add (d : ClassDraft) (c : Char) : Except GlobError ClassDraft :=
  if d.inRange then
    match d.ranges with
    | (low, _) :: rs =>
      if c < low then .error (.invalidRange low c)
      else .ok { d with ranges := (low, c) :: rs, isFirst := false, inRange := false }
    | [] => .ok { d with ranges := [(c, c)], isFirst := false, inRange := false }
  else .ok { d with ranges := (c, c) :: d.ranges, isFirst := false }

/-- Reads a hyphen: a character of its own at the front or after another hyphen. -/
def hyphen (d : ClassDraft) : Except GlobError ClassDraft :=
  if d.isFirst || d.inRange then d.add '-' else .ok { d with inRange := true }

/-- The token of a closed class.  A hyphen still waiting stands for itself. -/
def close (d : ClassDraft) : Token :=
  .cls d.negated (if d.inRange then ('-', '-') :: d.ranges else d.ranges).reverse

end ClassDraft

/-! ### Reading -/

mutual

/-- Reads on in a branch; `prev` is the character before. -/
def readBranch (prev : Option Char) (b : Branches) : List Char → Except GlobError Branches
  | [] => .ok b
  | '*' :: '*' :: cs =>
    let (b', eatsSlash) := b.doubleStar prev cs.head?
    match cs with
    | '/' :: rest =>
      if eatsSlash then readBranch (some '/') b' rest else readBranch (some '*') b' ('/' :: rest)
    | rest => readBranch (some '*') b' rest
  | '[' :: '!' :: cs => readClass b ⟨true, [], true, false⟩ cs
  | '[' :: '^' :: cs => readClass b ⟨true, [], true, false⟩ cs
  | '[' :: cs => readClass b ⟨false, [], true, false⟩ cs
  | '\\' :: c :: cs => readBranch (some c) (b.push (.literal c)) cs
  | ['\\'] => .error .danglingEscape
  | c :: cs =>
    if c = '?' then readBranch (some c) (b.push .anyByte) cs
    else if c = '*' then readBranch (some c) (b.push .run) cs
    else if c = '{' then readBranch (some c) b.openGroup cs
    else if c = ',' then readBranch (some c) b.comma cs
    else if c = '}' then
      match b.closeGroup with
      | .ok b' => readBranch (some c) b' cs
      | .error e => .error e
    else readBranch (some c) (b.push (.literal c)) cs

def readClass (b : Branches) (d : ClassDraft) : List Char → Except GlobError Branches
  | [] => .error .unclosedClass
  | c :: cs =>
    if c = ']' ∧ !d.isFirst then readBranch (some ']') (b.push d.close) cs
    else
      match (if c = '-' then d.hyphen else d.add c) with
      | .ok d' => readClass b d' cs
      | .error e => .error e

end

/-- The glob a text writes. -/
def Glob.compile (pattern : String) : Except GlobError Glob :=
  match readBranch none ⟨[], []⟩ pattern.toList with
  | .error e => .error e
  | .ok b => if b.frames.isEmpty then .ok (Glob.ofTokens pattern b.tokens.reverse)
    else .error .unclosedGroup

end Scaffold

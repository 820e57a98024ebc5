/-
Scaffold/Extraction.lean

The outline of a source text.

`extractWith` runs a list of recognizers over a text, gives every class the
methods of its body, and sorts each of the three sequences by offset; the sort
is stable, so where two items share an offset the recognizer that ran first
comes first.  `extract` uses all recognizers.

Extraction never fails: what no recognizer knows is left out.
-/
import Scaffold.ClassBody

namespace Scaffold

/-! ### Collecting what was found -/

def Found.function? : Found → Option FunctionItem
  | .function f => some f
  | _ => none

/-- The methods of a body; none where there is no body. -/
def bodyMethods (source : List Char) (map : CodeMap) : Option Span → List MethodItem
  | some span => ClassBody.methods { source, map, span }
  | none => []

def Found.class? (source : List Char) (map : CodeMap) : Found → Option ClassItem
  | .classNamed name offset =>
    some ⟨name, bodyMethods source map (bodySpan source map offset), offset⟩
  | _ => none

def Found.export? : Found → Option ExportItem
  | .exporting e => some e
  | _ => none

/-- A list in ascending order of offset; items with one offset keep their order. -/
def sortByOffset {α : Type} (offset : α → Nat) (xs : List α) : List α :=
  xs.mergeSort (fun x y => decide (offset x ≤ offset y))

/-! ### Extraction -/

/-- What the recognizers find in a text, one recognizer after another. -/
def findings (recognizers : List Recognizer) (source : List Char) (map : CodeMap) : List Found :=
  recognizers.flatMap (fun r => r.find source map)

/-- The outline a list of recognizers makes of a text. -/
def extractWith (recognizers : List Recognizer) (source : String) : Outline :=
  let cs := source.toList
  let map := CodeMap.ofText cs
  let found := findings recognizers cs map
  { functions := sortByOffset (·.offset) (found.filterMap Found.function?)
    classes := sortByOffset (·.offset) (found.filterMap (Found.class? cs map))
    exports := sortByOffset (·.offset) (found.filterMap Found.export?) }

def extract (source : String) : Outline := extractWith Recognizer.all source

end Scaffold

/-
Scaffold/Run/Basic.lean

A run over all sources.

`plan` checks that the source root is a directory and lists the sources.
`execute` processes a list of sources, each on the file system the one before
left behind, and sums up what became of them.  A source that fails never stops
the others; the failures are reported in the order of their paths.

Summaries combine (`Summary.merge`) in any grouping, and the empty one changes
nothing.
-/
import Scaffold.Run.Discovery
import Scaffold.Run.Unit
import Scaffold.Settings.Location

namespace Scaffold

/-! ### Summaries -/

/-- What became of the sources of a run. -/
structure Summary where
  generated : Nat
  skipped : Nat
  failures : List UnitError
deriving DecidableEq, Repr

namespace Summary

def empty : Summary := ⟨0, 0, []⟩

/-- The summary of one source. -/
def ofOutcome : Outcome → Summary
  | .generated .. => ⟨1, 0, []⟩
  | .skipped .. => ⟨0, 1, []⟩
  | .failed e => ⟨0, 0, [e]⟩

def merge (a b : Summary) : Summary :=
  ⟨a.generated + b.generated, a.skipped + b.skipped, a.failures ++ b.failures⟩

def failed (s : Summary) : Nat := s.failures.length

def total (s : Summary) : Nat := s.generated + s.skipped + s.failed

/-- The summary of several sources, failures in their order. -/
def ofOutcomes (outcomes : List Outcome) : Summary :=
  (outcomes.map ofOutcome).foldl merge empty

/-- The summary with its failures in the order of paths; failures with one path keep theirs. -/
def sortFailures (s : Summary) : Summary :=
  { s with failures := s.failures.mergeSort (fun a b => a.path.le b.path) }

end Summary

/-! ### Runs -/

/-- The state after several sources, what became of each, and what there is to report. -/
structure RunResult where
  tree : FileTree
  outcomes : List Outcome
  events : List Event
  summary : Summary

/-- The sources of a run, if there is a source root to look for them in. -/
def plan (t : FileTree) (r : Resolved) : Except Failure (List Path) :=
  if t.isDirectory r.srcRoot then .ok (discoverSources t r)
  else .error (.missingSourceRoot r.srcRoot)

/-- Processes sources one after another. -/
def processAll (r : Resolved) (dryRun : Bool) : FileTree → List Path →
    FileTree × List (Outcome × List Event)
  | t, [] => (t, [])
  | t, source :: sources =>
    let result := processUnit r r.writePolicy dryRun t source
    let (t', others) := processAll r dryRun result.tree sources
    (t', (result.outcome, result.events) :: others)

/-- Processes sources and sums up. -/
def execute (t : FileTree) (r : Resolved) (sources : List Path) (dryRun : Bool) : RunResult :=
  let (t', results) := processAll r dryRun t sources
  let outcomes := results.map (·.1)
  let summary := (Summary.ofOutcomes outcomes).sortFailures
  { tree := t'
    outcomes
    events := results.flatMap (·.2)
      ++ [.finished summary.generated summary.skipped summary.failed dryRun]
    summary }

def run (t : FileTree) (r : Resolved) (dryRun : Bool) : Except Failure RunResult :=
  (plan t r).map fun sources => execute t r sources dryRun

end Scaffold

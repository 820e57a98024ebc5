/-
Scaffold/CommandLine/Program.lean

The program behind the command line.

`Options.execute` takes options, a working directory and a file system, and
returns everything the call does (`Report`): the exit code, what is printed,
what is reported, and the file system it leaves behind.

With `--dump-model` the outline of one file is printed and nothing else
happens.  Otherwise the settings are loaded, the sources are planned and
processed, and the counts are printed.  The exit code is 1 when something
stops the run before it begins, and 2 when `--strict` is given and a source
failed.
-/
import Scaffold.CommandLine.Options
import Scaffold.Run.Basic

namespace Scaffold

/-- Everything a call of the program does. -/
structure Report where
  exitCode : Nat
  /-- What goes to standard output. -/
  output : String
  /-- What goes to standard error besides the events. -/
  error : String
  events : List Event
  tree : FileTree

/-! ### Errors -/

/-- A cause in an error, each of its lines indented; in a list of causes it is numbered. -/
def causeText (number : Option Nat) (cause : String) : String :=
  let indent := match number with
    | some _ => "       "
    | none => "    "
  let label := match number with
    | some n =>
      let digits := toString n
      String.ofList (List.replicate (5 - digits.length) ' ') ++ digits ++ ": "
    | none => "    "
  let lines := (Text.splitWhere (· == '\n') cause.toList).map String.ofList
  label ++ ("\n" ++ indent).intercalate lines

/-- An error with its causes, as the program prints it. -/
def errorText : List String → String
  | [] => ""
  | [outermost] => "Error: " ++ outermost ++ "\n"
  | [outermost, cause] =>
    "Error: " ++ outermost ++ "\n\nCaused by:\n" ++ causeText none cause ++ "\n"
  | outermost :: causes =>
    "Error: " ++ outermost ++ "\n\nCaused by:"
      ++ String.join (causes.zipIdx.map fun (cause, n) => "\n" ++ causeText (some n) cause) ++ "\n"

/-- The report of a call that stopped with an error. -/
def Report.ofChain (t : FileTree) (events : List Event) (chain : List String) : Report :=
  { exitCode := 1, output := "", error := errorText chain, events, tree := t }

/-- The report of a call that printed something and changed nothing. -/
def Report.printing (t : FileTree) (events : List Event) (output : String) : Report :=
  { exitCode := 0, output, error := "", events, tree := t }

/-! ### The program -/

def countsLine (s : Summary) (dryRun : Bool) : String :=
  "Generated " ++ toString s.generated ++ ", skipped " ++ toString s.skipped ++ ", failed "
    ++ toString s.failed ++ (if dryRun then " (dry run)" else "") ++ "\n"

namespace Options

/-- The least level that is reported. -/
def threshold (o : Options) : Level := if o.has .verbose then .debug else .warn

def dump (t : FileTree) (here : Path) (file : Path) : Report :=
  match analyzeFile t (here.join file) file with
  | .ok outline => .printing t [] (outline.toJson.pretty ++ "\n")
  | .error e => .ofChain t [] (("failed to analyze " ++ file.toString) :: e.chain)

/-- Processes the sources of resolved settings; `events` is what was reported before. -/
def process (o : Options) (t : FileTree) (events : List Event) (r : Resolved) : Report :=
  match plan t r with
  | .error e => .ofChain t events e.chain
  | .ok [] =>
    .printing t events ("No source files matched under " ++ r.srcRoot.toString ++ "\n")
  | .ok sources =>
    let dryRun := o.has .dryRun
    let result := Scaffold.execute t r sources dryRun
    { exitCode := if o.has .strict && decide (0 < result.summary.failed) then 2 else 0
      output := countsLine result.summary dryRun
      error := ""
      events := events ++ result.events
      tree := result.tree }

def generate (o : Options) (t : FileTree) (here : Path) : Report :=
  let context := "failed to load configuration"
  match loadSettings t here here ((o.value? .config).map Path.ofString) with
  | .error e => .ofChain t [] (context :: e.chain)
  | .ok loaded =>
    let compiled := (loaded.1.merge o.overrides).compiledGlobs.map fun g =>
      Event.globCompiled g.pattern g.expression.wholeText
    let reading := loaded.2.toList.map Event.settingsLoaded ++ compiled
    match resolveLoaded here o.overrides loaded with
    | .error e => .ofChain t reading (context :: e.chain)
    | .ok r => o.process t (reading ++ loaded.2.toList.map Event.settingsUsed) r

/-- Everything a call with these options does in the directory `here`. -/
def execute (o : Options) (t : FileTree) (here : Path) : Report :=
  let report :=
    match o.value? .dumpModel with
    | some file => dump t here (Path.ofString file)
    | none => o.generate t here
  { report with events := report.events.filter (fun e => o.threshold.reaches e.level) }

end Options

end Scaffold

/-
Scaffold/Proofs/CommandLine/Effect.lean

Exit codes of the command line, and what a call leaves behind.

A call can end in four ways.  It prints the outline of one file; it stops
before the first source, as the file, the settings or the source root is not to
be had; it finds no sources; or it processes all it has planned.  Only the last
one can change anything, and only without `--dry-run` (`Ends`).

Which way it goes is told by the arguments and the file system alone, so the
exit code is, too (`execute_honours_contract`).
-/
import Scaffold.CommandLine.Program
import Scaffold.Proofs.CommandLine.Arguments
import Scaffold.Proofs.Run.Summary

namespace Scaffold

theorem tree_execute_dry (t : FileTree) (r : Resolved) (units : List Path) :
    (execute t r units true).tree = t := by
  simp only [execute, processAll_dry]

/-! ### Ways to end -/

namespace Options

variable {o : Options} {t : FileTree} {here : Path}

/-- The settings of a call: those of the given document or of the project, with the options laid
over them. -/
def settings (o : Options) (t : FileTree) (here : Path) : Except Failure Resolved :=
  loadAndResolve t here ((o.value? .config).map Path.ofString) o.overrides here

/-- The sources a call is going to process, and the settings it does so by. -/
structure Plans (o : Options) (t : FileTree) (here : Path) (r : Resolved) (units : List Path) :
    Prop where
  settings : o.settings t here = .ok r
  plan : Scaffold.plan t r = .ok units

/-- The settings or the source root are not to be had. -/
def SetupFails (o : Options) (t : FileTree) (here : Path) : Prop :=
  (∃ e, o.settings t here = .error e) ∨
    ∃ r e, o.settings t here = .ok r ∧ Scaffold.plan t r = .error e

theorem Plans.not_setupFails {r : Resolved} {units : List Path} (h : o.Plans t here r units) :
    ¬ o.SetupFails t here := by
  rintro (⟨e, he⟩ | ⟨r', e, hr', he⟩)
  · cases he.symm.trans h.settings
  · obtain rfl : r' = r := by simpa using hr'.symm.trans h.settings
    cases he.symm.trans h.plan

theorem Plans.unique {r r' : Resolved} {units units' : List Path} (h : o.Plans t here r units)
    (h' : o.Plans t here r' units') : r' = r ∧ units' = units := by
  obtain rfl : r' = r := by simpa using h'.settings.symm.trans h.settings
  exact ⟨rfl, by simpa using h'.plan.symm.trans h.plan⟩

/-- A call without `--dump-model` stops when its settings are not to be had, and otherwise goes on
with them. -/
theorem generate_cases (o : Options) (t : FileTree) (here : Path) :
    (∃ e events chain, o.settings t here = .error e ∧ o.generate t here = .ofChain t events chain) ∨
      ∃ r events, o.settings t here = .ok r ∧ o.generate t here = o.process t events r := by
  rw [settings, loadAndResolve, generate]
  cases loadSettings t here here ((o.value? .config).map Path.ofString) with
  | error e => exact .inl ⟨e, _, _, rfl, rfl⟩
  | ok loaded =>
    cases hresolve : resolveLoaded here o.overrides loaded with
    | error e => exact .inl ⟨e, _, _, hresolve, by simp only [hresolve]; rfl⟩
    | ok r => exact .inr ⟨r, _, hresolve, by simp only [hresolve]; rfl⟩

/-- How a call ends. -/
inductive Ends (o : Options) (t : FileTree) (here : Path) (report : Report) : Prop
  /-- The outline of a file is printed. -/
  | printed {file text : String} (dump : o.value? .dumpModel = some file)
    (read : t.readText (here.join (.ofString file)) = .ok text)
    (code : report.exitCode = 0) (tree : report.tree = t)
  /-- The file is not to be read. -/
  | unreadable {file : String} (dump : o.value? .dumpModel = some file)
    (read : ∀ text, t.readText (here.join (.ofString file)) ≠ .ok text)
    (code : report.exitCode = 1) (tree : report.tree = t)
  /-- There are no settings, or no source root. -/
  | unprepared (dump : o.value? .dumpModel = none) (setup : o.SetupFails t here)
    (code : report.exitCode = 1) (tree : report.tree = t)
  /-- There are no sources. -/
  | idle {r : Resolved} (dump : o.value? .dumpModel = none) (plans : o.Plans t here r [])
    (code : report.exitCode = 0) (tree : report.tree = t)
  /-- The sources are processed. -/
  | processed {r : Resolved} {units : List Path} (dump : o.value? .dumpModel = none)
    (plans : o.Plans t here r units) (some_units : units ≠ [])
    (code : report.exitCode = if o.has .strict
      && decide (0 < (Scaffold.execute t r units (o.has .dryRun)).summary.failed) then 2 else 0)
    (output : report.output
      = countsLine (Scaffold.execute t r units (o.has .dryRun)).summary (o.has .dryRun))
    (tree : report.tree = (Scaffold.execute t r units (o.has .dryRun)).tree)

/-- **Every call ends in one of these ways.** -/
theorem ends_execute (o : Options) (t : FileTree) (here : Path) :
    Ends o t here (o.execute t here) := by
  cases hdump : o.value? .dumpModel with
  | some file =>
    cases hread : t.readText (here.join (.ofString file)) with
    | ok text =>
      refine .printed hdump hread ?_ ?_ <;>
        simp only [execute, hdump, dump, analyzeFile, hread] <;> rfl
    | error e =>
      refine .unreadable hdump (by simp [hread]) ?_ ?_ <;>
        simp only [execute, hdump, dump, analyzeFile, hread] <;> rfl
  | none =>
    rcases generate_cases o t here with
      ⟨e, events, chain, hsettings, hgen⟩ | ⟨r, events, hsettings, hgen⟩
    · -- the settings do not load
      refine .unprepared hdump (.inl ⟨e, hsettings⟩) ?_ ?_ <;>
        simp only [execute, hdump, hgen] <;> rfl
    · -- they load, and there may be no source root
      cases hplan : plan t r with
      | error e =>
        refine .unprepared hdump (.inr ⟨r, e, hsettings, hplan⟩) ?_ ?_ <;>
          simp only [execute, hdump, hgen, process, hplan] <;> rfl
      | ok units =>
        cases units with
        | nil =>
          refine .idle hdump ⟨hsettings, hplan⟩ ?_ ?_ <;>
            simp only [execute, hdump, hgen, process, hplan] <;> rfl
        | cons u units =>
          refine .processed hdump ⟨hsettings, hplan⟩ (List.cons_ne_nil u units) ?_ ?_ ?_ <;>
            simp only [execute, hdump, hgen, process, hplan]

/-! ### What the arguments say -/

/-- The arguments ask for the outline of a file. -/
def Dumps (args : List String) : Prop := ∃ file, Gives args .dumpModel file

/-- The file whose outline is asked for is no text, or none is asked for and the setup fails. -/
def Stops (args : List String) (o : Options) (t : FileTree) (here : Path) : Prop :=
  (∃ file, Gives args .dumpModel file ∧ ∀ text, t.readText (here.join (.ofString file)) ≠ .ok text)
    ∨ ¬ Dumps args ∧ o.SetupFails t here

/-- One of the sources that are planned fails, and the arguments are strict about it. -/
def FailsStrictly (args : List String) (o : Options) (t : FileTree) (here : Path) : Prop :=
  ¬ Dumps args ∧ "--strict" ∈ args ∧ ∃ r units, o.Plans t here r units ∧
    ∃ e, Outcome.failed e ∈ (Scaffold.execute t r units (args.contains "--dry-run")).outcomes

/-- What a call owes to its arguments. -/
structure ExitContract (args : List String) (o : Options) (t : FileTree) (here : Path)
    (report : Report) : Prop where
  stops : report.exitCode = 1 ↔ Stops args o t here
  stops_unchanged : Stops args o t here → report.tree = t
  fails : report.exitCode = 2 ↔ ¬ Stops args o t here ∧ FailsStrictly args o t here
  succeeds : report.exitCode = 0 ↔ ¬ Stops args o t here ∧ ¬ FailsStrictly args o t here
  unchanged : Dumps args ∨ "--dry-run" ∈ args → report.tree = t
  counts : ∀ r units, ¬ Dumps args → o.Plans t here r units → units ≠ [] →
    ∃ generated skipped failed : Nat,
      report.output = "Generated " ++ toString generated ++ ", skipped " ++ toString skipped
        ++ ", failed " ++ toString failed ++ (if "--dry-run" ∈ args then " (dry run)" else "")
        ++ "\n"
      ∧ generated + skipped + failed = units.length

section Arguments

variable {args : List String} {report : Report} {r : Resolved} {units : List Path}

theorem not_dumps_iff (h : parse args = .ok o) : ¬ Dumps args ↔ o.value? .dumpModel = none :=
  not_exists.trans (value?_eq_none_iff h).symm

theorem dumps_of_value (h : parse args = .ok o) {file : String}
    (hdump : o.value? .dumpModel = some file) : Dumps args :=
  ⟨file, (value?_iff_gives h).mp hdump⟩

theorem has_strict_iff (h : parse args = .ok o) : o.has .strict ↔ "--strict" ∈ args := by
  rw [has_iff_mem h]
  simp [Switch.names]

theorem has_dryRun_eq (h : parse args = .ok o) : o.has .dryRun = args.contains "--dry-run" := by
  rw [Bool.eq_iff_iff, has_iff_mem h]
  simp [Switch.names]

/-- A file whose outline is asked for stops the call when it is no text. -/
theorem stops_iff_of_dump (h : parse args = .ok o) {file : String}
    (hdump : o.value? .dumpModel = some file) :
    Stops args o t here ↔ ∀ text, t.readText (here.join (.ofString file)) ≠ .ok text := by
  simp only [Stops, dumps_of_value h hdump, not_true_eq_false, false_and, or_false,
    ← value?_iff_gives h, hdump, Option.some.injEq, exists_eq_left']

theorem stops_iff_of_no_dump (h : parse args = .ok o) (hdump : o.value? .dumpModel = none) :
    Stops args o t here ↔ o.SetupFails t here := by
  have hgives := (value?_eq_none_iff h).mp hdump
  simp only [Stops, (not_dumps_iff h).mpr hdump, not_false_eq_true, true_and, hgives, false_and,
    exists_false, false_or]

theorem not_failsStrictly_of_dump (h : parse args = .ok o) {file : String}
    (hdump : o.value? .dumpModel = some file) : ¬ FailsStrictly args o t here :=
  fun hfails => hfails.1 (dumps_of_value h hdump)

/-- Without planned sources, none fails. -/
theorem not_failsStrictly_of_setupFails (hsetup : o.SetupFails t here) :
    ¬ FailsStrictly args o t here := by
  rintro ⟨-, -, r, units, hplans, -⟩
  exact hplans.not_setupFails hsetup

theorem failsStrictly_iff_of_plans (h : parse args = .ok o) (hdump : o.value? .dumpModel = none)
    (hplans : o.Plans t here r units) :
    FailsStrictly args o t here
      ↔ o.has .strict ∧ 0 < (Scaffold.execute t r units (o.has .dryRun)).summary.failed := by
  rw [FailsStrictly, failed_summary_pos_iff, has_dryRun_eq h, has_strict_iff h]
  constructor
  · rintro ⟨-, hstrict, r', units', hplans', hfailed⟩
    obtain ⟨rfl, rfl⟩ := hplans.unique hplans'
    exact ⟨hstrict, hfailed⟩
  · rintro ⟨hstrict, hfailed⟩
    exact ⟨(not_dumps_iff h).mpr hdump, hstrict, r, units, hplans, hfailed⟩

/-- What stops a call, and only that, makes its exit code 1. -/
theorem Ends.stops_iff (hends : Ends o t here report) (h : parse args = .ok o) :
    Stops args o t here ↔ report.exitCode = 1 := by
  cases hends with
  | printed hdump hread code tree =>
    rw [stops_iff_of_dump h hdump, code]
    exact iff_of_false (fun hno => hno _ hread) Nat.zero_ne_one
  | unreadable hdump hread code tree =>
    rw [stops_iff_of_dump h hdump, code]
    exact iff_of_true hread rfl
  | unprepared hdump hsetup code tree =>
    rw [stops_iff_of_no_dump h hdump, code]
    exact iff_of_true hsetup rfl
  | idle hdump hplans code tree =>
    rw [stops_iff_of_no_dump h hdump, code]
    exact iff_of_false hplans.not_setupFails Nat.zero_ne_one
  | processed hdump hplans hne code output tree =>
    rw [stops_iff_of_no_dump h hdump, code]
    refine iff_of_false hplans.not_setupFails ?_
    split_ifs <;> decide

/-- A failure the arguments are strict about, and only that, makes it 2. -/
theorem Ends.fails_iff (hends : Ends o t here report) (h : parse args = .ok o) :
    FailsStrictly args o t here ↔ report.exitCode = 2 := by
  cases hends with
  | printed hdump hread code tree =>
    rw [code]
    exact iff_of_false (not_failsStrictly_of_dump h hdump) (by decide)
  | unreadable hdump hread code tree =>
    rw [code]
    exact iff_of_false (not_failsStrictly_of_dump h hdump) (by decide)
  | unprepared hdump hsetup code tree =>
    rw [code]
    exact iff_of_false (not_failsStrictly_of_setupFails hsetup) (by decide)
  | idle hdump hplans code tree =>
    rw [code, failsStrictly_iff_of_plans h hdump hplans, failed_summary_pos_iff]
    exact iff_of_false (by simp [Scaffold.execute, processAll]) (by decide)
  | processed hdump hplans hne code output tree =>
    rw [code, failsStrictly_iff_of_plans h hdump hplans]
    split_ifs with hfails <;> simpa using hfails

theorem Ends.exitCode_le (hends : Ends o t here report) : report.exitCode ≤ 2 := by
  cases hends with
  | processed _ _ _ code =>
    rw [code]
    split_ifs <;> decide
  | _ => omega

/-- Nothing changes before the first source, and nothing at all in a dry run. -/
theorem Ends.tree_eq (hends : Ends o t here report)
    (hstay : o.value? .dumpModel ≠ none ∨ o.has .dryRun ∨ report.exitCode = 1) :
    report.tree = t := by
  cases hends with
  | processed hdump _ _ code _ tree =>
    rcases hstay with hno | hdry | hone
    · exact absurd hdump hno
    · rw [tree, hdry, tree_execute_dry]
    · rw [code] at hone
      split_ifs at hone
      cases hone
  | _ => assumption

/-- The counts that are printed are those of all sources. -/
theorem Ends.output_eq (hends : Ends o t here report) (hdump : o.value? .dumpModel = none)
    (hplans : o.Plans t here r units) (hne : units ≠ []) :
    report.output
      = countsLine (Scaffold.execute t r units (o.has .dryRun)).summary (o.has .dryRun) := by
  cases hends with
  | printed hdump' => cases hdump.symm.trans hdump'
  | unreadable hdump' => cases hdump.symm.trans hdump'
  | unprepared _ hsetup => exact absurd hsetup hplans.not_setupFails
  | idle _ hplans' => exact absurd (hplans.unique hplans').2.symm hne
  | processed _ hplans' _ _ output =>
    obtain ⟨rfl, rfl⟩ := hplans.unique hplans'
    exact output

end Arguments

/-- **Exit codes and effects of the command line.** -/
theorem execute_honours_contract (args : List String) (o : Options) (h : parse args = .ok o)
    (t : FileTree) (here : Path) : ExitContract args o t here (o.execute t here) := by
  have hends := ends_execute o t here
  have hstops := hends.stops_iff h
  have hfails := hends.fails_iff h
  have hle := hends.exitCode_le
  have hdry := has_dryRun_eq h
  constructor
  case stops => exact hstops.symm
  case stops_unchanged => exact fun hstop => hends.tree_eq (.inr (.inr (hstops.mp hstop)))
  case fails =>
    rw [hstops, hfails]
    omega
  case succeeds =>
    rw [hstops, hfails]
    omega
  case unchanged =>
    rintro (⟨file, hfile⟩ | hflag)
    · have hdump := (value?_iff_gives h).mpr hfile
      exact hends.tree_eq (.inl (by simp [hdump]))
    · exact hends.tree_eq (.inr (.inl (by simpa [hdry] using hflag)))
  case counts =>
    intro r units hno hplans hne
    let summary := (Scaffold.execute t r units (o.has .dryRun)).summary
    have mark : (if o.has .dryRun then " (dry run)" else "")
        = if "--dry-run" ∈ args then " (dry run)" else "" := by
      simp [hdry]
    refine ⟨summary.generated, summary.skipped, summary.failed, ?_, total_summary⟩
    rw [hends.output_eq ((not_dumps_iff h).mp hno) hplans hne, ← mark]
    rfl

/-- Arguments for a dry run that is strict about failures. -/
def strictArguments : List String := ["--src", "/src", "--output=/out", "--strict", "--dry-run"]

/-- The options they are read as. -/
def strictOptions : Options := ⟨[(.output, "/out"), (.src, "/src")], [.dryRun, .strict], none⟩

/-- Of the two sources of `twoSources` one is no text, so the exit code is 2. -/
theorem strict_dry_run_of_two_sources : parse strictArguments = .ok strictOptions ∧
    ExitContract strictArguments strictOptions twoSources (.ofString "/")
      (strictOptions.execute twoSources (.ofString "/")) ∧
    (strictOptions.execute twoSources (.ofString "/")).exitCode = 2 := by
  have parsed : parse strictArguments = .ok strictOptions := rfl
  have contract := execute_honours_contract strictArguments strictOptions parsed twoSources
    (.ofString "/")
  have hplans : strictOptions.Plans twoSources (.ofString "/") twoSourcesSettings
      [.ofString "/src/a.ts", .ofString "/src/lib/b.ts"] := ⟨rfl, plan_twoSources⟩
  have hdump : strictOptions.value? .dumpModel = none := rfl
  have hfailed : Outcome.failed (.read (.ofString "/src/lib/b.ts") .notText)
      ∈ (Scaffold.execute twoSources twoSourcesSettings
        [.ofString "/src/a.ts", .ofString "/src/lib/b.ts"]
        (strictArguments.contains "--dry-run")).outcomes :=
    .tail _ (.head _)
  have hstops : ¬ Stops strictArguments strictOptions twoSources (.ofString "/") :=
    (stops_iff_of_no_dump parsed hdump).not.mpr hplans.not_setupFails
  have hfails : FailsStrictly strictArguments strictOptions twoSources (.ofString "/") :=
    ⟨(not_dumps_iff parsed).mpr hdump, by decide, _, _, hplans, _, hfailed⟩
  exact ⟨parsed, contract, contract.fails.mpr ⟨hstops, hfails⟩⟩

end Options

end Scaffold

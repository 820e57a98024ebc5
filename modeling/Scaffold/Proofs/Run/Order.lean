/-
Scaffold/Proofs/Run/Order.lean

The order in which units are processed does not matter.

In a project in which no directory below the source root has the name of a
test, no test is on the way to the directory of another (`target_clear`).  So
what has been done for some units decides nothing for the others, and the tree
is known from the set of units that are done alone (`Between`): their tests are
written, the directories on the way are made, and the rest is as it was.

From one unit to the next this is kept (`Between.step`), hence it holds along a
run in any order (`between_treeAt`), and every unit comes to what could be told
before the run.  Two orders of the same units therefore agree in everything
but the order of their reports (`execute_perm`).
-/
import Scaffold.Proofs.Path.Order
import Scaffold.Proofs.Run.Project

namespace Scaffold

open Text Scaffold.Path FileTree

/-! ### Summaries -/

/-- Whether a document was written for a source. -/
def Outcome.isGenerated : Outcome → Bool
  | .generated .. => true
  | _ => false

/-- Whether a source was left as it has a document. -/
def Outcome.isSkipped : Outcome → Bool
  | .skipped .. => true
  | _ => false

namespace Summary

/-- A summary counts, and collects failures. -/
theorem ofOutcomes_eq (outcomes : List Outcome) :
    ofOutcomes outcomes
      = ⟨outcomes.countP Outcome.isGenerated, outcomes.countP Outcome.isSkipped,
        outcomes.flatMap fun o => (ofOutcome o).failures⟩ := by
  have hfold : ∀ s : Summary, (outcomes.map ofOutcome).foldl merge s
      = ⟨s.generated + outcomes.countP Outcome.isGenerated,
        s.skipped + outcomes.countP Outcome.isSkipped,
        s.failures ++ outcomes.flatMap fun o => (ofOutcome o).failures⟩ := by
    induction outcomes with
    | nil => simp
    | cons o outcomes ih =>
      intro s
      rw [List.map_cons, List.foldl_cons, ih, List.flatMap_cons, List.countP_cons,
        List.countP_cons]
      cases o <;>
        simp [merge, ofOutcome, Outcome.isGenerated, Outcome.isSkipped] <;> omega
  rw [ofOutcomes, hfold]
  simp [empty]

/-- Summaries of the same outcomes in another order: they differ at most in the order of failures
with one path. -/
structure Agree (a b : Summary) : Prop where
  generated : b.generated = a.generated
  skipped : b.skipped = a.skipped
  failures : b.failures.Perm a.failures
  paths : b.failures.map (fun e => e.path.parts) = a.failures.map (fun e => e.path.parts)

theorem agree_of_perm {outcomes outcomes' : List Outcome} (h : outcomes'.Perm outcomes) :
    Agree (ofOutcomes outcomes).sortFailures (ofOutcomes outcomes').sortFailures := by
  have hfailures : (ofOutcomes outcomes').failures.Perm (ofOutcomes outcomes).failures := by
    rw [ofOutcomes_eq, ofOutcomes_eq]
    exact h.flatMap_right _
  refine ⟨?_, ?_, ?_, map_parts_mergeSort UnitError.path hfailures⟩
  · show (ofOutcomes outcomes').generated = (ofOutcomes outcomes).generated
    rw [ofOutcomes_eq, ofOutcomes_eq]
    exact h.countP_eq _
  · show (ofOutcomes outcomes').skipped = (ofOutcomes outcomes).skipped
    rw [ofOutcomes_eq, ofOutcomes_eq]
    exact h.countP_eq _
  · exact ((List.mergeSort_perm _ _).trans hfailures).trans (List.mergeSort_perm _ _).symm

end Summary

/-! ### Tests out of each other's way -/

/-- No directory below the source root has the name of a test. -/
def NoTestDirectories (t : FileTree) (r : Resolved) : Prop :=
  ∀ dirs n, t.get? (r.srcRoot.place ++ dirs ++ [n]) = some .directory → isTestFile ⟨n⟩ = false

/-- No test is on the way to the directory of a test. -/
def TargetsClear (r : Resolved) (units : List Path) : Prop :=
  ∀ s ∈ units, ∀ s' ∈ units, ¬ (targetOf r s).place <+: (directoryOf r s').place

theorem isTestFile_markedName {name stem ext : List Char} (h : SourceName name stem ext) :
    isTestFile ⟨markedName name⟩ = true := by
  rw [isTestFile_of_fileName (fileName_self h.isName_markedName),
    nameStem_of_split h.split_markedName, List.any_eq_true]
  exact ⟨".test".toList, by decide, List.isSuffixOf_iff_suffix.mpr (List.suffix_append _ _)⟩

theorem target_clear {t : FileTree} {r : Resolved} (hproject : t.IsProject)
    (hroot : t.isDirectory r.srcRoot = true) (hnames : NoTestDirectories t r) :
    TargetsClear r (discoverSources t r) := by
  obtain ⟨f, hf⟩ := exists_normalForm r.outputRoot
  intro s hs s' hs' hlead
  obtain ⟨dirs, n, stem, ext, h⟩ := plannedAs_of_mem hproject.plain hroot hs
  obtain ⟨dirs', n', stem', ext', h'⟩ := plannedAs_of_mem hproject.plain hroot hs'
  rw [place_targetOf (h.targetOf_eq hf), place_directoryOf (h'.targetOf_eq hf)] at hlead
  have hdir := h'.directory_on_way hproject.closed hlead
  exact Bool.false_ne_true ((hnames _ _ hdir).symm.trans (isTestFile_markedName h.sourceName))

/-! ### What can be told does not change -/

section Congr

variable {r : Resolved} {policy : WritePolicy} {t t' : FileTree} {source : Path} {site : Site}

theorem fate_congr (hexists : t'.exists? (targetOf r source) = t.exists? (targetOf r source))
    (hread : t'.readText source = t.readText source)
    (hobstacle : t'.obstacle (directoryOf r source) = t.obstacle (directoryOf r source))
    (hrefusal : t'.refusal (targetOf r source) = t.refusal (targetOf r source)) :
    fate r policy t' source = fate r policy t source := by
  rw [fate, fate, hexists, hread, hobstacle, hrefusal]

/-- What is told of a source depends on its text, on what is at its destination, and on the files on
the way there. -/
theorem fate_eq_of_view (hlink : t.LinkFree) (hclosed : t.IsClosed) (hlink' : t'.LinkFree)
    (hclosed' : t'.IsClosed) (hsite : targetOf r source = site.target.path)
    (hread : t'.readText source = t.readText source)
    (htarget : t'.get? site.target.names = t.get? site.target.names)
    (hfiles : ∀ q, q <+: site.directory.names →
      (t'.get? q).any Entry.isFile = (t.get? q).any Entry.isFile) :
    fate r policy t' source = fate r policy t source
      ∧ reachOf r policy t' source = reachOf r policy t source := by
  have hpassage : t'.passage [] site.directory.names = t.passage [] site.directory.names :=
    passage_congr hfiles
  have hfate : fate r policy t' source = fate r policy t source := by
    refine fate_congr ?_ hread ?_ ?_
    · rw [hsite, Bool.eq_iff_iff, exists?_target hlink' hclosed', exists?_target hlink hclosed,
        htarget]
    · rw [directoryOf_site hsite, obstacle, obstacle, place_path, hpassage]
    · rw [hsite, refusal_target, refusal_target, htarget]
  refine ⟨hfate, ?_⟩
  rw [reachOf, reachOf, hfate, directoryOf_site hsite, reach, reach, place_path, hpassage]

end Congr

/-! ### Between two units -/

/-- The tree when some units are done: their tests are written, the directories on the way to them
are made, and the rest is as it was. -/
structure Between (r : Resolved) (t₀ : FileTree) (done : List Path) (t : FileTree) : Prop where
  written : ∀ s ∈ done, ∀ contents, fate r r.writePolicy t₀ s = .written contents →
    t.get? (targetOf r s).place = some (.file contents)
  others : ∀ q, (∀ s ∈ done, ∀ contents, fate r r.writePolicy t₀ s = .written contents →
      q ≠ (targetOf r s).place) →
    t.get? q = if t₀.get? q = none ∧ ∃ s ∈ done, q <+: reachOf r r.writePolicy t₀ s then
        some .directory
      else t₀.get? q

namespace Between

variable {r : Resolved} {t₀ t t' : FileTree} {done done' units : List Path} {source : Path}

/-- The tree is known from the set of the units that are done. -/
theorem get?_eq (h : Between r t₀ done t) (h' : Between r t₀ done' t')
    (hsame : ∀ s, s ∈ done' ↔ s ∈ done) (q : Place) : t'.get? q = t.get? q := by
  by_cases hq : ∀ s ∈ done, ∀ contents, fate r r.writePolicy t₀ s = .written contents →
      q ≠ (targetOf r s).place
  · rw [h.others q hq, h'.others q fun s hs => hq s ((hsame s).mp hs)]
    simp only [hsame]
  · -- at a destination both have the test of the same unit
    push Not at hq
    obtain ⟨s, hs, contents, hfate, rfl⟩ := hq
    rw [h.written s hs contents hfate, h'.written s ((hsame s).mpr hs) contents hfate]

/-- Nothing that is done for other units is at the destination of a unit. -/
theorem get?_target (h : Between r t₀ done t) (hlaid : Laid r units)
    (hclear : TargetsClear r units) (hdone : done ⊆ units) (hs : source ∈ units)
    (hnot : source ∉ done) :
    t.get? (targetOf r source).place = t₀.get? (targetOf r source).place := by
  rw [h.others, if_neg]
  · rintro ⟨-, s, hs', hlead⟩
    obtain ⟨site, hsite⟩ := hlaid.site s (hdone hs')
    refine hclear source hs s (hdone hs') (hlead.trans ?_)
    rw [place_directoryOf hsite]
    exact reachOf_isPrefix hsite
  · intro s hs' _ _ heq
    exact hnot (hlaid.apart.target_injective source hs s (hdone hs') heq ▸ hs')

/-- No file is put on the way to the directory of a test. -/
theorem isFile_eq (h : Between r t₀ done t) (hclear : TargetsClear r units) (hdone : done ⊆ units)
    (hs : source ∈ units) {q : Place} (hq : q <+: (directoryOf r source).place) :
    (t.get? q).any Entry.isFile = (t₀.get? q).any Entry.isFile := by
  rw [h.others]
  · split_ifs with hmade
    · rw [hmade.1]
      rfl
    · rfl
  · rintro s hs' _ _ rfl
    exact hclear s (hdone hs') source hs hq

/-- **What is told of a unit is not changed by what is done for others.** -/
theorem fate_eq (h : Between r t₀ done t) (hlaid : Laid r units) (hclear : TargetsClear r units)
    (hready₀ : Ready r units t₀) (hready : Ready r units t) (hdone : done ⊆ units)
    (hs : source ∈ units) (hnot : source ∉ done) (hread : t.readText source = t₀.readText source) :
    fate r r.writePolicy t source = fate r r.writePolicy t₀ source
      ∧ reachOf r r.writePolicy t source = reachOf r r.writePolicy t₀ source := by
  obtain ⟨site, hsite⟩ := hlaid.site source hs
  refine fate_eq_of_view hready₀.linkFree hready₀.closed hready.linkFree hready.closed hsite hread
    ?_ ?_
  · rw [← place_targetOf hsite]
    exact h.get?_target hlaid hclear hdone hs hnot
  · intro q hq
    rw [← place_directoryOf hsite] at hq
    exact h.isFile_eq hclear hdone hs hq

/-- One more unit is done. -/
theorem step (h : Between r t₀ done t) (hlaid : Laid r units) (hdone : done ⊆ units)
    (hs : source ∈ units) (hnot : source ∉ done)
    (hfate : fate r r.writePolicy t source = fate r r.writePolicy t₀ source)
    (hreach : reachOf r r.writePolicy t source = reachOf r r.writePolicy t₀ source)
    (hleaves : Leaves r r.writePolicy t source t') : Between r t₀ (done ++ [source]) t' := by
  have hother : ∀ s ∈ done, (targetOf r s).place ≠ (targetOf r source).place := by
    intro s hs' heq
    exact hnot (hlaid.apart.target_injective s (hdone hs') source hs heq ▸ hs')
  constructor
  · intro s hs' contents hwritten
    rcases List.mem_append.mp hs' with hs' | hs'
    · have hthere := h.written s hs' contents hwritten
      rw [hleaves.others _ fun _ _ => hother s hs', hthere, if_neg (by simp)]
    · obtain rfl := List.mem_singleton.mp hs'
      exact hleaves.written contents (hfate.trans hwritten)
  · intro q hq
    have hbefore := h.others q fun s hs' => hq s (List.mem_append_left _ hs')
    rw [hleaves.others q fun contents hwritten =>
      hq source (by simp) contents (hfate.symm.trans hwritten), hreach]
    -- made before, made now, or not made
    by_cases hmade : t₀.get? q = none ∧ ∃ s ∈ done, q <+: reachOf r r.writePolicy t₀ s
    · obtain ⟨hnone, s, hs', hlead⟩ := hmade
      rw [if_pos ⟨hnone, s, hs', hlead⟩] at hbefore
      rw [hbefore, if_neg (by simp), if_pos ⟨hnone, s, List.mem_append_left _ hs', hlead⟩]
    · rw [if_neg hmade] at hbefore
      rw [hbefore]
      refine if_congr (and_congr_right fun hnone => ?_) rfl rfl
      constructor
      · intro hlead
        exact ⟨source, by simp, hlead⟩
      · rintro ⟨s, hs', hlead⟩
        rcases List.mem_append.mp hs' with hs' | hs'
        · exact absurd ⟨hnone, s, hs', hlead⟩ hmade
        · obtain rfl := List.mem_singleton.mp hs'
          exact hlead

end Between

/-! ### A run in any order -/

section Order

variable {r : Resolved} {t : FileTree} {order : List Path}

/-- The unit that comes next has not been done. -/
theorem not_mem_take (hnodup : order.Nodup) {i : Nat} {source : Path}
    (hi : order[i]? = some source) : source ∉ order.take i := by
  intro hmem
  obtain ⟨j, hj, hget⟩ := List.getElem_of_mem hmem
  rw [List.length_take] at hj
  obtain ⟨hlt, hi⟩ := List.getElem?_eq_some_iff.mp hi
  rw [List.getElem_take] at hget
  have := (List.getElem_inj hnodup).mp (hget.trans hi.symm)
  omega

/-- **In any order**, the tree is known from the units that are done, and every unit comes to what
could be told before the run. -/
theorem between_treeAt (h : Prepared r t order) (hclear : TargetsClear r order) (i : Nat) :
    Between r t (order.take i) (treeAt r t order i) := by
  -- the next unit comes to what could be told at first, since nothing done so far concerns it
  induction i with
  | zero =>
    constructor
    · intro s hs
      cases hs
    · intro q _
      rw [if_neg (by simp)]
      rfl
  | succ i ih =>
    rcases hi : order[i]? with - | s
    · have hle : order.length ≤ i := List.getElem?_eq_none_iff.mp hi
      have htake : order.take (i + 1) = order.take i := by
        rw [List.take_of_length_le (Nat.le_succ_of_le hle), List.take_of_length_le hle]
      rw [treeAt_succ_of_none hi, htake]
      exact ih
    · have hs := List.mem_of_getElem? hi
      have hdone : order.take i ⊆ order := fun x hx => List.mem_of_mem_take hx
      have hnot := not_mem_take h.nodup hi
      obtain ⟨hfate, hreach⟩ := ih.fate_eq h.laid hclear h.ready (ready_treeAt h.laid h.ready i)
        hdone hs hnot (h.readText_treeAt hs i)
      rw [List.take_add_one, hi]
      exact ih.step h.laid hdone hs hnot hfate hreach (leaves_at h.laid h.ready hi).2

theorem outcomesOf_eq_map (h : Prepared r t order) (hclear : TargetsClear r order) :
    outcomesOf r t order = order.map fun s => (fate r r.writePolicy t s).outcome r s := by
  refine List.ext_getElem? fun i => ?_
  rw [List.getElem?_map]
  rcases hi : order[i]? with - | s
  · rw [Option.map_none, List.getElem?_eq_none_iff, length_outcomesOf]
    exact List.getElem?_eq_none_iff.mp hi
  · have hs := List.mem_of_getElem? hi
    have hfate := (between_treeAt h hclear i).fate_eq h.laid hclear h.ready
      (ready_treeAt h.laid h.ready i) (fun x hx => List.mem_of_mem_take hx) hs
      (not_mem_take h.nodup hi) (h.readText_treeAt hs i)
    rw [(leaves_at h.laid h.ready hi).1, hfate.1]
    rfl

/-- A dry run leaves the tree alone, so every unit is processed in the same one. -/
theorem processAll_dry (r : Resolved) (t : FileTree) (order : List Path) :
    processAll r true t order
      = (t, order.map fun s => ((processUnit r r.writePolicy true t s).outcome,
          (processUnit r r.writePolicy true t s).events)) := by
  induction order with
  | nil => rfl
  | cons s order ih =>
    rw [processAll]
    simp only [processUnit_dry_tree, ih, List.map_cons]

end Order

/-- Two runs over the same units in different orders: the same tree, the same outcome for each unit,
and summaries that differ at most in the order of failures with one path. -/
structure AgreeUpToOrder (units order : List Path) (a b : RunResult) : Prop where
  tree : ∀ q, b.tree.get? q = a.tree.get? q
  outcome : ∃ outcome : Path → Outcome,
    a.outcomes = units.map outcome ∧ b.outcomes = order.map outcome
  summary : a.summary.Agree b.summary

/-- **The order of the units does not matter.**  In a project in which no directory below the source
root has the name of a test, processing the planned units one after another in any order leaves the
same tree and gives every unit the same outcome, dry run or not. -/
theorem execute_perm (t : FileTree) (r : Resolved) (hproject : t.IsProject)
    (hnames : NoTestDirectories t r) (units order : List Path) (hplan : plan t r = .ok units)
    (hperm : order.Perm units) (dryRun : Bool) :
    AgreeUpToOrder units order (execute t r units dryRun) (execute t r order dryRun) := by
  rw [plan] at hplan
  split_ifs at hplan with hroot
  obtain rfl := Except.ok.inj hplan
  -- whatever the outcomes are, the summaries follow
  have hsummary : ∀ {outcome : Path → Outcome} {a b : RunResult},
      a.outcomes = (discoverSources t r).map outcome → b.outcomes = order.map outcome →
      a.summary = (Summary.ofOutcomes a.outcomes).sortFailures →
      b.summary = (Summary.ofOutcomes b.outcomes).sortFailures → a.summary.Agree b.summary := by
    intro outcome a b ha hb ha' hb'
    rw [ha', hb', ha, hb]
    exact Summary.agree_of_perm (hperm.map _)
  cases dryRun with
  | true =>
    have houtcomes : ∀ order, (execute t r order true).outcomes
        = order.map fun s => (processUnit r r.writePolicy true t s).outcome := by
      intro order
      rw [execute, processAll_dry]
      exact List.map_map
    refine ⟨?_, ⟨_, houtcomes _, houtcomes _⟩, hsummary (houtcomes _) (houtcomes _) rfl rfl⟩
    intro q
    rw [execute, execute, processAll_dry, processAll_dry]
  | false =>
    -- both runs are known from the same set of units, all of them
    have hprepared := prepared_discoverSources hproject hroot
    have hclear := target_clear hproject hroot hnames
    generalize discoverSources t r = units at *
    have hrun : ∀ {order : List Path}, order.Perm units →
        (∀ i, Between r t (order.take i) (treeAt r t order i))
          ∧ outcomesOf r t order = order.map fun s => (fate r r.writePolicy t s).outcome r s := by
      intro order hperm
      have hprepared' := hprepared.perm hperm
      have hclear' : TargetsClear r order := fun s hs s' hs' =>
        hclear s (hperm.mem_iff.mp hs) s' (hperm.mem_iff.mp hs')
      exact ⟨between_treeAt hprepared' hclear', outcomesOf_eq_map hprepared' hclear'⟩
    obtain ⟨hbetween, houtcomes⟩ := hrun (List.Perm.refl units)
    obtain ⟨hbetween', houtcomes'⟩ := hrun hperm
    refine ⟨?_, ⟨_, houtcomes, houtcomes'⟩, hsummary houtcomes houtcomes' rfl rfl⟩
    intro q
    have h := hbetween units.length
    have h' := hbetween' order.length
    rw [List.take_length, treeAt_of_le (Nat.le_refl _)] at h h'
    exact h.get?_eq h' (fun s => hperm.mem_iff) q

/-! ### A project with two sources -/

/-- A project with two sources, one of which cannot be read. -/
def twoSources : FileTree :=
  ⟨[(["src".toList], .directory),
    (["src".toList, "a.ts".toList], .file "export function f() \x7b\x7d".toUTF8),
    (["src".toList, "lib".toList], .directory),
    (["src".toList, "lib".toList, "b.ts".toList], .file ⟨#[0xff]⟩)], by decide⟩

/-- Settings that put its tests into a directory of their own. -/
def twoSourcesSettings : Resolved :=
  ⟨.ofString "/src", .ofString "/out", none, ⟨[]⟩, .jest, false, true, none⟩

theorem isProject_twoSources : twoSources.IsProject := by
  refine isProject_of_entries fun x hx => ?_
  simp only [twoSources, List.mem_cons, List.not_mem_nil, or_false] at hx
  rcases hx with rfl | rfl | rfl | rfl
  all_goals exact ⟨by simp, by decide, rfl, by decide⟩

theorem noTestDirectories_twoSources : NoTestDirectories twoSources twoSourcesSettings := by
  intro dirs n hdir
  have hroot : twoSourcesSettings.srcRoot.place = ["src".toList] := rfl
  rcases mem_of_get? hdir with ⟨hnil, -⟩ | hmem
  · simp at hnil
  · simp only [twoSources, List.mem_cons, List.not_mem_nil, or_false, Prod.mk.injEq] at hmem
    rcases hmem with ⟨hplace, -⟩ | ⟨-, hentry⟩ | ⟨hplace, -⟩ | ⟨-, hentry⟩
    · have hlength := congrArg List.length hplace
      simp [hroot] at hlength
    · cases hentry
    · have hlast := congrArg List.getLast? hplace
      rw [List.getLast?_concat] at hlast
      obtain rfl : n = "lib".toList := Option.some.inj hlast
      decide
    · cases hentry

theorem plan_twoSources : plan twoSources twoSourcesSettings
    = .ok [.ofString "/src/a.ts", .ofString "/src/lib/b.ts"] :=
  @plan_of_found _ _ ["src".toList] _ rfl (by decide +kernel) (by decide +kernel)

/-- The two sources of `twoSources`, processed in either order. -/
theorem execute_perm_of_two_sources :
    ∃ (t : FileTree) (r : Resolved), t.IsProject ∧ NoTestDirectories t r
      ∧ t.get? ["src".toList, "a.ts".toList] = some (.file "export function f() \x7b\x7d".toUTF8)
      ∧ t.get? ["src".toList, "lib".toList, "b.ts".toList] = some (.file ⟨#[0xff]⟩)
      ∧ plan t r = .ok [.ofString "/src/a.ts", .ofString "/src/lib/b.ts"]
      ∧ AgreeUpToOrder [.ofString "/src/a.ts", .ofString "/src/lib/b.ts"]
        [.ofString "/src/lib/b.ts", .ofString "/src/a.ts"]
        (execute t r [.ofString "/src/a.ts", .ofString "/src/lib/b.ts"] false)
        (execute t r [.ofString "/src/lib/b.ts", .ofString "/src/a.ts"] false) :=
  ⟨twoSources, twoSourcesSettings, isProject_twoSources, noTestDirectories_twoSources, rfl, rfl,
    plan_twoSources, execute_perm twoSources twoSourcesSettings isProject_twoSources
      noTestDirectories_twoSources _ _ plan_twoSources (List.Perm.swap _ _ _) false⟩

end Scaffold

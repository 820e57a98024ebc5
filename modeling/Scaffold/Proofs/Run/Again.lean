/-
Scaffold/Proofs/Run/Again.lean

A second run.

What was in the way of a unit stays in the way: a run never takes a directory
or a file away, and it leaves directories as far as it could make them.  So a
unit comes to the same again, unless there is something at its destination now
and existing tests are kept (`fate_again`), and coming to the same again
changes nothing (`Leaves.same_of_fate`).

The sources of a project are the same after a run, since what a run writes has
no source's name (`discoverSources_again`).  Hence a second run plans the same
units and leaves the tree as it is; `run_again` says what it reports.

Only a unit that failed although there was nothing at its destination can come
to something else: where a later unit of the same run has then made a directory
there (`Overtaken`), the second run skips it.
-/
import Scaffold.Proofs.Run.Order
import Scaffold.Proofs.Run.Sources

namespace Scaffold

open Text Scaffold.Path FileTree

/-! ### What stays -/

namespace FileTree

variable {t t' : FileTree}

/-- The passage stays as it is where directories are made as far as it goes and no file is taken
away. -/
theorem passage_of_stays (hfiles : t.KeepsFiles t') {here : Place} {names : List (List Char)}
    (hway : ∀ q, q <+: (t.passage here names).1 → t'.get? q = some .directory) :
    t'.passage here names = t.passage here names := by
  induction names generalizing here with
  | nil => rfl
  | cons n rest ih =>
    rw [passage] at hway
    rw [passage, passage.eq_2 t here n rest]
    by_cases hlong : maxName < byteLength n
    · -- the name is too long in both trees
      rw [if_pos hlong, if_pos hlong]
    · rw [if_neg hlong] at hway
      rw [if_neg hlong, if_neg hlong]
      by_cases hfile : (t.get? (here ++ [n])).any Entry.isFile = true
      · -- a file is in the way in both
        rw [if_pos hfile, if_pos (hfiles _ hfile)]
      · -- a directory is on the way
        rw [if_neg hfile] at hway
        have hdir := hway _ (prefix_passage _ _)
        rw [if_neg hfile, hdir, if_neg (by simp [Entry.isFile]), ih hway]

theorem reach_of_stays (hfiles : t.KeepsFiles t') {g : NormalForm}
    (hway : ∀ q, q <+: t.reach g.path → t'.get? q = some .directory) :
    t'.obstacle g.path = t.obstacle g.path ∧ t'.reach g.path = t.reach g.path := by
  rcases hfault : g.path.fault with - | e
  · rw [reach_path hfault] at hway
    rw [obstacle_path hfault, obstacle_path hfault, reach_path hfault, reach_path hfault,
      passage_of_stays hfiles hway]
    exact ⟨rfl, rfl⟩
  · rw [obstacle, obstacle, reach, reach, hfault]
    exact ⟨rfl, rfl⟩

end FileTree

/-! ### One unit again -/

section Unit

variable {r : Resolved} {policy : WritePolicy} {t t' t'' : FileTree} {source : Path} {site : Site}

/-- What a unit was kept for is still there. -/
theorem exists?_of_kept (hlink : t.LinkFree) (hclosed : t.IsClosed) (hlink'' : t''.LinkFree)
    (hclosed'' : t''.IsClosed) (hkeep : t.KeepsDirectories t'') (hfiles : t.KeepsFiles t'')
    (h : t.exists? site.target.path = true) : t''.exists? site.target.path = true := by
  rw [exists?_target hlink hclosed] at h
  obtain ⟨hp, hthere⟩ := h
  refine (exists?_target hlink'' hclosed'' site).mpr ⟨hp, ?_⟩
  rcases hget : t.get? site.target.names with - | ⟨contents | - | target⟩
  · -- nothing was there
    rw [hget] at hthere
    cases hthere
  · -- a file is a file later
    have hfile := hfiles site.target.names (by rw [hget]; rfl)
    rcases hget'' : t''.get? site.target.names with - | e
    · rw [hget''] at hfile
      cases hfile
    · rfl
  · -- a directory stays
    rw [hkeep _ hget]
    rfl
  · -- there are no links
    exact absurd hget (hlink _ _)

/-- A test is refused again for what it was refused for, and only for that where a file stands at
its place. -/
theorem refusal_again (hkeep : t.KeepsDirectories t'')
    (hfile : t.refusal site.target.path = none →
      (t''.get? site.target.names).any Entry.isFile = true) :
    t''.refusal site.target.path = t.refusal site.target.path := by
  rw [refusal_target] at hfile ⊢
  rw [refusal_target]
  rcases hfault : site.temporary.path.fault with - | cause
  · rw [hfault] at hfile
    simp only at hfile ⊢
    by_cases hlong : maxName < byteLength (temporaryName site.name)
    · -- the temporary name is too long in both trees
      rw [if_pos hlong, if_pos hlong]
    · rw [if_neg hlong] at hfile
      rw [if_neg hlong, if_neg hlong]
      by_cases hdir : t.get? site.target.names = some .directory
      · -- a directory stays
        rw [if_pos hdir, if_pos (hkeep _ hdir)]
      · -- what is no directory becomes a file
        rw [if_neg hdir, if_neg]
        intro hdir''
        have := hfile (if_neg hdir)
        rw [hdir''] at this
        cases this
  · -- the path itself is at fault
    rfl

/-- **A unit comes to the same again**, unless there is something at its destination and existing
tests are kept. -/
theorem fate_again (hready : t.LinkFree ∧ t.IsClosed) (hready'' : t''.LinkFree ∧ t''.IsClosed)
    (hsite : targetOf r source = site.target.path) (hleaves : Leaves r policy t source t')
    (hkeep : t'.KeepsDirectories t'') (hfiles : t'.KeepsFiles t'')
    (hread : t''.readText source = t.readText source)
    (hnot : ¬ (policy = .skipExisting ∧ t''.exists? (targetOf r source) = true)) :
    fate r policy t'' source = fate r policy t source
      ∧ reachOf r policy t'' source = reachOf r policy t source := by
  have hkeep₀ := hleaves.keeps.trans hkeep
  have hfiles₀ := hleaves.keepsFiles.trans hfiles
  have hnot₀ : ¬ (policy = .skipExisting ∧ t.exists? (targetOf r source) = true) := by
    rintro ⟨hpolicy, hexists⟩
    rw [hsite] at hexists hnot
    exact hnot ⟨hpolicy, exists?_of_kept hready.1 hready.2 hready''.1 hready''.2 hkeep₀ hfiles₀
      hexists⟩
  rcases htext : t.readText source with cause | text
  · have hfate : fate r policy t source = .unread cause := by rw [fate, if_neg hnot₀, htext]
    have hfate'' : fate r policy t'' source = .unread cause := by
      rw [fate, if_neg hnot, hread, htext]
    rw [reachOf, reachOf, hfate, hfate'']
    exact ⟨rfl, rfl⟩
  · -- the directories that were made, and what was in the way, are there
    have hreach := reachOf_of_read hnot₀ htext
    rw [directoryOf_site hsite] at hreach
    have hway : ∀ q, q <+: t.reach site.directory.path → t''.get? q = some .directory :=
      fun q hq => hkeep q (hleaves.way q (hreach ▸ hq))
    obtain ⟨hobstacle, hsame⟩ := reach_of_stays hfiles₀ hway
    have hrefusal : t.obstacle site.directory.path = none →
        t''.refusal site.target.path = t.refusal site.target.path := by
      intro hclear
      refine refusal_again hkeep₀ fun haccepted => hfiles _ ?_
      -- the test was written
      have hwritten : fate r policy t source = .written (documentOf r source text) := by
        rw [fate, if_neg hnot₀, htext, directoryOf_site hsite, hclear, hsite, haccepted]
      have hthere := hleaves.written _ hwritten
      rw [place_targetOf hsite] at hthere
      rw [hthere]
      rfl
    have hfate : fate r policy t'' source = fate r policy t source := by
      rw [fate, fate, if_neg hnot, if_neg hnot₀, hread, htext, directoryOf_site hsite, hobstacle]
      rcases hclear : t.obstacle site.directory.path with - | cause
      · rw [hsite, hrefusal hclear]
      · rfl
    refine ⟨hfate, ?_⟩
    rw [reachOf, reachOf, hfate, directoryOf_site hsite, hsame]

/-- Nothing changes where a test is written that is there, and directories are made that are
there. -/
theorem Leaves.same_of_fate {u u' : FileTree} (h : Leaves r policy u source u')
    (hthere : ∀ contents, fate r policy u source = .written contents →
      u.get? (targetOf r source).place = some (.file contents))
    (hway : ∀ q, q <+: reachOf r policy u source → u.get? q = some .directory) (q : Place) :
    u'.get? q = u.get? q := by
  rcases h.cases q with ⟨contents, hfate, rfl, hget⟩ | ⟨hnone, hlead, -⟩ | hget
  · rw [hget, hthere contents hfate]
  · rw [hway q hlead] at hnone
    cases hnone
  · exact hget

end Unit

/-! ### The units again -/

/-- The sources of a project are the same after a run. -/
theorem discoverSources_again {t : FileTree} {r : Resolved} (hproject : t.IsProject)
    (hroot : t.isDirectory r.srcRoot = true) (i : Nat) :
    (treeAt r t (discoverSources t r) i).isDirectory r.srcRoot = true
      ∧ discoverSources (treeAt r t (discoverSources t r) i) r = discoverSources t r := by
  have hprepared := prepared_discoverSources hproject hroot
  have hlink := hproject.plain.linkFree
  have hready := ready_treeAt hprepared.laid hprepared.ready i
  have hkeep := keeps_between (r := r) hlink hprepared.laid.apart (Nat.zero_le i)
  have hroot' : (treeAt r t (discoverSources t r) i).isDirectory r.srcRoot = true := by
    have hentry := isDirectory_iff.mp hroot
    obtain ⟨-, -, hdir⟩ := (entryAt?_eq_some hlink).mp hentry
    exact isDirectory_iff.mpr (entryAt?_mono hlink hready.linkFree hkeep hentry (hkeep _ hdir))
  refine ⟨hroot', discoverSources_congr hproject.plain hproject.closed hready.linkFree
    hready.closed hroot hroot' fun names hsource => ⟨?_, ?_⟩⟩
  · rintro ⟨contents, hfile⟩
    rcases file_new hlink hprepared.laid.apart i hfile with hold | ⟨k, s, hgen, hplace⟩
    · exact ⟨contents, hold⟩
    · -- a test has no source's name
      obtain ⟨dirs, n, stem, ext, h⟩ :=
        plannedAs_of_mem hproject.plain hroot (List.mem_of_getElem? hgen.1)
      obtain ⟨f, hf⟩ := exists_normalForm r.outputRoot
      rw [isSource, Bool.and_eq_true] at hsource
      rcases List.eq_nil_or_concat names with rfl | ⟨init, m, rfl⟩
      · cases hsource.1
      · rw [List.concat_eq_append] at hsource hplace
        rw [(h.places hf).1, ← List.append_assoc] at hplace
        obtain ⟨-, hlast⟩ := List.append_inj' hplace rfl
        obtain rfl := List.singleton_inj.mp hlast
        rw [List.getLast?_concat, Option.any_some] at hsource
        obtain ⟨stem', ext', hmarked⟩ :=
          sourceName_of_isSourceName h.sourceName.isName_markedName hsource.1
        exact absurd rfl (h.sourceName.markedName_ne hmarked)
  · intro hfile
    exact any_isFile_iff.mp (keepsFiles_between hprepared.laid hprepared.ready (Nat.zero_le i) _
      (any_isFile_iff.mpr hfile))

section Again

variable {r : Resolved} {t u : FileTree} {units : List Path} {i j : Nat} {source : Path}

/-- The tree a run leaves. -/
def treeAfter (r : Resolved) (t : FileTree) (units : List Path) : FileTree :=
  treeAt r t units units.length

theorem tree_execute (r : Resolved) (t : FileTree) (units : List Path) :
    (execute t r units false).tree = treeAfter r t units :=
  (treeAt_of_le (Nat.le_refl _)).symm

theorem outcomes_execute (r : Resolved) (t : FileTree) (units : List Path) :
    (execute t r units false).outcomes = outcomesOf r t units := rfl

theorem summary_execute (r : Resolved) (t : FileTree) (units : List Path) :
    (execute t r units false).summary
      = (Summary.ofOutcomes (outcomesOf r t units)).sortFailures := rfl

/-- What a unit comes to in a tree that looks as the run has left it, and that it changes nothing
there. -/
theorem fate_after (h : Prepared r t units) (hi : units[i]? = some source)
    (hu : ∀ q, u.get? q = (treeAfter r t units).get? q) (hready : Ready r units u) :
    fate r r.writePolicy u source
        = (if r.writePolicy = .skipExisting
            ∧ (treeAfter r t units).exists? (targetOf r source) = true then .kept
          else fate r r.writePolicy (treeAt r t units i) source)
      ∧ (∀ contents, fate r r.writePolicy u source = .written contents →
        u.get? (targetOf r source).place = some (.file contents))
      ∧ ∀ q, q <+: reachOf r r.writePolicy u source → u.get? q = some .directory := by
  have hs := List.mem_of_getElem? hi
  obtain ⟨hlt, -⟩ := List.getElem?_eq_some_iff.mp hi
  obtain ⟨site, hsite⟩ := h.laid.site source hs
  have hready₁ := ready_treeAt h.laid h.ready units.length
  have hexists : u.exists? (targetOf r source)
      = (treeAfter r t units).exists? (targetOf r source) := by
    rw [hsite, Bool.eq_iff_iff, exists?_target hready.linkFree hready.closed, hu,
      treeAfter, exists?_target hready₁.linkFree hready₁.closed]
  rw [← hexists]
  by_cases hkept : r.writePolicy = .skipExisting ∧ u.exists? (targetOf r source) = true
  · have hfate : fate r r.writePolicy u source = .kept := by rw [fate, if_pos hkept]
    rw [if_pos hkept, reachOf, hfate]
    refine ⟨rfl, by simp, ?_⟩
    intro q hq
    rw [List.prefix_nil.mp hq, get?_root]
  · rw [if_neg hkept]
    -- from the time the unit was done directories and files only came to be
    have hleaves := (leaves_at h.laid h.ready hi).2
    have hreadyᵢ := ready_treeAt h.laid h.ready i
    have hkeep : (treeAt r t units (i + 1)).KeepsDirectories u := by
      intro q hq
      rw [hu]
      exact keeps_between h.ready.linkFree h.laid.apart hlt q hq
    have hfiles : (treeAt r t units (i + 1)).KeepsFiles u := by
      intro q hq
      rw [hu]
      exact keepsFiles_between h.laid h.ready hlt q hq
    have hread : u.readText source = (treeAt r t units i).readText source := by
      rw [h.readText_treeAt hs]
      refine h.readText_eq hs ?_ ?_
      · exact (keeps_between h.ready.linkFree h.laid.apart (Nat.zero_le _)).trans hkeep
      · rw [hu]
        exact h.get?_source hs _
    obtain ⟨hfate, hreach⟩ := fate_again ⟨hreadyᵢ.linkFree, hreadyᵢ.closed⟩
      ⟨hready.linkFree, hready.closed⟩ hsite hleaves hkeep hfiles hread hkept
    refine ⟨hfate, ?_, ?_⟩
    · -- the test was written then, and no later unit has the same destination
      intro contents hwritten
      rw [hu]
      refine file_between h.ready.linkFree h.laid.apart hlt
        (hleaves.written contents (hfate ▸ hwritten)) ?_ ?_
      · intro k s hk hgen heq
        have := hgen.index_eq h.laid.apart h.nodup hi heq
        omega
      · exact h.laid.apart.target_ne_temporary source hs
    · intro q hq
      exact hkeep q (hleaves.way q (hreach ▸ hq))

/-- **A second run leaves the tree as it is**, all along. -/
theorem get?_treeAt_again (h : Prepared r t units) (j : Nat) (q : Place) :
    (treeAt r (treeAfter r t units) units j).get? q = (treeAfter r t units).get? q := by
  have hready₁ : Ready r units (treeAfter r t units) := ready_treeAt h.laid h.ready _
  -- in a tree that looks as the run has left it a unit changes nothing
  induction j generalizing q with
  | zero => rfl
  | succ j ih =>
    rcases hj : units[j]? with - | s
    · rw [treeAt_succ_of_none hj]
      exact ih q
    · obtain ⟨-, hthere, hway⟩ := fate_after h hj ih (ready_treeAt h.laid hready₁ j)
      rw [(leaves_at h.laid hready₁ hj).2.same_of_fate hthere hway, ih]

/-- What a second run reports of a unit. -/
theorem outcome_again (h : Prepared r t units) (hi : units[i]? = some source) :
    (outcomesOf r (treeAfter r t units) units)[i]?
      = some ((if r.writePolicy = .skipExisting
            ∧ (treeAfter r t units).exists? (targetOf r source) = true then .kept
          else fate r r.writePolicy (treeAt r t units i) source : Fate).outcome r source) := by
  have hready₁ : Ready r units (treeAfter r t units) := ready_treeAt h.laid h.ready _
  rw [(leaves_at h.laid hready₁ hi).1,
    (fate_after h hi (get?_treeAt_again h i) (ready_treeAt h.laid hready₁ i)).1]

end Again

/-! ### A second run -/

/-- A unit is overtaken by a run if it fails although there is nothing at its destination, and the
run then makes a directory there. -/
structure Overtaken (t : FileTree) (r : Resolved) (units : List Path) (res : RunResult) (i : Nat)
    (source : Path) : Prop where
  failed : ∃ e, res.outcomes[i]? = some (.failed e)
  free : (treeAt r t units i).get? (targetOf r source).place = none
  made : res.tree.isDirectory (targetOf r source) = true

/-- What a second run leaves and reports, after a first one from `t`. -/
structure RunsAgain (t : FileTree) (r : Resolved) (units : List Path) (res res' : RunResult) :
    Prop where
  tree : ∀ q, res'.tree.get? q = res.tree.get? q
  /-- Where tests are written again, it reports the same. -/
  overwrite : r.writePolicy = .overwrite →
    res'.outcomes = res.outcomes ∧ res'.summary = res.summary
  /-- Where existing tests are kept, it generates nothing, -/
  generated : r.writePolicy = .skipExisting → res'.summary.generated = 0
  /-- it skips what the first run generated, skipped or overtook, -/
  skipped : r.writePolicy = .skipExisting → ∀ (i : Nat) source, units[i]? = some source →
    (res'.outcomes[i]? = some (Outcome.skipped source (targetOf r source))
      ↔ res.outcomes[i]? = some (Outcome.generated source (targetOf r source))
        ∨ res.outcomes[i]? = some (Outcome.skipped source (targetOf r source))
        ∨ Overtaken t r units res i source)
  /-- and what else failed fails again, with the same error. -/
  failed : r.writePolicy = .skipExisting → ∀ (i : Nat) source e, units[i]? = some source →
    (res'.outcomes[i]? = some (Outcome.failed e)
      ↔ res.outcomes[i]? = some (Outcome.failed e) ∧ ¬ Overtaken t r units res i source)

section Report

variable {r : Resolved} {t : FileTree} {units : List Path} {i : Nat} {source : Path}

theorem Fate.outcome_cases (f : Fate) (r : Resolved) (source : Path) :
    f = .kept ∨ (∃ contents, f = .written contents) ∨ ∃ e, f.outcome r source = .failed e := by
  cases f with
  | kept => exact .inl rfl
  | written contents => exact .inr (.inl ⟨contents, rfl⟩)
  | unread cause => exact .inr (.inr ⟨_, rfl⟩)
  | blocked cause => exact .inr (.inr ⟨_, rfl⟩)
  | refused cause => exact .inr (.inr ⟨_, rfl⟩)

/-- There is something at the destination of a unit that was generated or skipped. -/
theorem exists?_after (h : Prepared r t units) (hi : units[i]? = some source)
    (hfate : fate r r.writePolicy (treeAt r t units i) source = .kept
      ∨ ∃ contents, fate r r.writePolicy (treeAt r t units i) source = .written contents) :
    (treeAfter r t units).exists? (targetOf r source) = true := by
  have hlink := h.ready.linkFree
  have hready := ready_treeAt h.laid h.ready i
  have hready₁ := ready_treeAt h.laid h.ready units.length
  obtain ⟨hlt, -⟩ := List.getElem?_eq_some_iff.mp hi
  rcases hfate with hfate | ⟨contents, hfate⟩
  · -- kept, since a test was there, and it stays
    have hthere := (fate_eq_kept hfate).2
    obtain ⟨site, hsite⟩ := h.laid.site source (List.mem_of_getElem? hi)
    rw [hsite] at hthere ⊢
    exact exists?_of_kept hready.linkFree hready.closed hready₁.linkFree hready₁.closed
      (keeps_between hlink h.laid.apart (Nat.le_of_lt hlt))
      (keepsFiles_between h.laid h.ready (Nat.le_of_lt hlt)) hthere
  · -- written by its own step, and kept by the later ones
    obtain ⟨o, ho, hstep⟩ := step_at hlink h.laid.apart hi
    rw [(leaves_at h.laid h.ready hi).1, hfate] at ho
    obtain ⟨text, -, hentry⟩ := hstep.of_generated (Option.some.inj ho).symm
    rw [treeAfter, exists?, generated_between hlink h.laid.apart h.nodup hi hlt hentry]
    rfl

/-- What is at the destination of a unit that failed is a directory the run has made there. -/
theorem overtaken_of_exists (h : Prepared r t units) (hi : units[i]? = some source)
    (hpolicy : r.writePolicy = .skipExisting) {e : UnitError}
    (hfailed : (fate r r.writePolicy (treeAt r t units i) source).outcome r source = .failed e)
    (hexists : (treeAfter r t units).exists? (targetOf r source) = true) :
    (treeAt r t units i).get? (targetOf r source).place = none
      ∧ (treeAfter r t units).isDirectory (targetOf r source) = true := by
  have hlink := h.ready.linkFree
  have hready := ready_treeAt h.laid h.ready i
  have hready₁ := ready_treeAt h.laid h.ready units.length
  obtain ⟨hlt, -⟩ := List.getElem?_eq_some_iff.mp hi
  obtain ⟨site, hsite⟩ := h.laid.site source (List.mem_of_getElem? hi)
  obtain ⟨entry, hentry⟩ := Option.isSome_iff_exists.mp hexists
  obtain ⟨hp, -, hget⟩ := (entryAt?_eq_some hready₁.linkFree).mp hentry
  have hfree : (treeAt r t units i).get? (targetOf r source).place = none := by
    have hnot : ¬ (treeAt r t units i).exists? (targetOf r source) = true := by
      intro hthere
      rw [fate, if_pos ⟨hpolicy, hthere⟩] at hfailed
      cases hfailed
    rw [hsite, exists?_target hready.linkFree hready.closed, ← hsite] at hnot
    rw [place_targetOf hsite]
    rcases hthere : (treeAt r t units i).get? site.target.names with - | e
    · rfl
    · exact absurd ⟨hp, by rw [hthere]; rfl⟩ hnot
  refine ⟨hfree, isDirectory_iff.mpr ?_⟩
  cases entry with
  | directory => exact hentry
  | link target => exact absurd hget (hready₁.linkFree _ _)
  | file contents =>
    -- a file would have been there before, or be the test of this very unit
    rcases file_new hlink h.laid.apart _ hget with hold | ⟨k, s, hgen, heq⟩
    · have hfile := keepsFiles_between h.laid h.ready (Nat.zero_le i) _
        (any_isFile_iff.mpr ⟨contents, hold⟩)
      rw [hfree] at hfile
      cases hfile
    · obtain rfl := hgen.index_eq h.laid.apart h.nodup hi heq
      have ho := hgen.2
      rw [(leaves_at h.laid h.ready hi).1, hfailed] at ho
      cases ho

/-- Where existing tests are kept, a unit that was generated or skipped is skipped again, and one
that failed is skipped or fails again. -/
theorem unit_again (h : Prepared r t units) (hi : units[i]? = some source)
    (hpolicy : r.writePolicy = .skipExisting) :
    ((outcomesOf r t units)[i]? = some (.generated source (targetOf r source))
        ∨ (outcomesOf r t units)[i]? = some (.skipped source (targetOf r source)))
      ∧ (outcomesOf r (treeAfter r t units) units)[i]?
        = some (.skipped source (targetOf r source))
    ∨ ∃ e, (outcomesOf r t units)[i]? = some (.failed e)
      ∧ (((treeAt r t units i).get? (targetOf r source).place = none
          ∧ (treeAfter r t units).isDirectory (targetOf r source) = true
          ∧ (outcomesOf r (treeAfter r t units) units)[i]?
            = some (.skipped source (targetOf r source)))
        ∨ ((treeAfter r t units).isDirectory (targetOf r source) = false
          ∧ (outcomesOf r (treeAfter r t units) units)[i]? = some (.failed e))) := by
  rw [outcome_again h hi, (leaves_at h.laid h.ready hi).1]
  have hthere := exists?_after h hi
  have hover := fun {e} => @overtaken_of_exists r t units i source h hi hpolicy e
  generalize fate r r.writePolicy (treeAt r t units i) source = f at hthere hover ⊢
  -- with something at the destination the unit is skipped, with nothing it comes to the same
  by_cases hexists : (treeAfter r t units).exists? (targetOf r source) = true
  · rw [if_pos ⟨hpolicy, hexists⟩]
    rcases f.outcome_cases r source with rfl | ⟨contents, rfl⟩ | ⟨e, he⟩
    · exact .inl ⟨.inr rfl, rfl⟩
    · exact .inl ⟨.inl rfl, rfl⟩
    · obtain ⟨hfree, hdir⟩ := hover he hexists
      exact .inr ⟨e, congrArg some he, .inl ⟨hfree, hdir, rfl⟩⟩
  · rw [if_neg (fun h => hexists h.2)]
    have hdir : (treeAfter r t units).isDirectory (targetOf r source) = false := by
      rw [isDirectory, Option.not_isSome_iff_eq_none.mp hexists]
      rfl
    rcases f.outcome_cases r source with hkept | hwritten | ⟨e, he⟩
    · exact absurd (hthere (.inl hkept)) hexists
    · exact absurd (hthere (.inr hwritten)) hexists
    · exact .inr ⟨e, congrArg some he, .inr ⟨hdir, congrArg some he⟩⟩

/-- Where tests are written again, every unit comes to the same. -/
theorem outcomes_overwritten (h : Prepared r t units) (hpolicy : r.writePolicy = .overwrite) :
    outcomesOf r (treeAfter r t units) units = outcomesOf r t units := by
  refine List.ext_getElem? fun i => ?_
  rcases hi : units[i]? with - | source
  · have hle : units.length ≤ i := List.getElem?_eq_none_iff.mp hi
    rw [List.getElem?_eq_none (by rwa [length_outcomesOf]),
      List.getElem?_eq_none (by rwa [length_outcomesOf])]
  · rw [outcome_again h hi, if_neg (by simp [hpolicy]), (leaves_at h.laid h.ready hi).1]

/-- Where existing tests are kept, a second run generates nothing. -/
theorem generated_again (h : Prepared r t units) (hpolicy : r.writePolicy = .skipExisting) :
    (Summary.ofOutcomes (outcomesOf r (treeAfter r t units) units)).generated = 0 := by
  have hnone : ∀ o ∈ outcomesOf r (treeAfter r t units) units, ¬o.isGenerated = true := by
    intro o ho
    obtain ⟨i, hlt, hget⟩ := List.getElem_of_mem ho
    have ho : (outcomesOf r (treeAfter r t units) units)[i]? = some o :=
      List.getElem?_eq_some_iff.mpr ⟨hlt, hget⟩
    rw [length_outcomesOf] at hlt
    rcases unit_again h (List.getElem?_eq_getElem hlt) hpolicy with
      ⟨-, ho'⟩ | ⟨e, -, ⟨-, -, ho'⟩ | ⟨-, ho'⟩⟩
    all_goals
      rw [ho] at ho'
      obtain rfl := Option.some.inj ho'
      exact Bool.false_ne_true
  rw [Summary.ofOutcomes_eq]
  exact List.countP_eq_zero.mpr hnone

/-- **What a second run leaves and reports.** -/
theorem runsAgain_of_prepared (h : Prepared r t units) :
    RunsAgain t r units (execute t r units false)
      (execute (treeAfter r t units) r units false) := by
  have htree := tree_execute r t units
  -- where no directory was made, no source is overtaken by one
  have hnot : ∀ {i source}, (treeAfter r t units).isDirectory (targetOf r source) = false →
      ¬ Overtaken t r units (execute t r units false) i source := by
    intro i source hdir hover
    have := hover.made
    rw [htree, hdir] at this
    cases this
  constructor
  case tree =>
    intro q
    rw [htree, tree_execute]
    exact get?_treeAt_again h _ q
  case overwrite =>
    intro hpolicy
    rw [outcomes_execute, outcomes_execute, summary_execute, summary_execute,
      outcomes_overwritten h hpolicy]
    exact ⟨rfl, rfl⟩
  case generated => exact generated_again h
  case skipped =>
    intro hpolicy i source hi
    rw [outcomes_execute, outcomes_execute]
    rcases unit_again h hi hpolicy with ⟨ho, ho'⟩ | ⟨e, ho, ⟨hfree, hdir, ho'⟩ | ⟨hdir, ho'⟩⟩
    · refine iff_of_true ho' ?_
      rcases ho with ho | ho
      · exact .inl ho
      · exact .inr (.inl ho)
    · exact iff_of_true ho' (.inr (.inr ⟨⟨e, ho⟩, hfree, htree ▸ hdir⟩))
    · refine iff_of_false (by rw [ho']; simp) ?_
      rintro (hgen | hskip | hover)
      · rw [ho] at hgen
        cases hgen
      · rw [ho] at hskip
        cases hskip
      · exact hnot hdir hover
  case failed =>
    intro hpolicy i source e hi
    rw [outcomes_execute, outcomes_execute]
    rcases unit_again h hi hpolicy with ⟨ho, ho'⟩ | ⟨e', ho, ⟨hfree, hdir, ho'⟩ | ⟨hdir, ho'⟩⟩
    · refine iff_of_false (by rw [ho']; simp) ?_
      rintro ⟨hfailed, -⟩
      rcases ho with ho | ho
      all_goals
        rw [ho] at hfailed
        cases hfailed
    · refine iff_of_false (by rw [ho']; simp) ?_
      rintro ⟨-, hover⟩
      exact hover ⟨⟨e', ho⟩, hfree, htree ▸ hdir⟩
    · rw [ho, ho', iff_self_and]
      exact fun _ => hnot hdir

end Report

/-- After a run over a project the same units are planned. -/
theorem plan_again {t : FileTree} {r : Resolved} {units : List Path} (hproject : t.IsProject)
    (hplan : plan t r = .ok units) : plan (treeAfter r t units) r = .ok units := by
  rw [plan] at hplan
  split_ifs at hplan with hroot
  obtain rfl := Except.ok.inj hplan
  obtain ⟨hroot', hsources⟩ := discoverSources_again hproject hroot (discoverSources t r).length
  rw [plan, treeAfter, if_pos hroot', hsources]

/-- **A second run** over a project, with the same settings, plans the same units, leaves the tree
as it is, and reports the same, but that it skips what the first run has left a test for, or a
directory where the test would go. -/
theorem run_again (t : FileTree) (r : Resolved) (hproject : t.IsProject) (res : RunResult)
    (hrun : run t r false = .ok res) :
    ∃ units res', plan t r = .ok units ∧ plan res.tree r = .ok units
      ∧ run res.tree r false = .ok res' ∧ RunsAgain t r units res res' := by
  rcases hroot : t.isDirectory r.srcRoot with - | -
  · -- without a source root there is no first run
    rw [run, plan, hroot] at hrun
    cases hrun
  · have hplan : plan t r = .ok (discoverSources t r) := by
      rw [plan, hroot]
      rfl
    have hplan' := plan_again hproject hplan
    have hprepared := prepared_discoverSources hproject hroot
    generalize discoverSources t r = units at *
    rw [run, hplan] at hrun
    obtain rfl := Except.ok.inj hrun
    refine ⟨units, _, hplan, ?_, ?_, runsAgain_of_prepared hprepared⟩
    · rw [tree_execute, hplan']
    · rw [tree_execute, run, hplan']
      rfl

/-- A project in which a source that cannot be read has its test where the directory for another
test will be. -/
def overtakenProject : FileTree where
  entries :=
    [(["src".toList], .directory),
      (["src".toList, "a.js".toList], .file ⟨#[0xff]⟩),
      (["src".toList, "a.test.js".toList], .directory),
      (["src".toList, "a.test.js".toList, "x.js".toList],
        .file "export function x() \x7b\x7d".toUTF8)]
  nodup := by decide

/-- Settings that keep existing tests. -/
def keepingSettings : Resolved :=
  ⟨.ofString "/src", .ofString "/out", none, ⟨[]⟩, .jest, false, true, none⟩

theorem isProject_overtakenProject : overtakenProject.IsProject := by
  refine isProject_of_entries fun x hx => ?_
  rw [overtakenProject] at hx
  simp only [List.mem_cons, List.not_mem_nil, or_false] at hx
  rcases hx with rfl | rfl | rfl | rfl
  all_goals exact ⟨by simp, by decide, rfl, by decide⟩

theorem plan_overtakenProject : plan overtakenProject keepingSettings
    = .ok [.ofString "/src/a.js", .ofString "/src/a.test.js/x.js"] :=
  @plan_of_found _ _ ["src".toList] _ rfl (by decide +kernel) (by decide +kernel)

theorem run_again_of_overtakenProject :
    ∃ res, overtakenProject.IsProject ∧ run overtakenProject keepingSettings false = .ok res
      ∧ ∃ units res', plan overtakenProject keepingSettings = .ok units
        ∧ plan res.tree keepingSettings = .ok units
        ∧ run res.tree keepingSettings false = .ok res'
        ∧ RunsAgain overtakenProject keepingSettings units res res' := by
  have hrun : run overtakenProject keepingSettings false
      = .ok (execute overtakenProject keepingSettings
        [.ofString "/src/a.js", .ofString "/src/a.test.js/x.js"] false) := by
    rw [run, plan_overtakenProject]
    rfl
  exact ⟨_, isProject_overtakenProject, hrun,
    run_again overtakenProject keepingSettings isProject_overtakenProject _ hrun⟩

/-- What failed need not fail again: in `overtakenProject` the first source cannot be read, and the
second run skips it, for the directory that now stands at its destination. -/
theorem not_all_failed_again :
    ∃ res res', keepingSettings.writePolicy = .skipExisting
      ∧ run overtakenProject keepingSettings false = .ok res
      ∧ run res.tree keepingSettings false = .ok res'
      ∧ res.outcomes = [.failed (.read (.ofString "/src/a.js") .notText),
        .generated (.ofString "/src/a.test.js/x.js") (.ofString "/out/a.test.js/x.test.js")]
      ∧ res'.outcomes = [.skipped (.ofString "/src/a.js") (.ofString "/out/a.test.js"),
        .skipped (.ofString "/src/a.test.js/x.js") (.ofString "/out/a.test.js/x.test.js")]
      ∧ ¬ ∀ (i : Nat) e, res.outcomes[i]? = some (.failed e) →
        res'.outcomes[i]? = some (.failed e) := by
  have hplan := plan_again isProject_overtakenProject plan_overtakenProject
  have hfirst : outcomesOf keepingSettings overtakenProject
      [.ofString "/src/a.js", .ofString "/src/a.test.js/x.js"]
        = [.failed (.read (.ofString "/src/a.js") .notText),
          .generated (.ofString "/src/a.test.js/x.js") (.ofString "/out/a.test.js/x.test.js")] := by
    decide +kernel
  have hsecond : outcomesOf keepingSettings (treeAfter keepingSettings overtakenProject
      [.ofString "/src/a.js", .ofString "/src/a.test.js/x.js"])
      [.ofString "/src/a.js", .ofString "/src/a.test.js/x.js"]
        = [.skipped (.ofString "/src/a.js") (.ofString "/out/a.test.js"),
          .skipped (.ofString "/src/a.test.js/x.js") (.ofString "/out/a.test.js/x.test.js")] := by
    decide +kernel
  refine ⟨execute overtakenProject keepingSettings
      [.ofString "/src/a.js", .ofString "/src/a.test.js/x.js"] false,
    execute (treeAfter keepingSettings overtakenProject
        [.ofString "/src/a.js", .ofString "/src/a.test.js/x.js"]) keepingSettings
      [.ofString "/src/a.js", .ofString "/src/a.test.js/x.js"] false,
    rfl, ?_, ?_, hfirst, hsecond, ?_⟩
  · -- the first run
    rw [run, plan_overtakenProject]
    rfl
  · -- the second run, of the same units
    rw [tree_execute, run, hplan]
    rfl
  · intro hall
    have hagain := hall 0 (.read (.ofString "/src/a.js") .notText)
    rw [outcomes_execute, outcomes_execute, hfirst, hsecond] at hagain
    cases hagain rfl

end Scaffold

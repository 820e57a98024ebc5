/-
Scaffold/Proofs/Run/Project.lean

Runs over the sources of a project.

A project is a tree of regular files and directories in which no name ends as
that of a temporary file does (`IsProject`).  In a project the tests of the
sources are laid out well (`Laid`): each is at a site, the files of different
sources do not meet, and no temporary file is on the way to a directory of
another test.

What processing a source needs of a tree (`Ready`) is kept by processing it, so
every unit of a run comes to what can be told in the tree it is processed in,
and leaves what `Leaves` says (`leaves_at`).
-/
import Scaffold.Proofs.Run.Effect
import Scaffold.Proofs.Run.Frame

namespace Scaffold

open Text Scaffold.Path FileTree

/-- A tree of regular files and directories in which no name ends in `.tmp`. -/
structure FileTree.IsProject (t : FileTree) : Prop where
  plain : t.IsPlain
  closed : t.IsClosed
  noTemporary : ∀ place n e, t.get? (place ++ [n]) = some e → ¬ ".tmp".toList <:+ n

/-- A tree is a project if each of its entries is in order. -/
theorem FileTree.isProject_of_entries {t : FileTree}
    (h : ∀ x ∈ t.entries, (∀ target, x.2 ≠ .link target) ∧ (∀ n ∈ x.1, IsName n)
      ∧ t.get? x.1.dropLast = some .directory ∧ ∀ n ∈ x.1.getLast?, ¬ ".tmp".toList <:+ n) :
    t.IsProject := by
  have hmem : ∀ {place n e}, t.get? (place ++ [n]) = some e → (place ++ [n], e) ∈ t.entries := by
    intro place n e he
    rcases mem_of_get? he with ⟨hnil, -⟩ | hmem
    · simp at hnil
    · exact hmem
  refine ⟨isPlain_of_entries fun x hx => ⟨(h x hx).1, (h x hx).2.1⟩, ?_, ?_⟩
  · intro place n e he
    have hdir := (h _ (hmem he)).2.2.1
    rwa [List.dropLast_concat] at hdir
  · intro place n e he
    exact (h _ (hmem he)).2.2.2 n (by simp)

/-! ### The layout of tests -/

section Places

variable {r : Resolved} {source : Path} {site : Site}

theorem place_targetOf (h : targetOf r source = site.target.path) :
    (targetOf r source).place = site.target.names := by
  rw [h, place_path]

theorem place_temporaryOf (h : targetOf r source = site.target.path) :
    (temporaryOf r source).place = site.temporary.names := by
  rw [temporaryOf, h, site.temporaryPath_target, place_path]

theorem place_directoryOf (h : targetOf r source = site.target.path) :
    (directoryOf r source).place = site.directory.names := by
  rw [directoryOf_site h, place_path]

end Places

/-- The tests of units are at sites, their files do not meet, and no temporary file is on the way to
a directory of a test. -/
structure Laid (r : Resolved) (units : List Path) : Prop where
  site : ∀ s ∈ units, ∃ site : Site, targetOf r s = site.target.path
  apart : Apart r units
  temporary_clear : ∀ s ∈ units, ∀ s' ∈ units,
    ¬ (temporaryOf r s).place <+: (directoryOf r s').place

theorem Laid.mono {r : Resolved} {units units' : List Path} (h : Laid r units)
    (hsub : units' ⊆ units) : Laid r units' where
  site s hs := h.site s (hsub hs)
  apart :=
    ⟨fun s hs s' hs' => h.apart.target_ne_temporary s (hsub hs) s' (hsub hs'),
      fun s hs s' hs' => h.apart.target_ne_source s (hsub hs) s' (hsub hs'),
      fun s hs s' hs' => h.apart.temporary_ne_source s (hsub hs) s' (hsub hs'),
      fun s hs s' hs' => h.apart.target_injective s (hsub hs) s' (hsub hs')⟩
  temporary_clear s hs s' hs' := h.temporary_clear s (hsub hs) s' (hsub hs')

section Planned

variable {t : FileTree} {r : Resolved} {source source' : Path} {dirs dirs' : List (List Char)}
  {n n' stem stem' ext ext' : List Char} {f : NormalForm}

/-- The site of the test of a planned source. -/
def PlannedAs.site (h : PlannedAs t r source dirs n stem ext) (f : NormalForm) : Site where
  directory := f.below dirs h.isName
  name := markedName n
  isName := h.sourceName.isName_markedName
  isName_temporary := h.sourceName.isName_temporaryName

theorem PlannedAs.targetOf_eq (h : PlannedAs t r source dirs n stem ext)
    (hf : normalParts r.outputRoot.parts = f.parts) :
    targetOf r source = (h.site f).target.path := by
  have hpath : (h.site f).target.path
      = ofSegments f.rooted (f.segments ++ dirs ++ [markedName n]) := by
    rw [Site.path_target, PlannedAs.site, NormalForm.segments_below]
    rfl
  rw [hpath, targetOf, h.eq]
  exact destination_pathBelow hf h.isName h.sourceName

/-- Above a planned source there are directories. -/
theorem PlannedAs.directory_above (hclosed : t.IsClosed)
    (h : PlannedAs t r source dirs n stem ext) {q : List (List Char)} (hq : q <+: dirs) :
    t.get? (r.srcRoot.place ++ q) = some .directory := by
  obtain ⟨contents, hfile⟩ := h.isFile
  obtain ⟨rest, rfl⟩ := hq
  rw [h.place_source, ← List.append_assoc, List.append_assoc (r.srcRoot.place ++ q)] at hfile
  exact hclosed.above hfile (by simp)

/-- A name on the way to the directory of a test, below the output root, is that of a directory on
the way to the source. -/
theorem PlannedAs.directory_on_way (hclosed : t.IsClosed)
    (h' : PlannedAs t r source' dirs' n' stem' ext') {dirs : List (List Char)} {m : List Char}
    (hlead : f.names ++ dirs ++ [m] <+: (h'.site f).directory.names) :
    t.get? (r.srcRoot.place ++ dirs ++ [m]) = some .directory := by
  have hdirs : f.names ++ (dirs ++ [m]) <+: f.names ++ dirs' := by
    rw [← List.append_assoc]
    exact hlead
  rw [List.append_assoc]
  exact h'.directory_above hclosed ((List.prefix_append_right_inj _).mp hdirs)

end Planned

/-- **The tests of a project are laid out well.** -/
theorem laid_discoverSources {t : FileTree} {r : Resolved} (hproject : t.IsProject)
    (hroot : t.isDirectory r.srcRoot = true) : Laid r (discoverSources t r) := by
  have hplanned := fun s (hs : s ∈ discoverSources t r) =>
    plannedAs_of_mem hproject.plain hroot hs
  obtain ⟨f, hf⟩ := exists_normalForm r.outputRoot
  refine ⟨?_, apart_discoverSources hproject.plain hroot, ?_⟩
  · intro s hs
    obtain ⟨dirs, n, stem, ext, h⟩ := hplanned s hs
    exact ⟨h.site f, h.targetOf_eq hf⟩
  · intro s hs s' hs' hlead
    obtain ⟨dirs, n, stem, ext, h⟩ := hplanned s hs
    obtain ⟨dirs', n', stem', ext', h'⟩ := hplanned s' hs'
    rw [place_temporaryOf (h.targetOf_eq hf), place_directoryOf (h'.targetOf_eq hf)] at hlead
    -- a directory of the project would be named like a temporary file
    have hdir := h'.directory_on_way hproject.closed hlead
    exact hproject.noTemporary _ _ _ hdir (List.suffix_append _ _)

/-! ### What a source needs and leaves -/

/-- What the units of a run need of a tree. -/
structure Ready (r : Resolved) (units : List Path) (t : FileTree) : Prop where
  linkFree : t.LinkFree
  closed : t.IsClosed
  free : ∀ s ∈ units, t.get? (temporaryOf r s).place = none

theorem ready_discoverSources {t : FileTree} {r : Resolved} (hproject : t.IsProject)
    (hroot : t.isDirectory r.srcRoot = true) : Ready r (discoverSources t r) t := by
  obtain ⟨f, hf⟩ := exists_normalForm r.outputRoot
  refine ⟨hproject.plain.linkFree, hproject.closed, ?_⟩
  intro s hs
  obtain ⟨dirs, n, stem, ext, h⟩ := plannedAs_of_mem hproject.plain hroot hs
  rw [place_temporaryOf (h.targetOf_eq hf)]
  rcases hget : t.get? (h.site f).temporary.names with - | e
  · rfl
  · exact absurd (List.suffix_append _ _) (hproject.noTemporary _ _ _ hget)

namespace FileTree

/-- A change that leaves a file wherever there was one. -/
def KeepsFiles (t t' : FileTree) : Prop :=
  ∀ q, (t.get? q).any Entry.isFile = true → (t'.get? q).any Entry.isFile = true

theorem KeepsFiles.refl (t : FileTree) : t.KeepsFiles t := fun _ h => h

theorem KeepsFiles.trans {t t' t'' : FileTree} (h : t.KeepsFiles t') (h' : t'.KeepsFiles t'') :
    t.KeepsFiles t'' := fun q hq => h' q (h q hq)

end FileTree

section Step

variable {r : Resolved} {policy : WritePolicy} {t t' : FileTree} {source : Path} {site : Site}
  {contents : ByteArray}

theorem fate_eq_kept (h : fate r policy t source = .kept) :
    policy = .skipExisting ∧ t.exists? (targetOf r source) = true := by
  rw [fate] at h
  split_ifs at h with hkept
  · exact hkept
  · split at h
    · cases h
    · split at h
      · cases h
      · split at h <;> cases h

theorem fate_eq_written (h : fate r policy t source = .written contents) :
    t.obstacle (directoryOf r source) = none ∧ t.refusal (targetOf r source) = none
      ∧ ∃ text, t.readText source = .ok text ∧ contents = documentOf r source text := by
  rw [fate] at h
  split_ifs at h with hkept
  split at h
  · cases h
  · next text hread =>
    split at h
    · cases h
    · next hobstacle =>
      split at h
      · cases h
      · next hrefusal => exact ⟨hobstacle, hrefusal, text, hread, (Fate.written.inj h).symm⟩

theorem refusal_eq_none {p : Path} (h : t.refusal p = none) :
    t.get? p.place ≠ some .directory := by
  intro hdir
  rw [refusal] at h
  split at h
  · cases h
  · split_ifs at h

/-- A test is written in a directory. -/
theorem reachOf_of_written (hsite : targetOf r source = site.target.path)
    (h : fate r policy t source = .written contents) :
    reachOf r policy t source = site.directory.names := by
  have hobstacle := (fate_eq_written h).1
  rw [directoryOf_site hsite] at hobstacle
  rw [reachOf, h, directoryOf_site hsite]
  exact (clear_of_obstacle hobstacle).2

namespace Leaves

theorem linkFree (h : Leaves r policy t source t') (hlink : t.LinkFree) : t'.LinkFree := by
  intro q target htarget
  rcases h.cases q with ⟨contents, -, -, hget⟩ | ⟨-, -, hget⟩ | hget
  · rw [htarget] at hget
    cases hget
  · rw [htarget] at hget
    cases hget
  · exact hlink q target (hget.symm.trans htarget)

theorem keeps (h : Leaves r policy t source t') : t.KeepsDirectories t' := by
  intro q hdir
  rcases h.cases q with ⟨contents, hfate, rfl, -⟩ | ⟨hnone, -⟩ | hget
  · -- a test is refused where a directory stands
    exact absurd hdir (refusal_eq_none (fate_eq_written hfate).2.1)
  · rw [hdir] at hnone
    cases hnone
  · exact hget.trans hdir

theorem keepsFiles (h : Leaves r policy t source t') : t.KeepsFiles t' := by
  intro q hfile
  rcases h.cases q with ⟨contents, -, -, hget⟩ | ⟨hnone, -⟩ | hget
  · rw [hget]
    rfl
  · rw [hnone] at hfile
    cases hfile
  · rw [hget]
    exact hfile

theorem isClosed (h : Leaves r policy t source t') (hsite : targetOf r source = site.target.path)
    (hclosed : t.IsClosed) : t'.IsClosed := by
  intro above n e he
  rcases h.cases (above ++ [n]) with ⟨contents, hfate, hplace, -⟩ | ⟨-, hlead, -⟩ | hget
  · -- the test itself: its directory is made on the way
    rw [place_targetOf hsite, site.names_target] at hplace
    obtain ⟨rfl, -⟩ := List.append_inj' hplace rfl
    refine h.way _ ?_
    rw [reachOf_of_written hsite hfate]
  · exact h.way _ ((List.prefix_append _ _).trans hlead)
  · exact h.keeps _ (hclosed _ _ _ (hget.symm.trans he))

end Leaves

/-- **Processing a unit leaves the tree ready for the others.** -/
theorem Ready.step {units : List Path} (hlaid : Laid r units) (hready : Ready r units t)
    (hs : source ∈ units) (h : Leaves r policy t source t') : Ready r units t' := by
  obtain ⟨site, hsite⟩ := hlaid.site source hs
  refine ⟨h.linkFree hready.linkFree, h.isClosed hsite hready.closed, ?_⟩
  intro s hs'
  rcases h.cases (temporaryOf r s).place with ⟨contents, -, hplace, -⟩ | ⟨-, hlead, -⟩ | hget
  · exact absurd hplace.symm (hlaid.apart.target_ne_temporary source hs s hs')
  · -- a directory made there would have the temporary file on the way to it
    refine absurd (hlead.trans (reachOf_isPrefix hsite)) ?_
    rw [← place_directoryOf hsite]
    exact hlaid.temporary_clear s hs' source hs
  · rw [hget, hready.free s hs']

theorem Ready.leaves {units : List Path} (hlaid : Laid r units) (hready : Ready r units t)
    (hs : source ∈ units) :
    (processUnit r policy false t source).outcome = (fate r policy t source).outcome r source
      ∧ Leaves r policy t source (processUnit r policy false t source).tree := by
  obtain ⟨site, hsite⟩ := hlaid.site source hs
  refine processUnit_fate hready.linkFree hready.closed hsite ?_
  rw [← place_temporaryOf hsite]
  exact hready.free source hs

end Step

/-! ### The units of a run -/

section Run

variable {r : Resolved} {t : FileTree} {units : List Path} {i j : Nat} {source : Path}

theorem processUnit_at (hi : units[i]? = some source) :
    (outcomesOf r t units)[i]?
        = some (processUnit r r.writePolicy false (treeAt r t units i) source).outcome
      ∧ treeAt r t units (i + 1)
        = (processUnit r r.writePolicy false (treeAt r t units i) source).tree := by
  induction units generalizing t i with
  | nil => simp at hi
  | cons s units ih =>
    rw [outcomesOf_cons]
    cases i with
    | zero =>
      obtain rfl : s = source := by simpa using hi
      exact ⟨rfl, rfl⟩
    | succ i =>
      rw [List.getElem?_cons_succ] at hi ⊢
      rw [treeAt_cons_succ, treeAt_cons_succ]
      exact ih hi

theorem ready_treeAt (hlaid : Laid r units) (hready : Ready r units t) (i : Nat) :
    Ready r units (treeAt r t units i) := by
  induction i with
  | zero => exact hready
  | succ i ih =>
    rcases hi : units[i]? with - | s
    · rw [treeAt_succ_of_none hi]
      exact ih
    · have hs := List.mem_of_getElem? hi
      rw [(processUnit_at hi).2]
      exact ih.step hlaid hs (ih.leaves hlaid hs).2

/-- **Every unit of a run comes to what can be told in the tree it is processed in.** -/
theorem leaves_at (hlaid : Laid r units) (hready : Ready r units t) (hi : units[i]? = some source) :
    (outcomesOf r t units)[i]?
        = some ((fate r r.writePolicy (treeAt r t units i) source).outcome r source)
      ∧ Leaves r r.writePolicy (treeAt r t units i) source (treeAt r t units (i + 1)) := by
  obtain ⟨houtcome, htree⟩ := processUnit_at (r := r) (t := t) hi
  have h := @Ready.leaves r r.writePolicy _ source units hlaid (ready_treeAt hlaid hready i)
    (List.mem_of_getElem? hi)
  rw [houtcome, htree, h.1]
  exact ⟨rfl, h.2⟩

theorem keepsFiles_between (hlaid : Laid r units) (hready : Ready r units t) (hij : i ≤ j) :
    (treeAt r t units i).KeepsFiles (treeAt r t units j) := by
  induction j, hij using Nat.le_induction with
  | base => exact .refl _
  | succ j hij ih =>
    rcases hj : units[j]? with - | s
    · rw [treeAt_succ_of_none hj]
      exact ih
    · exact ih.trans (leaves_at hlaid hready hj).2.keepsFiles

end Run

/-! ### A project and its sources -/

/-- A tree and units of a run over it: the tests are laid out well, the tree is ready, no unit comes
twice, and each is a file that can be followed to. -/
structure Prepared (r : Resolved) (t : FileTree) (units : List Path) : Prop where
  laid : Laid r units
  ready : Ready r units t
  nodup : units.Nodup
  opens : ∀ s ∈ units, t.Opens [] s.steps
  isFile : ∀ s ∈ units, ∃ contents, t.get? s.place = some (.file contents)

/-- **A project is prepared for a run over its sources.** -/
theorem prepared_discoverSources {t : FileTree} {r : Resolved} (hproject : t.IsProject)
    (hroot : t.isDirectory r.srcRoot = true) : Prepared r t (discoverSources t r) where
  laid := laid_discoverSources hproject hroot
  ready := ready_discoverSources hproject hroot
  nodup := discoverSources_nodup hproject.plain hroot
  opens := by
    intro s hs
    obtain ⟨dirs, n, stem, ext, h⟩ := plannedAs_of_mem hproject.plain hroot hs
    exact h.opens
  isFile := by
    intro s hs
    obtain ⟨dirs, n, stem, ext, h⟩ := plannedAs_of_mem hproject.plain hroot hs
    exact h.isFile

namespace Prepared

variable {r : Resolved} {t : FileTree} {units order : List Path}

theorem perm (h : Prepared r t units) (hperm : order.Perm units) : Prepared r t order where
  laid := h.laid.mono fun _ hs => hperm.mem_iff.mp hs
  ready := ⟨h.ready.linkFree, h.ready.closed, fun s hs => h.ready.free s (hperm.mem_iff.mp hs)⟩
  nodup := hperm.nodup_iff.mpr h.nodup
  opens s hs := h.opens s (hperm.mem_iff.mp hs)
  isFile s hs := h.isFile s (hperm.mem_iff.mp hs)

/-- A unit is read as it was before the run, in any tree with the directories and the file it is
read from. -/
theorem readText_eq (h : Prepared r t units) {s : Path} (hs : s ∈ units) {t' : FileTree}
    (hkeep : t.KeepsDirectories t') (hfile : t'.get? s.place = t.get? s.place) :
    t'.readText s = t.readText s :=
  readText_congr h.ready.linkFree (h.opens s hs) ((h.opens s hs).mono hkeep) hfile

theorem get?_source (h : Prepared r t units) {s : Path} (hs : s ∈ units) (i : Nat) :
    (treeAt r t units i).get? s.place = t.get? s.place := by
  obtain ⟨contents, hfile⟩ := h.isFile s hs
  rw [source_between h.ready.linkFree h.laid.apart hs hfile i, hfile]

theorem readText_treeAt (h : Prepared r t units) {s : Path} (hs : s ∈ units) (i : Nat) :
    (treeAt r t units i).readText s = t.readText s :=
  h.readText_eq hs (keeps_between h.ready.linkFree h.laid.apart (Nat.zero_le i))
    (h.get?_source hs i)

end Prepared

end Scaffold

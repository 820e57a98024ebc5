/-
Scaffold/Proofs/Run/Discovery.lean

The sources of a run, and the places it writes to.

In a tree of regular files and directories a discovered source is a file that
stands below the source root, under directories all the way down
(`plannedAs_of_mem`), and none is discovered twice (`discoverSources_nodup`).

From that follows where the files of a run stand.  A source, its test and its
temporary file have names of three kinds, and the test of a source is at its
directories below the output root.  So the tests of different sources are at
different places, and neither a test nor a temporary file is ever where a
source is, or where the test of another source is.
-/
import Scaffold.Proofs.FileTree.Change
import Scaffold.Proofs.Path.Destination
import Scaffold.Proofs.Run.Walk
import Scaffold.Run.Basic

namespace Scaffold

open Text Scaffold.Path

namespace FileTree

/-- A tree of regular files and directories under names they can have. -/
structure IsPlain (t : FileTree) : Prop where
  linkFree : t.LinkFree
  isName : ∀ place e, t.get? place = some e → ∀ n ∈ place, IsName n

variable {t : FileTree}

/-- A tree is plain if each of its entries is. -/
theorem isPlain_of_entries
    (h : ∀ x ∈ t.entries, (∀ target, x.2 ≠ .link target) ∧ ∀ n ∈ x.1, IsName n) : t.IsPlain := by
  constructor
  · intro place target htarget
    rcases mem_of_get? htarget with ⟨-, h'⟩ | hmem
    · cases h'
    · exact (h _ hmem).1 target rfl
  · intro place e he
    rcases mem_of_get? he with ⟨rfl, -⟩ | hmem
    · simp
    · exact (h _ hmem).2

end FileTree

open FileTree

/-! ### Walking -/

/-- In a plain tree what is led to is a file, under directories from where the way began. -/
theorem LeadsTo.opens {t : FileTree} {here : Place} {names : List (List Char)} (hplain : t.IsPlain)
    (hhere : t.get? here = some .directory) (h : LeadsTo t.listing (here.map .text) names) :
    names ≠ [] ∧ (∀ n ∈ names, IsName n) ∧ t.Opens here names
      ∧ ∃ contents, t.get? (here ++ names) = some (.file contents) := by
  have hnext : ∀ (here : Place) (name : List Char),
      here.map FileName.text ++ [.text name] = (here ++ [name]).map .text := by simp
  generalize hlisted : here.map FileName.text = listed at h
  induction h generalizing here with
  | @file _ name contents mem =>
    rw [← hlisted, hnext, mem_listing_iff_get? (by simp)] at mem
    have hname : IsName name := hplain.isName _ _ mem name (by simp)
    exact ⟨by simp, by simpa using hname, ⟨hhere, trivial⟩, contents, mem⟩
  | @directory _ name names mem entered below ih =>
    rw [← hlisted, hnext, mem_listing_iff_get? (by simp)] at mem
    have hname : IsName name := hplain.isName _ _ mem name (by simp)
    obtain ⟨-, hnames, hopens, contents, hfile⟩ := ih mem (by rw [← hlisted, hnext])
    refine ⟨by simp, List.forall_mem_cons.mpr ⟨hname, hnames⟩, ⟨hhere, ?_⟩, contents, ?_⟩
    · rw [stepFrom_name hname]
      exact hopens
    · rwa [List.append_assoc] at hfile

/-! ### Planned sources -/

/-- A source with its directories and its name below the source root. -/
structure PlannedAs (t : FileTree) (r : Resolved) (source : Path) (dirs : List (List Char))
    (n stem ext : List Char) : Prop where
  eq : source = pathBelow r.srcRoot (dirs ++ [n])
  isName : ∀ d ∈ dirs, IsName d
  sourceName : SourceName n stem ext
  opens : t.Opens [] source.steps
  isFile : ∃ contents, t.get? source.place = some (.file contents)

/-- Where the test of a source goes. -/
abbrev targetOf (r : Resolved) (source : Path) : Path := destination source r.srcRoot r.outputRoot

theorem placeFrom_named (p : Path) : placeFrom [] p.named = p.place := by
  rw [Path.place, steps_eq]
  split_ifs
  · rw [placeFrom_append]
    rfl
  · rfl

theorem opens_named {t : FileTree} {p : Path} (h : t.Opens [] p.steps) : t.Opens [] p.named := by
  rw [steps_eq] at h
  split_ifs at h
  · exact (opens_append.mp h).1
  · exact h

/-- **Every discovered source is planned below the source root.** -/
theorem plannedAs_of_mem {t : FileTree} {r : Resolved} (hplain : t.IsPlain)
    (hroot : t.isDirectory r.srcRoot = true) {source : Path} (h : source ∈ discoverSources t r) :
    ∃ dirs n stem ext, PlannedAs t r source dirs n stem ext := by
  obtain ⟨hp, hopens, hdir⟩ := (entryAt?_eq_some hplain.linkFree).mp (isDirectory_iff.mp hroot)
  rw [discoverSources, locate_of_opens hplain.linkFree (by decide) hp hopens hdir] at h
  simp only [sourcesBelow, List.mem_mergeSort] at h
  obtain ⟨names, hmem, rfl⟩ := List.mem_map.mp h
  obtain ⟨hwalk, hsource⟩ := List.mem_filter.mp hmem
  obtain ⟨hne, hnames, hbelow, contents, hfile⟩ :=
    (mem_filesBelow_iff.mp hwalk).opens hplain hdir
  rw [isSource, Bool.and_eq_true] at hsource
  obtain ⟨dirs, n, rfl⟩ : ∃ dirs n, names = dirs ++ [n] := by
    obtain ⟨dirs, n, rfl⟩ := (List.eq_nil_or_concat names).resolve_left hne
    exact ⟨dirs, n, by rw [List.concat_eq_append]⟩
  rw [List.getLast?_append, List.getLast?_singleton] at hsource
  obtain ⟨stem, ext, hname⟩ :=
    sourceName_of_isSourceName (hnames n (by simp)) (by simpa using hsource.1)
  have hsteps := @steps_pathBelow r.srcRoot _ hne hnames
  refine ⟨dirs, n, stem, ext, rfl, fun d hd => hnames d (by simp [hd]), hname, ?_, contents, ?_⟩
  · -- the directories on the way are open
    rw [hsteps, opens_append, placeFrom_named]
    exact ⟨opens_named hopens, hbelow⟩
  · -- and the file stands at their end
    rw [Path.place, hsteps, placeFrom_append, placeFrom_named, placeFrom_names hnames]
    exact hfile

theorem pathBelow_injective {root : Path} {names names' : List (List Char)}
    (h : ∀ n ∈ names, IsName n) (h' : ∀ n ∈ names', IsName n)
    (heq : pathBelow root names = pathBelow root names') : names = names' := by
  have hparts := congrArg Path.parts heq
  rw [parts_pathBelow h, parts_pathBelow h', List.append_cancel_left_eq] at hparts
  exact List.map_injective_iff.mpr (fun _ _ h => Part.name.inj h) hparts

/-- **No source is discovered twice.** -/
theorem discoverSources_nodup {t : FileTree} {r : Resolved} (hplain : t.IsPlain)
    (hroot : t.isDirectory r.srcRoot = true) : (discoverSources t r).Nodup := by
  obtain ⟨hp, hopens, hdir⟩ := (entryAt?_eq_some hplain.linkFree).mp (isDirectory_iff.mp hroot)
  rw [discoverSources, locate_of_opens hplain.linkFree (by decide) hp hopens hdir]
  refine (List.mergeSort_perm _ _).nodup_iff.mpr (List.Nodup.map_on ?_ ?_)
  · intro names hmem names' hmem' heq
    have hisName : ∀ names ∈ (filesBelow t.listing (r.srcRoot.place.map .text)).filter (isSource r),
        ∀ n ∈ names, IsName n := fun names hmem =>
      ((mem_filesBelow_iff.mp (List.mem_filter.mp hmem).1).opens hplain hdir).2.1
    exact pathBelow_injective (hisName _ hmem) (hisName _ hmem') heq
  · exact (walk_nodup _ _ _).filter _

/-- The sources of a run, where what is found is in order as it is. -/
theorem plan_of_found {t : FileTree} {r : Resolved} {root : Place} {sources : List Path}
    (hlocate : t.locate .target r.srcRoot = .ok (.entry root .directory))
    (hfound : ((filesBelow t.listing (root.map .text)).filter (isSource r)).map
      (pathBelow r.srcRoot) = sources)
    (hsorted : sources.Pairwise fun p q => p.le q = true) : plan t r = .ok sources := by
  have hdir : t.isDirectory r.srcRoot = true := by
    rw [FileTree.isDirectory, entryAt?, hlocate]
    rfl
  rw [plan, if_pos hdir, discoverSources, hlocate]
  simp only [sourcesBelow, hfound]
  rw [List.mergeSort_of_pairwise hsorted]

/-! ### Where the files of a run stand -/

namespace PlannedAs

variable {t : FileTree} {r : Resolved} {source source' : Path} {dirs dirs' : List (List Char)}
  {n n' stem stem' ext ext' : List Char}

theorem names_isName (h : PlannedAs t r source dirs n stem ext) : ∀ m ∈ dirs ++ [n], IsName m := by
  intro m hm
  rcases List.mem_append.mp hm with hm | hm
  · exact h.isName m hm
  · exact List.mem_singleton.mp hm ▸ h.sourceName.isName

theorem place_source (h : PlannedAs t r source dirs n stem ext) :
    source.place = r.srcRoot.place ++ dirs ++ [n] := by
  rw [h.eq, Path.place, steps_pathBelow (by simp) h.names_isName, placeFrom_append, placeFrom_named,
    placeFrom_names h.names_isName, List.append_assoc]

/-- A path in the directory of the test, as segments and as a place. -/
theorem place_beside (h : PlannedAs t r source dirs n stem ext) {f : NormalForm} {m : List Char}
    (hm : IsName m) :
    (ofSegments f.rooted (f.segments ++ dirs ++ [m])).place
      = placeFrom [] f.segments ++ dirs ++ [m] := by
  have hsegs : ∀ s ∈ f.segments ++ dirs ++ [m], IsSegment s := by
    intro s hs
    simp only [List.mem_append, List.mem_singleton] at hs
    rcases hs with (hs | hs) | rfl
    · exact f.isSegment_segments s hs
    · exact (h.isName s hs).1
    · exact hm.1
  rw [Path.place, steps_ofSegments (by simp) hsegs, placeFrom_append, placeFrom_append,
    placeFrom_names h.isName, placeFrom_names (by simpa using hm)]

/-- **Where the test and the temporary file of a source stand**: in its directories below a place
that is the same for all sources, under names made from its own. -/
theorem places (h : PlannedAs t r source dirs n stem ext) {f : NormalForm}
    (hf : normalParts r.outputRoot.parts = f.parts) :
    (targetOf r source).place = placeFrom [] f.segments ++ dirs ++ [markedName n]
      ∧ (temporaryPath (targetOf r source)).place
        = placeFrom [] f.segments ++ dirs ++ [temporaryName (markedName n)] := by
  have hfront : ∀ s ∈ f.segments ++ dirs, IsStep s := by
    intro s hs
    rcases List.mem_append.mp hs with hs | hs
    · exact f.isStep_segments s hs
    · exact (h.isName s hs).isStep
  have htarget : targetOf r source
      = ofSegments f.rooted (f.segments ++ dirs ++ [markedName n]) := by
    rw [targetOf, h.eq]
    exact destination_pathBelow hf h.isName h.sourceName
  rw [htarget, temporaryPath_ofSegments hfront h.sourceName.isName_markedName
    h.sourceName.isName_temporaryName]
  exact ⟨h.place_beside h.sourceName.isName_markedName,
    h.place_beside h.sourceName.isName_temporaryName⟩

/-- The test of a source is at no place of a source. -/
theorem target_ne_source (h : PlannedAs t r source dirs n stem ext)
    (h' : PlannedAs t r source' dirs' n' stem' ext') :
    (targetOf r source).place ≠ source'.place := by
  obtain ⟨f, hf⟩ := exists_normalForm r.outputRoot
  rw [(h.places hf).1, h'.place_source]
  intro heq
  exact h.sourceName.markedName_ne h'.sourceName
    (List.singleton_inj.mp (List.append_inj_right' heq rfl))

/-- A temporary file is at no place of a source. -/
theorem temporary_ne_source (h : PlannedAs t r source dirs n stem ext)
    (h' : PlannedAs t r source' dirs' n' stem' ext') :
    (temporaryPath (targetOf r source)).place ≠ source'.place := by
  obtain ⟨f, hf⟩ := exists_normalForm r.outputRoot
  rw [(h.places hf).2, h'.place_source]
  intro heq
  exact h.sourceName.temporaryName_ne h'.sourceName
    (List.singleton_inj.mp (List.append_inj_right' heq rfl))

/-- A temporary file is at no place of a test. -/
theorem temporary_ne_target (h : PlannedAs t r source dirs n stem ext)
    (h' : PlannedAs t r source' dirs' n' stem' ext') :
    (temporaryPath (targetOf r source)).place ≠ (targetOf r source').place := by
  obtain ⟨f, hf⟩ := exists_normalForm r.outputRoot
  rw [(h.places hf).2, (h'.places hf).1]
  intro heq
  exact h.sourceName.temporaryName_ne_markedName h'.sourceName
    (List.singleton_inj.mp (List.append_inj_right' heq rfl))

/-- **Different sources have their tests at different places.** -/
theorem target_injective (h : PlannedAs t r source dirs n stem ext)
    (h' : PlannedAs t r source' dirs' n' stem' ext')
    (heq : (targetOf r source).place = (targetOf r source').place) : source = source' := by
  obtain ⟨f, hf⟩ := exists_normalForm r.outputRoot
  rw [(h.places hf).1, (h'.places hf).1, List.append_assoc, List.append_assoc,
    List.append_cancel_left_eq] at heq
  have hname := h.sourceName.markedName_injective h'.sourceName
    (List.singleton_inj.mp (List.append_inj_right' heq rfl))
  rw [h.eq, h'.eq, hname, List.append_inj_left' heq rfl]

end PlannedAs

end Scaffold

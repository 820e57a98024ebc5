/-
Scaffold/Proofs/Run/Tests.lean

Tests of different sources never meet.

A file below the source root is known by its names below it, whichever way the
two are written (`SourceBelow`).  Its test has the same directories below the
output root and the marked name (`TestAt`), so that

* `destination_apart` — tests of different sources are different files, and
  neither a test nor what stands beside it while it is written is a source or
  another's test.

Nothing is supposed of the two roots: they may overlap, and be written with `.`
and `..`.
-/
import Scaffold.Proofs.Path.Reading
import Scaffold.Proofs.Run.Effect

namespace Scaffold

open Text Scaffold.Path

/-! ### Sources -/

/-- A file below a root that has the name of a source: read, its path is the root's, directories,
and that name. -/
structure SourceBelow (root source : Path) (dirs : List (List Char)) (name : List Char) : Prop where
  parts_eq : normalParts source.parts = normalParts root.parts ++ (dirs ++ [name]).map .name
  isSourceName : isSourceName name = true

namespace SourceBelow

variable {root source source' : Path} {dirs dirs' : List (List Char)} {name name' : List Char}

theorem isName_dirs (h : SourceBelow root source dirs name) : ∀ d ∈ dirs, IsName d :=
  fun d hd => isName_of_normalParts h.parts_eq d (List.mem_append_left _ hd)

theorem isName_name (h : SourceBelow root source dirs name) : IsName name :=
  isName_of_normalParts h.parts_eq name (List.mem_append_right _ List.mem_cons_self)

/-- A source is one file: its names are told by its path. -/
theorem normalize_eq (h : SourceBelow root source dirs name)
    (h' : SourceBelow root source' dirs' name') (hdirs : dirs = dirs') (hname : name = name') :
    source.normalize = source'.normalize := by
  rw [normalize_eq_iff, h.parts_eq, h'.parts_eq, hdirs, hname]

/-- The site of the test of a source. -/
theorem exists_site (h : SourceBelow root source dirs name) (outputRoot : Path) :
    ∃ (f : NormalForm) (site : Site) (stem ext : List Char), outputRoot.normalize = f.path
      ∧ SourceName name stem ext ∧ site.directory = f.below dirs h.isName_dirs
      ∧ site.name = markedName name
      ∧ destination source root outputRoot = site.target.path := by
  obtain ⟨f, hf⟩ := exists_normalForm outputRoot
  obtain ⟨stem, ext, hs⟩ := sourceName_of_isSourceName h.isName_name h.isSourceName
  let site : Site :=
    ⟨f.below dirs h.isName_dirs, markedName name, hs.isName_markedName, hs.isName_temporaryName⟩
  refine ⟨f, site, stem, ext, Path.normalize_eq hf, hs, rfl, rfl, ?_⟩
  rw [destination_eq hf h.parts_eq hs, Site.path_target, NormalForm.segments_below]
  rfl

end SourceBelow

/-! ### Names of normalised paths -/

namespace Site

variable (site : Site)

theorem getLast?_target :
    (normalParts site.target.path.parts).getLast? = some (.name site.name) := by
  rw [NormalForm.parts_path, NormalForm.normalParts_parts, target, NormalForm.parts_below,
    List.map_singleton, List.getLast?_concat]

theorem getLast?_temporary :
    (normalParts site.temporary.path.parts).getLast? = some (.name (temporaryName site.name)) := by
  rw [NormalForm.parts_path, NormalForm.normalParts_parts, temporary, NormalForm.parts_below,
    List.map_singleton, List.getLast?_concat]

end Site

/-! ### Tests -/

/-- What the test of a source below some directories is. -/
structure TestAt (outputRoot : Path) (dirs : List (List Char)) (name : List Char) (test : Path) :
    Prop where
  /-- It has these directories below the output root; its name is marked before the extension. -/
  place : ∃ stem ext, name = stem ++ '.' :: ext ∧ '.' ∉ ext
    ∧ test = pathBelow outputRoot.normalize (dirs ++ [stem ++ ".test.".toList ++ ext])
  marked : isTestFile test = true
  temporary : temporaryPath test = ⟨test.chars ++ ".tmp".toList⟩
  /-- Neither it nor its temporary file is the file of a source, wherever. -/
  notSource : ∀ (p : Path) (n : List Char), p.fileName = some n → isSourceName n = true →
    test.normalize ≠ p.normalize ∧ (temporaryPath test).normalize ≠ p.normalize

/-- The path some names lead to from a path of segments. -/
theorem pathBelow_ofSegments {b : Bool} {segs names : List (List Char)}
    (h : ∀ s ∈ segs, IsSegment s) (hnames : ∀ n ∈ names, IsName n) :
    pathBelow (ofSegments b segs) names = ofSegments b (segs ++ names) := by
  induction names using List.reverseRecOn with
  | nil => rw [List.append_nil]; rfl
  | append_singleton names n ih =>
    have hn := (hnames n (by simp)).1
    have hself : (⟨n⟩ : Path) = ofSegments false [n] := by
      rw [ofSegments, slashed_singleton]
      rfl
    have hfront : ∀ s ∈ segs ++ names, IsSegment s := by
      intro s hs
      rcases List.mem_append.mp hs with hs | hs
      · exact h s hs
      · exact (hnames s (List.mem_append_left _ hs)).1
    rw [pathBelow_concat, ih fun m hm => hnames m (List.mem_append_left _ hm), hself,
      join_ofSegments hfront (by simp) (by simpa using hn), List.append_assoc]

section Apart

variable {root outputRoot source source' : Path} {dirs dirs' : List (List Char)}
  {name name' : List Char}

/-- **The test of a source** stands where the source does, below the output root. -/
theorem testAt_destination (h : SourceBelow root source dirs name) (outputRoot : Path) :
    TestAt outputRoot dirs name (destination source root outputRoot) := by
  obtain ⟨f, site, stem, ext, hout, hs, hdir, hname, htest⟩ := h.exists_site outputRoot
  obtain ⟨hstem, hext, -⟩ := splitExtension_eq_some.mp hs.split
  have hsegments : site.target.path = ofSegments f.rooted (f.segments ++ dirs ++ [site.name]) := by
    rw [Site.path_target, hdir, NormalForm.segments_below]
    rfl
  have hfile : site.target.path.fileName = some (markedName name) := by
    rw [Site.path_target, hname]
    exact fileName_ofSegments site.directory.isStep_segments hs.isName_markedName
  rw [htest]
  constructor
  case place =>
    refine ⟨stem, ext, hstem, hext, ?_⟩
    have hmarked : stem ++ ".test.".toList ++ ext = site.name := by
      rw [hname, hs.markedName_eq]
      simp
    have hnames : ∀ n ∈ dirs ++ [site.name], IsName n := by
      intro n hn
      rcases List.mem_append.mp hn with hn | hn
      · exact h.isName_dirs n hn
      · exact List.mem_singleton.mp hn ▸ site.isName
    rw [hsegments, hout, hmarked, List.append_assoc]
    exact (pathBelow_ofSegments f.isSegment_segments hnames).symm
  case marked =>
    rw [isTestFile_of_fileName hfile, nameStem_of_split hs.split_markedName, List.any_eq_true]
    exact ⟨".test".toList, by decide, List.isSuffixOf_iff_suffix.mpr (List.suffix_append _ _)⟩
  case temporary =>
    rw [site.temporaryPath_target, ← site.chars_temporary]
  case notSource =>
    intro p n hp hn
    obtain ⟨dir, -, hpname, -⟩ := parts_parent hp
    obtain ⟨stem', ext', hs'⟩ := sourceName_of_isSourceName hpname hn
    have hlast := getLast?_normalParts hp
    rw [site.temporaryPath_target]
    constructor
    · intro heq
      rw [← normalize_eq_iff.mp heq, site.getLast?_target, hname] at hlast
      exact hs.markedName_ne hs' (Part.name.inj (Option.some.inj hlast))
    · intro heq
      rw [← normalize_eq_iff.mp heq, site.getLast?_temporary, hname] at hlast
      exact hs.temporaryName_ne hs' (Part.name.inj (Option.some.inj hlast))

/-- The test of a source tells the source. -/
theorem names_of_normalize_destination (h : SourceBelow root source dirs name)
    (h' : SourceBelow root source' dirs' name')
    (heq : (destination source root outputRoot).normalize
      = (destination source' root outputRoot).normalize) : dirs = dirs' ∧ name = name' := by
  obtain ⟨f, site, stem, ext, hout, hs, hdir, hname, htest⟩ := h.exists_site outputRoot
  obtain ⟨f', site', stem', ext', hout', hs', hdir', hname', htest'⟩ := h'.exists_site outputRoot
  obtain hf : f.path = f'.path := hout.symm.trans hout'
  have hparts : f.parts = f'.parts := by rw [← f.parts_path, hf, f'.parts_path]
  rw [htest, htest', NormalForm.normalize_path, NormalForm.normalize_path] at heq
  have hread : f.parts ++ (dirs ++ [site.name]).map .name
      = f.parts ++ (dirs' ++ [site'.name]).map .name := by
    have := congrArg Path.parts heq
    rw [NormalForm.parts_path, NormalForm.parts_path, Site.target, Site.target,
      NormalForm.parts_below, NormalForm.parts_below, hdir, hdir', NormalForm.parts_below,
      NormalForm.parts_below, hparts] at this
    simpa [hparts] using this
  have hnames : dirs ++ [site.name] = dirs' ++ [site'.name] :=
    List.map_injective_iff.mpr (fun _ _ h => Part.name.inj h) (List.append_cancel_left hread)
  obtain ⟨hdirs, hlast⟩ := List.append_inj' hnames rfl
  refine ⟨hdirs, hs.markedName_injective hs' ?_⟩
  rw [← hname, ← hname']
  exact (List.cons.inj hlast).1

/-- What stands beside a test while it is written is no test. -/
theorem temporaryPath_destination_ne (h : SourceBelow root source dirs name)
    (h' : SourceBelow root source' dirs' name') :
    (temporaryPath (destination source root outputRoot)).normalize
      ≠ (destination source' root outputRoot).normalize := by
  obtain ⟨f, site, stem, ext, -, hs, -, hname, htest⟩ := h.exists_site outputRoot
  obtain ⟨f', site', stem', ext', -, hs', -, hname', htest'⟩ := h'.exists_site outputRoot
  rw [htest, htest', site.temporaryPath_target]
  intro heq
  have hlast := site'.getLast?_target
  rw [← normalize_eq_iff.mp heq, site.getLast?_temporary, hname, hname'] at hlast
  exact hs.temporaryName_ne_markedName hs' (Part.name.inj (Option.some.inj hlast))

/-- **No two sources share an output.**  The test of a source below the source root stands at its
directories below the output root under the marked name, it and its temporary file are no source,
and of the tests of two different sources neither it nor its temporary file is the other. -/
theorem destination_apart (h : SourceBelow root source dirs name) (outputRoot : Path) :
    TestAt outputRoot dirs name (destination source root outputRoot)
      ∧ ∀ (source' : Path) (dirs' : List (List Char)) (name' : List Char),
        SourceBelow root source' dirs' name' → source.normalize ≠ source'.normalize →
        (destination source root outputRoot).normalize
            ≠ (destination source' root outputRoot).normalize
          ∧ (temporaryPath (destination source root outputRoot)).normalize
            ≠ (destination source' root outputRoot).normalize := by
  refine ⟨testAt_destination h outputRoot, fun source' dirs' name' h' hne => ⟨?_, ?_⟩⟩
  · intro heq
    obtain ⟨hdirs, hname⟩ := names_of_normalize_destination h h' heq
    exact hne (h.normalize_eq h' hdirs hname)
  · exact temporaryPath_destination_ne h h'

end Apart

/-- Two sources that differ in their extensions, below a root and an output root written with
dots. -/
theorem destination_apart_of_dottedRoots :
    let root := Path.ofString "./src/../lib"
    let outputRoot := Path.ofString "../out/./lib/.."
    let source := Path.ofString "lib/ui/../store.index.js"
    let source' := Path.ofString "lib//store.index.ts"
    SourceBelow root source [] "store.index.js".toList
      ∧ SourceBelow root source' [] "store.index.ts".toList
      ∧ source.normalize ≠ source'.normalize
      ∧ TestAt outputRoot [] "store.index.js".toList (destination source root outputRoot)
      ∧ (destination source root outputRoot).normalize
          ≠ (destination source' root outputRoot).normalize
      ∧ (temporaryPath (destination source root outputRoot)).normalize
          ≠ (destination source' root outputRoot).normalize := by
  intro root outputRoot source source'
  have h : SourceBelow root source [] "store.index.js".toList := ⟨by decide, by decide⟩
  have h' : SourceBelow root source' [] "store.index.ts".toList := ⟨by decide, by decide⟩
  have hne : source.normalize ≠ source'.normalize := by decide
  obtain ⟨htest, hothers⟩ := destination_apart h outputRoot
  exact ⟨h, h', hne, htest, hothers source' [] _ h' hne⟩

end Scaffold

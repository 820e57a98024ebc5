/-
Scaffold/Proofs/Path/Destination.lean

Where the tests of a run go.

The test of a file has the file's location below the output root, but for its
name (`destination_of_location`).  A source of a run is written as its names
behind the source root (`pathBelow`).  Its test goes to the same directories
below the normalised output root, under a marked name (`destination_eq`, however
the source is written, and `destination_pathBelow`), and the temporary file
stands beside it (`temporaryPath_ofSegments`).

Three kinds of names never meet (`SourceName`): names of sources, names of
their tests, and names of temporary files.  Different sources have different
tests (`markedName_injective`).
-/
import Mathlib.Data.List.Induction
import Mathlib.Data.List.TakeDrop
import Mathlib.Data.List.TakeWhile
import Scaffold.Proofs.Path.Normal
import Scaffold.Run.Discovery
import Scaffold.Run.Unit

namespace Scaffold

open Text Scaffold.Path

/-! ### Extensions -/

namespace Path

/-- A name is cut at its last dot, unless that is its first character. -/
theorem splitExtension_eq_some {name stem ext : List Char} :
    splitExtension name = some (stem, ext)
      ↔ name = stem ++ '.' :: ext ∧ '.' ∉ ext ∧ stem ≠ [] := by
  rw [splitExtension, List.span_eq_takeWhile_dropWhile]
  constructor
  · intro h
    have hname : name = (name.reverse.dropWhile (· != '.')).reverse
        ++ (name.reverse.takeWhile (· != '.')).reverse := by
      rw [← List.reverse_append, List.takeWhile_append_dropWhile, List.reverse_reverse]
    have hhead := List.head?_dropWhile_not (fun c => c != '.') name.reverse
    rcases hrest : name.reverse.dropWhile (· != '.') with - | ⟨dot, rest⟩
    · -- there is no dot
      rw [hrest] at h
      cases h
    · -- the cut is at the last dot
      rw [hrest] at h hname hhead
      simp only at h
      split_ifs at h with hempty
      obtain ⟨rfl, rfl⟩ := Prod.mk.inj (Option.some.inj h)
      obtain rfl : dot = '.' := by simpa using hhead
      refine ⟨by simpa using hname, ?_, by simpa using hempty⟩
      intro hdot
      have := List.mem_takeWhile_imp (List.mem_reverse.mp hdot)
      simp at this
  · rintro ⟨rfl, hext, hstem⟩
    have hne : ∀ c ∈ ext.reverse, (c != '.') = true := by
      intro c hc
      have : c ≠ '.' := fun h => hext (h ▸ List.mem_reverse.mp hc)
      simpa using this
    have hrev : (stem ++ '.' :: ext).reverse = ext.reverse ++ '.' :: stem.reverse := by simp
    rw [hrev, List.takeWhile_append_of_pos hne, List.dropWhile_append_of_pos hne,
      List.takeWhile_cons_of_neg (by simp), List.dropWhile_cons_of_neg (by simp)]
    simp [hstem]

end Path

/-! ### Names of sources, of tests and of temporary files -/

/-- A name of a source file with its stem and its extension. -/
structure SourceName (name stem ext : List Char) : Prop where
  isName : IsName name
  split : splitExtension name = some (stem, ext)
  known : ext ∈ sourceExtensions
  /-- It is not marked as the name of a test. -/
  unmarked : ∀ marker ∈ testMarkers, marker.isSuffixOf stem = false

theorem fileName_self {name : List Char} (h : IsName name) :
    (⟨name⟩ : Path).fileName = some name := by
  have := @fileName_ofSegments false [] name (by simp) h
  rwa [List.nil_append, ofSegments, slashed_singleton] at this

theorem isTestFile_of_fileName {p : Path} {name : List Char} (h : p.fileName = some name) :
    isTestFile p = testMarkers.any (fun marker => marker.isSuffixOf (nameStem name)) := by
  rw [isTestFile, Path.stem, h]
  rfl

theorem nameStem_of_split {name stem ext : List Char}
    (h : splitExtension name = some (stem, ext)) : nameStem name = stem := by
  rw [nameStem, h]

theorem sourceName_of_isSourceName {name : List Char} (h : IsName name)
    (hs : isSourceName name = true) : ∃ stem ext, SourceName name stem ext := by
  rw [isSourceName, Bool.and_eq_true, Bool.and_eq_true] at hs
  obtain ⟨⟨-, htest⟩, hext⟩ := hs
  rw [Bool.not_eq_true', isTestFile_of_fileName (fileName_self h)] at htest
  rw [extension, fileName_self h, Option.bind_some, Option.any_map] at hext
  rcases hsplit : splitExtension name with - | ⟨stem, ext⟩
  · rw [hsplit] at hext
    cases hext
  · rw [hsplit] at hext
    rw [nameStem_of_split hsplit] at htest
    refine ⟨stem, ext, h, hsplit, by simpa using hext, ?_⟩
    intro marker hmarker
    exact Bool.eq_false_iff.mpr (List.any_eq_false.mp htest marker hmarker)

/-- The name of the test of a file of a given name. -/
def markedName (name : List Char) : List Char :=
  match (splitExtension name).map (·.2) with
  | some ext => nameStem name ++ ".test.".toList ++ ext
  | none => nameStem name ++ ".test".toList

theorem testName_of_fileName {p : Path} {name : List Char} (h : p.fileName = some name) :
    testName p = some (markedName name) := by
  rw [testName, Path.stem, extension, h]
  rfl

/-- Whether a name is that of a test already. -/
def isMarked (name : List Char) : Bool :=
  testMarkers.any fun marker => marker.isSuffixOf (nameStem name)

/-- The name a file's test has: the marked one, unless the file is a test already. -/
def nameOfTest (name : List Char) : List Char := if isMarked name then name else markedName name

/-- The name of the temporary file beside a file of a given name. -/
def temporaryName (name : List Char) : List Char := name ++ ".tmp".toList

/-- More than two characters without a slash are a name. -/
theorem isName_of_length {name : List Char} (h : 2 < name.length) (hslash : '/' ∉ name) :
    IsName name := by
  refine ⟨⟨List.ne_nil_of_length_pos (by omega), hslash⟩, ?_, ?_⟩
  · rintro rfl
    simp at h
  · rintro rfl
    simp at h

namespace SourceName

variable {name stem ext name' stem' ext' : List Char}

theorem eq (h : SourceName name stem ext) : name = stem ++ '.' :: ext :=
  (splitExtension_eq_some.mp h.split).1

theorem markedName_eq (h : SourceName name stem ext) :
    markedName name = (stem ++ ".test".toList) ++ '.' :: ext := by
  rw [markedName, h.split, nameStem_of_split h.split]
  simp

theorem split_markedName (h : SourceName name stem ext) :
    splitExtension (markedName name) = some (stem ++ ".test".toList, ext) :=
  splitExtension_eq_some.mpr
    ⟨h.markedName_eq, (splitExtension_eq_some.mp h.split).2.1, by simp⟩

theorem split_temporaryName (h : SourceName name stem ext) :
    splitExtension (temporaryName (markedName name)) = some (markedName name, "tmp".toList) :=
  splitExtension_eq_some.mpr ⟨rfl, by decide, by rw [h.markedName_eq]; simp⟩

theorem ext_ne_tmp (h : SourceName name stem ext) : ext ≠ "tmp".toList := by
  rintro rfl
  exact absurd h.known (by decide)

/-- The name of a test is not that of a source. -/
theorem markedName_ne (h : SourceName name stem ext) (h' : SourceName name' stem' ext') :
    markedName name ≠ name' := by
  intro heq
  have hsplit := h.split_markedName
  rw [heq, h'.split] at hsplit
  obtain ⟨rfl, -⟩ := Prod.mk.inj (Option.some.inj hsplit)
  have := h'.unmarked ".test".toList (by decide)
  rw [List.isSuffixOf_iff_suffix.mpr (List.suffix_append _ _)] at this
  cases this

/-- The name of a temporary file is not that of a source. -/
theorem temporaryName_ne (h : SourceName name stem ext) (h' : SourceName name' stem' ext') :
    temporaryName (markedName name) ≠ name' := by
  intro heq
  have hsplit := h.split_temporaryName
  rw [heq, h'.split] at hsplit
  exact h'.ext_ne_tmp (Prod.mk.inj (Option.some.inj hsplit)).2

/-- The name of a temporary file is not that of a test. -/
theorem temporaryName_ne_markedName (h : SourceName name stem ext)
    (h' : SourceName name' stem' ext') : temporaryName (markedName name) ≠ markedName name' := by
  intro heq
  have hsplit := h.split_temporaryName
  rw [heq, h'.split_markedName] at hsplit
  exact h'.ext_ne_tmp (Prod.mk.inj (Option.some.inj hsplit)).2

/-- **Different sources have tests of different names.** -/
theorem markedName_injective (h : SourceName name stem ext) (h' : SourceName name' stem' ext')
    (heq : markedName name = markedName name') : name = name' := by
  have hsplit := h.split_markedName
  rw [heq, h'.split_markedName] at hsplit
  obtain ⟨hstem, hext⟩ := Prod.mk.inj (Option.some.inj hsplit)
  rw [h.eq, h'.eq, hext, List.append_cancel_right hstem]

theorem isName_markedName (h : SourceName name stem ext) : IsName (markedName name) := by
  have hslash : '/' ∉ stem ++ '.' :: ext := h.eq ▸ h.isName.1.2
  rw [List.mem_append, List.mem_cons, not_or, not_or] at hslash
  refine isName_of_length ?_ ?_
  · rw [h.markedName_eq]
    simp
    omega
  · rw [h.markedName_eq]
    simp [hslash.1, hslash.2.2]

theorem isName_temporaryName (h : SourceName name stem ext) :
    IsName (temporaryName (markedName name)) := by
  obtain ⟨⟨-, hslash⟩, -⟩ := h.isName_markedName
  refine isName_of_length ?_ ?_
  · simp [temporaryName]
  · simp [temporaryName, hslash]

end SourceName

/-! ### Sources below the source root -/

section Below

variable {root : Path} {names : List (List Char)}

theorem pathBelow_concat (root : Path) (names : List (List Char)) (n : List Char) :
    pathBelow root (names ++ [n]) = (pathBelow root names).join ⟨n⟩ := by
  rw [pathBelow, List.foldl_append]
  rfl

theorem named_pathBelow (h : ∀ n ∈ names, IsName n) :
    (pathBelow root names).named = root.named ++ names := by
  induction names using List.reverseRecOn with
  | nil => simp [pathBelow]
  | append_singleton names n ih =>
    rw [pathBelow_concat, named_join _ (h n (by simp)), ih (fun m hm => h m (by simp [hm])),
      List.append_assoc]

theorem parts_pathBelow (h : ∀ n ∈ names, IsName n) :
    (pathBelow root names).parts = root.parts ++ names.map .name := by
  induction names using List.reverseRecOn with
  | nil => simp [pathBelow]
  | append_singleton names n ih =>
    rw [pathBelow_concat, parts_join _ (h n (by simp)), ih (fun m hm => h m (by simp [hm]))]
    simp

/-- A source is found by the names of the source root and its own. -/
theorem steps_pathBelow (hne : names ≠ []) (h : ∀ n ∈ names, IsName n) :
    (pathBelow root names).steps = root.named ++ names := by
  have hlast : (pathBelow root names).chars.getLast? ≠ some '/' := by
    obtain ⟨init, n, rfl⟩ := (List.eq_nil_or_concat names).resolve_left hne
    rw [List.concat_eq_append] at h ⊢
    rw [pathBelow_concat]
    exact getLast?_join _ (h n (by simp))
  rw [steps_eq, if_neg hlast, named_pathBelow h]

/-- The names below a path are names, however the path below it is written. -/
theorem isName_of_normalParts {p q : Path}
    (hp : normalParts p.parts = normalParts q.parts ++ names.map .name) :
    ∀ n ∈ names, IsName n := by
  intro n hn
  obtain ⟨g, hg⟩ := exists_normalForm p
  refine g.isName n (g.mem_names ?_)
  rw [← hg, hp]
  exact List.mem_append_right _ (List.mem_map_of_mem hn)

/-- The location of a source below the source root is what is left of it behind that. -/
theorem relativeSource_of_append {source : Path} {rest : List Part}
    (h : source.normalize.parts = root.normalize.parts ++ rest) :
    relativeSource source root = ofParts rest := by
  have hafter : partsAfter? root.normalize.parts source.normalize.parts = some rest := by
    rw [partsAfter?, if_pos (List.isPrefixOf_iff_prefix.mpr ⟨rest, h.symm⟩), h, List.drop_left]
  rw [relativeSource, hafter]

/-- The location of a source beside the source root is its name, or its own path. -/
theorem relativeSource_of_beside {source : Path}
    (h : ¬ root.normalize.parts <+: source.normalize.parts) :
    relativeSource source root = if source.normalize.isAbsolute
      then ⟨source.normalize.fileName.getD []⟩ else source.normalize := by
  have hafter : partsAfter? root.normalize.parts source.normalize.parts = none :=
    if_neg (mt List.isPrefixOf_iff_prefix.mp h)
  rw [relativeSource, hafter]

/-- Below the output root, a source is where it is below the source root, however both are
written. -/
theorem relativeSource_eq {source : Path}
    (hsource : normalParts source.parts = normalParts root.parts ++ names.map .name) :
    relativeSource source root = ofSegments false names := by
  obtain ⟨f, hf⟩ := exists_normalForm root
  have h := isName_of_normalParts hsource
  have hnormal : normalParts source.parts = (f.below names h).parts := by
    rw [hsource, hf, NormalForm.parts_below]
  have hbelow : source.normalize.parts = root.normalize.parts ++ names.map .name := by
    rw [normalize_eq hf, normalize_eq hnormal, f.parts_path, NormalForm.parts_path,
      NormalForm.parts_below]
  rw [relativeSource_of_append hbelow]
  exact (NormalForm.mk false 0 names h).ofParts_parts

theorem normalParts_pathBelow (h : ∀ n ∈ names, IsName n) :
    normalParts (pathBelow root names).parts = normalParts root.parts ++ names.map .name := by
  rw [parts_pathBelow h, normalParts_append_names]

end Below

/-! ### Destinations -/

/-- The destination of a file that ends in a name differs from its location in that name alone. -/
theorem destination_of_location {source srcRoot outputRoot : Path} {b : Bool}
    {segs : List (List Char)} {n : List Char}
    (hlocation : outputRoot.normalize.join (relativeSource source srcRoot)
      = ofSegments b (segs ++ [n]))
    (hsegs : ∀ s ∈ segs, IsStep s) (hn : IsName n) (hmarked : IsSegment (markedName n)) :
    destination source srcRoot outputRoot = ofSegments b (segs ++ [nameOfTest n]) := by
  have hfile : (ofSegments b (segs ++ [n])).fileName = some n := fileName_ofSegments hsegs hn
  have htest : isTestFile (ofSegments b (segs ++ [n])) = isMarked n := isTestFile_of_fileName hfile
  rw [destination, hlocation, htest, nameOfTest]
  split_ifs
  · rfl
  · rw [testName_of_fileName hfile]
    exact withFileName_ofSegments hsegs hn hmarked

/-- **The destination of a source**: its directories below the output root, and its name marked as
that of a test. -/
theorem destination_eq {source srcRoot outputRoot : Path} {f : NormalForm}
    (hf : normalParts outputRoot.parts = f.parts) {dirs : List (List Char)} {n stem ext : List Char}
    (hsource : normalParts source.parts = normalParts srcRoot.parts ++ (dirs ++ [n]).map .name)
    (hn : SourceName n stem ext) :
    destination source srcRoot outputRoot
      = ofSegments f.rooted (f.segments ++ dirs ++ [markedName n]) := by
  have hnames := isName_of_normalParts hsource
  have hfront : ∀ s ∈ f.segments ++ dirs, IsStep s := by
    intro s hs
    rcases List.mem_append.mp hs with hs | hs
    · exact f.isStep_segments s hs
    · exact (hnames s (List.mem_append_left _ hs)).isStep
  have htarget : outputRoot.normalize.join (relativeSource source srcRoot)
      = ofSegments f.rooted (f.segments ++ dirs ++ [n]) := by
    rw [relativeSource_eq hsource, normalize_eq hf, NormalForm.path,
      join_ofSegments f.isSegment_segments (by simp) (fun m hm => (hnames m hm).1),
      List.append_assoc]
  have hplain : isMarked n = false := by
    rw [isMarked, nameStem_of_split hn.split, List.any_eq_false]
    intro marker hmarker
    simp [hn.unmarked marker hmarker]
  rw [destination_of_location htarget hfront hn.isName hn.isName_markedName.1, nameOfTest, hplain,
    if_neg Bool.false_ne_true]

/-- The destination of a source written as its names behind the source root. -/
theorem destination_pathBelow {srcRoot outputRoot : Path} {f : NormalForm}
    (hf : normalParts outputRoot.parts = f.parts) {dirs : List (List Char)} {n stem ext : List Char}
    (hdirs : ∀ d ∈ dirs, IsName d) (hn : SourceName n stem ext) :
    destination (pathBelow srcRoot (dirs ++ [n])) srcRoot outputRoot
      = ofSegments f.rooted (f.segments ++ dirs ++ [markedName n]) := by
  refine destination_eq hf (normalParts_pathBelow fun m hm => ?_) hn
  rcases List.mem_append.mp hm with hm | hm
  · exact hdirs m hm
  · exact List.mem_singleton.mp hm ▸ hn.isName

theorem temporaryPath_ofSegments {b : Bool} {segs : List (List Char)} {n : List Char}
    (h : ∀ s ∈ segs, IsStep s) (hn : IsName n) (ht : IsName (temporaryName n)) :
    temporaryPath (ofSegments b (segs ++ [n])) = ofSegments b (segs ++ [temporaryName n]) := by
  rw [temporaryPath, fileName_ofSegments h hn]
  exact withFileName_ofSegments h hn ht.1

end Scaffold

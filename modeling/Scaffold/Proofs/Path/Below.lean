/-
Scaffold/Proofs/Path/Below.lean

Whether the test of a file is below the output root.

The location of a file below the output root is what is left of its path behind
the source root, or its own path, or its name (`relativeSource`).  Unless the
file is the source root itself, each of them is a normal form that ends in the
name of the file (`IsLocation`).  The test has that location under another name:

* `IsLocation.isBelow` — a location of names alone stays below any output root;
* `IsLocation.leadsDown` — and no other location does, as is seen below the
  empty path;
* `destination_isBelow_iff` — so the test of a file is below every output root
  exactly if the file is below the source root, or beside it with a path that
  has no `..` left, or beside it and absolute (`IsPlaced`).
-/
import Scaffold.Proofs.Path.Reading

namespace Scaffold

open Text Scaffold.Path

/-! ### Below a root -/

/-- A path is below a root: read, it is the root and names behind it. -/
def IsBelow (root p : Path) : Prop :=
  ∃ names : List (List Char), names ≠ []
    ∧ p.normalize.parts = root.normalize.parts ++ names.map .name

/-- A file whose location can be kept below any output root. -/
inductive IsPlaced (source srcRoot : Path) : Prop where
  /-- It is below the source root. -/
  | below (h : IsBelow srcRoot source)
  /-- It is not, and its own path leads down. -/
  | beside (hbeside : ¬ srcRoot.normalize.parts <+: source.normalize.parts)
    (names : List (List Char)) (h : source.normalize.parts = names.map .name)
  /-- It is not, and it is known by its name alone. -/
  | absolute (hbeside : ¬ srcRoot.normalize.parts <+: source.normalize.parts)
    (h : source.isAbsolute = true)

/-! ### Normal forms -/

namespace Path

theorem parts_normalize {p : Path} {f : NormalForm} (h : normalParts p.parts = f.parts) :
    p.normalize.parts = f.parts := by
  rw [normalize_eq h, f.parts_path]

theorem empty_join (p : Path) : empty.join p = p := by
  rw [join]
  by_cases h : p.isAbsolute
  · rw [if_pos h]
  · rw [if_neg h]
    rfl

namespace NormalForm

variable {f : NormalForm}

/-- A normal form leads down: it is relative and has no `..`. -/
def LeadsDown (f : NormalForm) : Prop := f.rooted = false ∧ f.ups = 0

theorem LeadsDown.parts_eq (h : f.LeadsDown) : f.parts = f.names.map .name := by
  rw [parts, h.1, h.2]
  rfl

theorem leadsDown_of_parts {names : List (List Char)} (h : f.parts = names.map .name) :
    f.LeadsDown := by
  have hname : ∀ part ∈ f.parts, ∃ n, part = .name n := by
    intro part hpart
    rw [h] at hpart
    obtain ⟨n, -, rfl⟩ := List.mem_map.mp hpart
    exact ⟨n, rfl⟩
  constructor
  · -- the root is no name
    rw [← Bool.not_eq_true, ← root_mem_parts]
    intro hroot
    obtain ⟨n, hn⟩ := hname _ hroot
    cases hn
  · -- nor is a step up
    by_contra hups
    have hup : .up ∈ f.parts := List.mem_append_right _
      (List.mem_append_left _ (List.mem_replicate.mpr ⟨hups, rfl⟩))
    obtain ⟨n, hn⟩ := hname _ hup
    cases hn

/-- What is left of a normal form behind some of its parts is one. -/
theorem exists_parts_eq_of_append {front rest : List Part} (h : f.parts = front ++ rest) :
    ∃ g : NormalForm, g.parts = rest := by
  have hplain : ∀ {front rest : List Part},
      List.replicate f.ups .up ++ f.names.map .name = front ++ rest →
        ∃ g : NormalForm, g.parts = rest := by
    intro front rest h
    rcases List.append_eq_append_iff.mp h with ⟨between, -, hnames⟩ | ⟨between, hups, hrest⟩
    · -- the rest begins among the names
      obtain ⟨taken, left, hsplit, -, hleft⟩ := List.map_eq_append_iff.mp hnames
      refine ⟨⟨false, 0, left, fun n hn => f.isName n ?_⟩, hleft⟩
      rw [hsplit]
      exact List.mem_append_right _ hn
    · -- the rest begins among the steps up
      obtain ⟨-, -, hbetween⟩ := List.replicate_eq_append_iff.mp hups
      refine ⟨⟨false, between.length, f.names, f.isName⟩, ?_⟩
      rw [hrest, hbetween, List.length_replicate]
      rfl
  cases front with
  | nil => exact ⟨f, h⟩
  | cons part front =>
    rw [parts] at h
    cases hrooted : f.rooted with
    | false =>
      rw [hrooted] at h
      exact hplain h
    | true =>
      rw [hrooted] at h
      exact hplain (List.cons.inj h).2

/-- The last name of a normal form. -/
theorem exists_names_concat {n : List Char} (h : f.parts.getLast? = some (.name n)) :
    ∃ init, f.names = init ++ [n] := by
  rcases List.eq_nil_or_concat f.names with hnil | ⟨init, m, hnames⟩
  · -- no name is among the root and `..`
    have hmem := List.mem_of_getLast? h
    have := f.mem_names hmem
    rw [hnil] at this
    cases this
  · rw [List.concat_eq_append] at hnames
    refine ⟨init, ?_⟩
    rw [parts, hnames, List.map_append, List.map_singleton, ← List.append_assoc,
      ← List.append_assoc, List.getLast?_concat] at h
    rw [hnames, Part.name.inj (Option.some.inj h)]

end NormalForm

end Path

/-! ### Locations -/

/-- What a test is named is a name. -/
theorem isName_markedName {n : List Char} (h : IsName n) : IsName (markedName n) := by
  obtain ⟨hne, hslash⟩ := isSegment_nameStem h
  have hlength := List.length_pos_iff.mpr hne
  rw [markedName]
  rcases hsplit : splitExtension n with - | ⟨stem, ext⟩
  · -- no extension
    apply isName_of_length
    · show 2 < (nameStem n ++ ".test".toList).length
      simp
    · show '/' ∉ nameStem n ++ ".test".toList
      simp [hslash]
  · -- with an extension
    have hext : '/' ∉ ext := by
      intro hmem
      apply h.1.2
      rw [(splitExtension_eq_some.mp hsplit).1]
      exact List.mem_append_right _ (List.mem_cons_of_mem _ hmem)
    apply isName_of_length
    · show 2 < (nameStem n ++ ".test.".toList ++ ext).length
      simp
      omega
    · show '/' ∉ nameStem n ++ ".test.".toList ++ ext
      simp [hslash, hext]

theorem isName_nameOfTest {n : List Char} (h : IsName n) : IsName (nameOfTest n) := by
  rw [nameOfTest]
  split_ifs
  · exact h
  · exact isName_markedName h

namespace Path.NormalForm

variable {f g : NormalForm} {init : List (List Char)} {n : List Char}

/-- The segments of a normal form up to its last name. -/
theorem segments_eq (h : g.names = init ++ [n]) :
    g.segments = List.replicate g.ups ['.', '.'] ++ init ++ [n]
      ∧ (∀ s ∈ List.replicate g.ups ['.', '.'] ++ init, IsStep s) ∧ IsName n := by
  have hsegments : g.segments = List.replicate g.ups ['.', '.'] ++ init ++ [n] := by
    rw [segments, h, List.append_assoc]
  refine ⟨hsegments, fun s hs => g.isStep_segments s ?_, g.isName n ?_⟩
  · rw [hsegments]
    exact List.mem_append_left _ hs
  · rw [h]
    exact List.mem_append_right _ (.head _)

/-- A path in normal form ends in its last name. -/
theorem fileName_path (h : g.names = init ++ [n]) : g.path.fileName = some n := by
  obtain ⟨hsegments, hsteps, hn⟩ := segments_eq h
  rw [path, hsegments]
  exact fileName_ofSegments hsteps hn

/-- A normal form that leads down, behind another one. -/
theorem join_path (hdown : g.LeadsDown) (hne : g.names ≠ []) :
    f.path.join g.path = (f.below g.names g.isName).path := by
  have hpath : g.path = ofSegments false g.names := by
    rw [path, segments, hdown.1, hdown.2]
    rfl
  rw [hpath, path_below]
  exact join_ofSegments f.isSegment_segments hne fun m hm => (g.isName m hm).1

/-- A normal form whose last name is that of a test. -/
def testOf (g : NormalForm) (h : g.names = init ++ [n]) : NormalForm where
  rooted := g.rooted
  ups := g.ups
  names := init ++ [nameOfTest n]
  isName := by
    intro m hm
    rcases List.mem_append.mp hm with hm | hm
    · exact g.isName m (h ▸ List.mem_append_left _ hm)
    · rw [List.mem_singleton.mp hm]
      exact isName_nameOfTest (segments_eq h).2.2

end Path.NormalForm

/-- The location of a file is a normal form that ends in its name, and leads down exactly if the
file is placed. -/
structure IsLocation (source srcRoot : Path) (g : NormalForm) (dirs : List (List Char))
    (name : List Char) : Prop where
  eq : relativeSource source srcRoot = g.path
  names : g.names = dirs ++ [name]
  placed : IsPlaced source srcRoot ↔ g.LeadsDown

section Location

variable {source srcRoot outputRoot : Path} {name : List Char}

/-- The source root itself is not placed. -/
theorem not_isPlaced_self (h : source.normalize.parts = srcRoot.normalize.parts) :
    ¬ IsPlaced source srcRoot := by
  rintro (⟨names, hne, hnames⟩ | ⟨hbeside, -, -⟩ | ⟨hbeside, -⟩)
  · rw [h, List.self_eq_append_right] at hnames
    exact hne (List.map_eq_nil_iff.mp hnames)
  · exact hbeside (h ▸ List.prefix_rfl)
  · exact hbeside (h ▸ List.prefix_rfl)

/-- The location of a file behind the source root is what is left of its path. -/
theorem exists_location_behind (hname : source.fileName = some name) {rest : List Part}
    (hrest : source.normalize.parts = srcRoot.normalize.parts ++ rest) (hne : rest ≠ []) :
    ∃ g dirs, IsLocation source srcRoot g dirs name := by
  obtain ⟨f, hf⟩ := exists_normalForm source
  obtain ⟨g, hg⟩ := NormalForm.exists_parts_eq_of_append ((parts_normalize hf).symm.trans hrest)
  have hlast : g.parts.getLast? = some (.name name) := by
    have hsource := getLast?_normalParts hname
    rw [hf, ← parts_normalize hf, hrest, List.getLast?_append, List.getLast?_eq_some_getLast hne,
      Option.some_or, ← List.getLast?_eq_some_getLast hne, ← hg] at hsource
    exact hsource
  obtain ⟨dirs, hdirs⟩ := NormalForm.exists_names_concat hlast
  have hbehind : srcRoot.normalize.parts <+: source.normalize.parts := ⟨rest, hrest.symm⟩
  refine ⟨g, dirs, ?_, hdirs, ?_, fun hdown => .below ⟨g.names, ?_, ?_⟩⟩
  · rw [relativeSource_of_append hrest, ← hg, g.ofParts_parts]
  · rintro (⟨names, -, hnames⟩ | ⟨hbeside, -, -⟩ | ⟨hbeside, -⟩)
    · rw [hrest, List.append_cancel_left_eq, ← hg] at hnames
      exact NormalForm.leadsDown_of_parts hnames
    · exact absurd hbehind hbeside
    · exact absurd hbehind hbeside
  · rw [hdirs]
    exact List.append_ne_nil_of_right_ne_nil _ (List.cons_ne_nil _ _)
  · rw [hrest, ← hg, hdown.parts_eq]

/-- The location of a file beside the source root is its own path, or its name. -/
theorem exists_location_beside (hname : source.fileName = some name)
    (hbeside : ¬ srcRoot.normalize.parts <+: source.normalize.parts) :
    ∃ g dirs, IsLocation source srcRoot g dirs name := by
  obtain ⟨g, hg, hrooted⟩ := exists_rooted_normalForm source
  obtain ⟨dirs, hdirs⟩ := NormalForm.exists_names_concat (hg ▸ getLast?_normalParts hname)
  have hread := relativeSource_of_beside hbeside
  rw [Path.normalize_eq hg, show g.path.isAbsolute = g.rooted from
    isAbsolute_ofSegments g.isSegment_segments] at hread
  cases habs : g.rooted with
  | true =>
    -- of an absolute path the name alone is used
    rw [habs, if_pos rfl, NormalForm.fileName_path hdirs, Option.getD_some] at hread
    have hn : ∀ m ∈ [name], IsName m := by
      intro m hm
      exact g.isName m (hdirs ▸ List.mem_append_right _ hm)
    refine ⟨⟨false, 0, [name], hn⟩, [], ?_, rfl, fun _ => ⟨rfl, rfl⟩, fun _ => ?_⟩
    · rw [hread]
      exact congrArg Path.mk (slashed_singleton name).symm
    · exact .absolute hbeside (hrooted ▸ habs)
  | false =>
    -- a relative one is used as it is
    rw [habs, if_neg Bool.false_ne_true] at hread
    refine ⟨g, dirs, hread, hdirs, ?_, fun hdown => ?_⟩
    · rintro (⟨names, -, hnames⟩ | ⟨-, names, hnames⟩ | ⟨-, h⟩)
      · exact absurd ⟨_, hnames.symm⟩ hbeside
      · exact NormalForm.leadsDown_of_parts ((parts_normalize hg).symm.trans hnames)
      · rw [← hrooted, habs] at h
        cases h
    · exact .beside hbeside g.names ((parts_normalize hg).trans hdown.parts_eq)

variable {g : NormalForm} {dirs : List (List Char)}

/-- A test is its location below the output root under the name of a test. -/
theorem destination_of_normalForm
    (hlocation : outputRoot.normalize.join (relativeSource source srcRoot) = g.path)
    (hnames : g.names = dirs ++ [name]) :
    destination source srcRoot outputRoot = (g.testOf hnames).path := by
  obtain ⟨hsegments, hsteps, hname⟩ := NormalForm.segments_eq hnames
  rw [NormalForm.path, hsegments] at hlocation
  rw [destination_of_location hlocation hsteps hname (isName_markedName hname).1, List.append_assoc]
  rfl

/-- **A location that leads down** stays below any output root. -/
theorem IsLocation.isBelow (h : IsLocation source srcRoot g dirs name) (hdown : g.LeadsDown) :
    IsBelow outputRoot (destination source srcRoot outputRoot) := by
  obtain ⟨f, hf⟩ := exists_normalForm outputRoot
  have hne : g.names ≠ [] := by
    rw [h.names]
    exact List.append_ne_nil_of_right_ne_nil _ (List.cons_ne_nil _ _)
  have hlocation : outputRoot.normalize.join (relativeSource source srcRoot)
      = (f.below g.names g.isName).path := by
    rw [h.eq, Path.normalize_eq hf, NormalForm.join_path hdown hne]
  have hnames : (f.below g.names g.isName).names = (f.names ++ dirs) ++ [name] := by
    show f.names ++ g.names = _
    rw [h.names, List.append_assoc]
  have hparts : ((f.below g.names g.isName).testOf hnames).parts
      = f.parts ++ (dirs ++ [nameOfTest name]).map .name := by
    show _ ++ (_ ++ (f.names ++ dirs ++ [nameOfTest name]).map Part.name) = _
    rw [NormalForm.parts, List.append_assoc f.names, List.map_append, List.append_assoc,
      List.append_assoc]
    rfl
  refine ⟨dirs ++ [nameOfTest name], ?_, ?_⟩
  · exact List.append_ne_nil_of_right_ne_nil _ (List.cons_ne_nil _ _)
  · rw [destination_of_normalForm hlocation hnames, NormalForm.normalize_path,
      NormalForm.parts_path, hparts, parts_normalize hf]

/-- **Below the empty path** a test has the location of the file, so that it is below only if that
leads down. -/
theorem IsLocation.leadsDown (h : IsLocation source srcRoot g dirs name)
    (hempty : IsBelow empty (destination source srcRoot empty)) : g.LeadsDown := by
  have hlocation : empty.normalize.join (relativeSource source srcRoot) = g.path := by
    show empty.join _ = _
    rw [empty_join, h.eq]
  obtain ⟨names, -, hbelow⟩ := hempty
  rw [destination_of_normalForm hlocation h.names, NormalForm.normalize_path,
    NormalForm.parts_path] at hbelow
  exact (g.testOf h.names).leadsDown_of_parts hbelow

end Location

/-- **Whether the test of a file is below the output root.**  It is below every output root exactly
if the file is placed. -/
theorem destination_isBelow_iff {source srcRoot : Path} {name : List Char}
    (hname : source.fileName = some name) :
    IsPlaced source srcRoot
      ↔ ∀ outputRoot, IsBelow outputRoot (destination source srcRoot outputRoot) := by
  have hiff : ∀ {g dirs}, IsLocation source srcRoot g dirs name → (IsPlaced source srcRoot
      ↔ ∀ outputRoot, IsBelow outputRoot (destination source srcRoot outputRoot)) := by
    intro g dirs h
    rw [h.placed]
    exact ⟨fun hdown outputRoot => h.isBelow hdown, fun hall => h.leadsDown (hall empty)⟩
  by_cases hbehind : srcRoot.normalize.parts <+: source.normalize.parts
  · obtain ⟨rest, hrest⟩ := hbehind
    by_cases hself : rest = []
    · -- the file is the source root
      rw [hself, List.append_nil] at hrest
      refine iff_of_false (not_isPlaced_self hrest.symm) fun hall => ?_
      obtain ⟨names, hne, hbelow⟩ := hall empty
      have hlocation : relativeSource source srcRoot = empty :=
        relativeSource_of_append (hrest.symm.trans (List.append_nil _).symm)
      rw [destination, hlocation] at hbelow
      exact hne (List.map_eq_nil_iff.mp hbelow.symm)
    · obtain ⟨g, dirs, h⟩ := exists_location_behind hname hrest.symm hself
      exact hiff h
  · obtain ⟨g, dirs, h⟩ := exists_location_beside hname hbehind
    exact hiff h

/-- A file beside the source root, whose path and output root are written with dots. -/
theorem destination_isBelow_besideRoot :
    let source := Path.ofString "lib/../ui/x.spec.js"
    let srcRoot := Path.ofString "./src"
    source.fileName = some "x.spec.js".toList ∧ IsPlaced source srcRoot
      ∧ IsBelow (.ofString "../out/.") (destination source srcRoot (.ofString "../out/.")) := by
  intro source srcRoot
  have hname : source.fileName = some "x.spec.js".toList := by decide
  have hplaced : IsPlaced source srcRoot :=
    .beside (by decide) ["ui".toList, "x.spec.js".toList] (by decide)
  exact ⟨hname, hplaced, (destination_isBelow_iff hname).mp hplaced _⟩

/-- Not every test is below the output root: that of a file above the source root is not. -/
theorem not_destination_isBelow :
    ¬ ∀ source srcRoot outputRoot : Path, source.fileName.isSome = true →
      source.normalize ≠ srcRoot.normalize →
      outputRoot.normalize.parts <+: (destination source srcRoot outputRoot).normalize.parts
        ∧ (destination source srcRoot outputRoot).normalize.parts ≠ outputRoot.normalize.parts := by
  intro h
  have hbelow := h (.ofString "../x.js") (.ofString "src") (.ofString "out") (by decide) (by decide)
  exact absurd hbelow.1 (by decide)

end Scaffold

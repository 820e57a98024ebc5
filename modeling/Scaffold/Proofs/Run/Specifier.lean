/-
Scaffold/Proofs/Run/Specifier.lean

Whether a test imports its source by a relative path.

The first segment of an import path tells: `.` and `..` are relative, anything
else is the name of a package.  The way from the directory of a test to its
source climbs, or it goes straight down (`wayBetween_cases`).  One that climbs
begins with `..`.  One that goes straight down is marked with `./`, unless its
text begins with a dot, as a name may do, too.

* `isRelative_importPath_iff` — an import path is relative unless its way goes
  straight down into a hidden name;
* `roots_of_entersHidden` — for a source of a run that takes an output root
  that is the source root and a hidden source, or one that leads the source root
  and a hidden name between the two: hidden directories are not entered;
* `specifier_isRelative_iff` — both together, for the documents of a run.
-/
import Scaffold.Proofs.Path.Import
import Scaffold.Proofs.Run.Sources

namespace Scaffold

open Text Scaffold.Path

/-! ### Specifiers -/

/-- The segment a specifier begins with. -/
def firstSegment (specifier : String) : List Char := specifier.toList.takeWhile (· != '/')

/-- A specifier that leads on from the module it stands in, and is not the name of a package. -/
def IsRelative (specifier : String) : Prop :=
  firstSegment specifier = ['.'] ∨ firstSegment specifier = ['.', '.']

instance (specifier : String) : Decidable (IsRelative specifier) :=
  inferInstanceAs (Decidable (_ ∨ _))

/-- A name that begins with a dot. -/
def IsHidden (name : List Char) : Prop := name.head? = some '.'

instance (name : List Char) : Decidable (IsHidden name) :=
  inferInstanceAs (Decidable (_ = _))

/-- The way from one place to another goes straight down, into a hidden name first. -/
def EntersHidden (start target : List Part) : Prop :=
  ∃ name, IsHidden name ∧ start ++ [.name name] <+: target

/-! ### Ways -/

theorem commonParts_append (start down : List Part) :
    commonParts start (start ++ down) = start.length := by
  induction start with
  | nil => cases down <;> rfl
  | cons p start ih => rw [List.cons_append, commonParts, if_pos rfl, ih, List.length_cons]

/-- **A way climbs, or it goes straight down.** -/
theorem wayBetween_cases (start target : List Part) :
    (∃ way, wayBetween start target = Part.up.text :: way) ∧ ¬ start <+: target
      ∨ ∃ down, target = start ++ down ∧ wayBetween start target = down.map Part.text := by
  by_cases hlead : start <+: target
  · -- the way goes straight down
    right
    obtain ⟨down, rfl⟩ := hlead
    refine ⟨down, rfl, ?_⟩
    rw [wayBetween, commonParts_append, Nat.sub_self, List.drop_left]
    rfl
  · -- the way goes up first
    left
    have hlt : commonParts start target < start.length := by
      by_contra hle
      apply hlead
      rw [← List.take_of_length_le (not_lt.mp hle), take_commonParts]
      exact List.take_prefix _ _
    obtain ⟨k, hk⟩ := Nat.exists_eq_succ_of_ne_zero (Nat.sub_ne_zero_of_lt hlt)
    refine ⟨⟨List.replicate k Part.up.text
      ++ (target.drop (commonParts start target)).map Part.text, ?_⟩, hlead⟩
    rw [wayBetween, hk, Nat.succ_eq_add_one, List.replicate_succ, List.cons_append]

/-! ### The first segment -/

section Marked

variable {s : List Char} {ss : List (List Char)}

/-- A way as it is written, marked as relative unless it begins with a dot. -/
def marked (way : List (List Char)) : String :=
  String.ofList (if (slashed way).head? = some '.' then slashed way else '.' :: '/' :: slashed way)

theorem head?_slashed (hs : s ≠ []) : (slashed (s :: ss)).head? = s.head? := by
  obtain ⟨c, cs, rfl⟩ := List.exists_cons_of_ne_nil hs
  by_cases hss : ss = []
  · rw [hss, slashed_singleton]
  · rw [slashed_cons hss]
    rfl

/-- A segment that begins with a dot stands first. -/
theorem firstSegment_of_isHidden (hs : IsSegment s) (h : IsHidden s) :
    firstSegment (marked (s :: ss)) = s := by
  have hplain : ∀ c ∈ s, (c != '/') = true := by
    intro c hc
    rw [bne_iff_ne]
    rintro rfl
    exact hs.2 hc
  rw [marked, if_pos ((head?_slashed hs.1).trans h), firstSegment, String.toList_ofList]
  by_cases hss : ss = []
  · rw [hss, slashed_singleton]
    exact List.takeWhile_eq_self_iff.mpr hplain
  · rw [slashed_cons hss, List.takeWhile_append_of_pos hplain]
    exact List.append_nil s

/-- Anything else stands behind `./`. -/
theorem firstSegment_of_not_isHidden (hs : s ≠ []) (h : ¬ IsHidden s) :
    firstSegment (marked (s :: ss)) = ['.'] := by
  rw [marked, if_neg (fun hdot => h ((head?_slashed hs).symm.trans hdot)), firstSegment,
    String.toList_ofList]
  rfl

end Marked

/-- **An import path is relative unless its way goes straight down into a hidden name.** -/
theorem isRelative_importPath_iff (destination source : Path) :
    IsRelative (importPath destination source)
      ↔ ¬ EntersHidden (destination.parent.getD empty).normalize.parts
          source.dropExtension.normalize.parts := by
  obtain ⟨g, hg⟩ := exists_normalForm source.dropExtension
  show IsRelative (marked (wayBetween (destination.parent.getD empty).normalize.parts
    source.dropExtension.normalize.parts)) ↔ _
  rw [normalize_eq hg, g.parts_path]
  generalize (destination.parent.getD empty).normalize.parts = start
  rcases wayBetween_cases start g.parts with ⟨⟨way, hway⟩, hlead⟩ | ⟨down, hdown, hway⟩
  · rw [hway]
    apply iff_of_true
    · exact .inr (firstSegment_of_isHidden isStep_up.1 rfl)
    · rintro ⟨name, -, hname⟩
      exact hlead ((List.prefix_append _ _).trans hname)
  · have henters : EntersHidden start g.parts ↔ ∃ name, IsHidden name ∧ [.name name] <+: down := by
      simp only [EntersHidden, hdown, List.prefix_append_right_inj]
    rw [hway, henters]
    -- the target itself, the root, `..`, or a name
    rcases down with - | ⟨part, down⟩
    · apply iff_of_true
      · exact .inl rfl
      · rintro ⟨name, -, hname⟩
        cases List.prefix_nil.mp hname
    · have hmem : part ∈ g.parts := by
        rw [hdown]
        exact List.mem_append_right _ List.mem_cons_self
      rw [List.map_cons]
      cases part with
      | here => exact absurd hmem g.here_not_mem
      | root =>
        apply iff_of_true
        · exact .inl (firstSegment_of_not_isHidden (List.cons_ne_nil _ _) (by decide))
        · rintro ⟨name, -, hname⟩
          cases (List.cons_prefix_cons.mp hname).1
      | up =>
        apply iff_of_true
        · exact .inr (firstSegment_of_isHidden isStep_up.1 rfl)
        · rintro ⟨name, -, hname⟩
          cases (List.cons_prefix_cons.mp hname).1
      | name n =>
        have hn := g.isName n (g.mem_names hmem)
        by_cases hhidden : IsHidden n
        · apply iff_of_false
          · rw [IsRelative, Part.text, firstSegment_of_isHidden hn.1 hhidden, not_or]
            exact hn.2
          · rw [not_not]
            exact ⟨n, hhidden, List.prefix_append [_] down⟩
        · apply iff_of_true
          · exact .inl (firstSegment_of_not_isHidden hn.1.1 hhidden)
          · rintro ⟨name, hname, hfirst⟩
            obtain rfl := Part.name.inj (List.cons_prefix_cons.mp hfirst).1
            exact hhidden hname

/-! ### Directories and stems -/

/-- A segment is read as one part, and as a name only as itself. -/
theorem parts_of_isSegment {s : List Char} (h : IsSegment s) :
    ∃ q, (⟨s⟩ : Path).parts = [q] ∧ ∀ n, q = .name n → n = s := by
  by_cases hdot : s = ['.']
  · refine ⟨.here, by rw [hdot]; rfl, ?_⟩
    intro n hn
    cases hn
  · refine ⟨partOf s, parts_append_piece (.inl rfl) ⟨h, hdot⟩, ?_⟩
    intro n hn
    rw [partOf] at hn
    split_ifs at hn
    exact (Part.name.inj hn).symm

/-- One part more is behind what is normalised before it, if it is kept. -/
theorem normalParts_concat_isPrefix (ps : List Part) (q : Part) :
    normalParts (ps ++ [q]) <+: normalParts ps ++ [q] := by
  have hpush : normalParts (ps ++ [q]) = (pushPart (normalParts ps).reverse q).reverse :=
    normalParts_append ps [q]
  have hkept : pushPart (normalParts ps).reverse q = q :: (normalParts ps).reverse →
      normalParts (ps ++ [q]) = normalParts ps ++ [q] := by
    intro h
    rw [hpush, h, List.reverse_cons, List.reverse_reverse]
  cases q with
  | here =>
    rw [hpush, pushPart, List.reverse_reverse]
    exact List.prefix_append _ _
  | root => exact (hkept rfl) ▸ List.prefix_rfl
  | name n => exact (hkept rfl) ▸ List.prefix_rfl
  | up =>
    rcases hstack : (normalParts ps).reverse with - | ⟨_ | _ | _ | n, below⟩
    case cons.name =>
      -- the name that is taken away was the last
      have hps : normalParts ps = below.reverse ++ [.name n] := by
        rw [← List.reverse_reverse (normalParts ps), hstack, List.reverse_cons]
      rw [hpush, hstack, pushPart, hps, List.append_assoc]
      exact List.prefix_append _ _
    all_goals
      rw [hkept (by rw [hstack]; rfl)]

/-- The stem of a name that is not hidden is not hidden. -/
theorem isHidden_of_nameStem {name : List Char} (h : IsHidden (nameStem name)) : IsHidden name := by
  rw [nameStem] at h
  rcases hsplit : splitExtension name with - | ⟨stem, ext⟩
  · rwa [hsplit] at h
  · rw [hsplit] at h
    obtain ⟨hname, -, hstem⟩ := splitExtension_eq_some.mp hsplit
    rw [IsHidden, hname, List.head?_append_of_ne_nil _ hstem]
    exact h

/-- Two places below two others, at the same directories: where the way from one to the other goes
straight down into a hidden name, and no directory is hidden, the name is between the two others, or
these are the same. -/
theorem exists_between {roots outs : List Part} {dirs : List (List Char)} {q : Part}
    {name : List Char} (hdirs : ∀ d ∈ dirs, ¬ IsHidden d) (hname : IsHidden name)
    (h : outs ++ dirs.map .name ++ [.name name] <+: roots ++ dirs.map .name ++ [q]) :
    ∃ between, roots = outs ++ between
      ∧ (.name name ∈ between ∨ between = [] ∧ q = .name name) := by
  have hlength : outs.length ≤ roots.length := by
    have := h.length_le
    simp only [List.length_append, List.length_map, List.length_singleton] at this
    omega
  rw [List.append_assoc, List.append_assoc] at h
  obtain ⟨between, rfl⟩ : outs <+: roots :=
    List.prefix_of_prefix_length_le ((List.prefix_append _ _).trans h) (List.prefix_append _ _)
      hlength
  refine ⟨between, rfl, ?_⟩
  rw [List.append_assoc, List.prefix_append_right_inj] at h
  by_cases hbetween : between = []
  · -- the roots are the same, and the name comes next
    right
    rw [hbetween, List.nil_append, List.prefix_append_right_inj] at h
    exact ⟨hbetween, (List.cons_prefix_cons.mp h).1.symm⟩
  · -- the name is between the roots, as no directory on the way is hidden
    left
    have hpos := List.length_pos_iff.mpr hbetween
    rw [← List.append_assoc] at h
    have hfront : dirs.map .name ++ [.name name] <+: between ++ dirs.map .name := by
      refine List.prefix_of_prefix_length_le h (List.prefix_append _ _) ?_
      simp only [List.length_append, List.length_map, List.length_singleton]
      omega
    have hmem := hfront.subset (List.mem_append_right _ List.mem_cons_self)
    rcases List.mem_append.mp hmem with hmem | hmem
    · exact hmem
    · obtain ⟨d, hd, hsame⟩ := List.mem_map.mp hmem
      exact absurd (Part.name.inj hsame ▸ hname) (hdirs d hd)

/-! ### The tests of a run -/

theorem locate_of_isDirectory {t : FileTree} {p : Path} (h : t.isDirectory p = true) :
    ∃ place, t.locate .target p = .ok (.entry place .directory) := by
  have hentry := FileTree.isDirectory_iff.mp h
  rw [FileTree.entryAt?] at hentry
  split at hentry
  · next place entry hlocate =>
    obtain rfl := Option.some.inj hentry
    exact ⟨place, hlocate⟩
  · cases hentry

/-- The directory of the test of a source. -/
def testDirectory (r : Resolved) (source : Path) : Path := (targetOf r source).parent.getD empty

/-- What the test of a source imports it by. -/
def specifierOf (r : Resolved) (source : Path) : String := importPath (targetOf r source) source

section Unit

variable {l : Listing} {r : Resolved} {root : List FileName} {dirs : List (List Char)}
  {name : List Char}

/-- The test of a unit is in the unit's directories below the output root. -/
theorem parts_testDirectory (hl : l.WellFormed) (h : UnitAt l r root dirs name) :
    (testDirectory r (pathBelow r.srcRoot (dirs ++ [name]))).normalize.parts
      = r.outputRoot.normalize.parts ++ dirs.map .name := by
  have hnames := h.isName hl
  have hdirs : ∀ d ∈ dirs, IsName d := fun d hd => hnames d (List.mem_append_left _ hd)
  obtain ⟨stem, ext, hs⟩ := sourceName_of_isSourceName
    (hnames name (List.mem_append_right _ List.mem_cons_self)) h.sourceName
  obtain ⟨f, hf⟩ := exists_normalForm r.outputRoot
  have hparent : (targetOf r (pathBelow r.srcRoot (dirs ++ [name]))).parent
      = some (f.below dirs hdirs).path := by
    rw [targetOf, destination_pathBelow hf hdirs hs, NormalForm.path_below]
    refine parent_ofSegments (fun s hmem => ?_) hs.isName_markedName.isStep
    rw [← NormalForm.segments_below f dirs hdirs] at hmem
    exact NormalForm.isStep_segments _ s hmem
  rw [testDirectory, hparent, Option.getD_some, NormalForm.normalize_path, NormalForm.parts_path,
    NormalForm.parts_below, Path.normalize_eq hf, f.parts_path]

/-- A unit without its extension is in its directories below the source root, and its last part, if
it is a name, is its stem. -/
theorem exists_parts_dropExtension (hl : l.WellFormed) (h : UnitAt l r root dirs name) :
    ∃ q, (pathBelow r.srcRoot (dirs ++ [name])).dropExtension.normalize.parts
        <+: r.srcRoot.normalize.parts ++ dirs.map .name ++ [q]
      ∧ ∀ n, q = .name n → IsHidden n → IsHidden name := by
  have hnames := h.isName hl
  have hlast := hnames name (List.mem_append_right _ List.mem_cons_self)
  have hfile : (pathBelow r.srcRoot (dirs ++ [name])).fileName = some name := by
    rw [pathBelow_concat]
    exact fileName_join _ hlast
  obtain ⟨above, s, habove, hs, hstem, hdrop⟩ := normalize_dropExtension hfile
  obtain ⟨above', habove', -, hread⟩ := parts_parent hfile
  obtain rfl : above = above' := Option.some.inj (habove.symm.trans habove')
  have hdir : above.parts = r.srcRoot.parts ++ dirs.map .name := by
    rw [parts_pathBelow hnames, List.map_append, ← List.append_assoc] at hread
    exact (List.append_cancel_right hread).symm
  obtain ⟨q, hq, hself⟩ := parts_of_isSegment hs
  refine ⟨q, ?_, ?_⟩
  · obtain ⟨f, hf⟩ := exists_normalForm r.srcRoot
    obtain ⟨g, hg⟩ := exists_normalForm (above.join ⟨s⟩)
    rw [hdrop, Path.normalize_eq hg, g.parts_path, ← hg, normalParts_join _
      (isAbsolute_of_isSegment hs), hdir, hq, Path.normalize_eq hf, f.parts_path, ← hf,
      ← normalParts_append_names]
    exact normalParts_concat_isPrefix _ _
  · intro n hn hhidden
    rw [hself n hn] at hhidden
    rcases hstem with rfl | ⟨-, rfl⟩
    · exact isHidden_of_nameStem hhidden
    · -- `..` is not read as a name
      subst hn
      cases hq.symm.trans (rfl : (⟨['.', '.']⟩ : Path).parts = [.up])

/-- **Only from a root that leads the source root** does a test import its unit by a hidden name:
one between the roots, or the unit's own in a run whose roots are one. -/
theorem roots_of_entersHidden (hl : l.WellFormed) (h : UnitAt l r root dirs name)
    (henters : EntersHidden
      (testDirectory r (pathBelow r.srcRoot (dirs ++ [name]))).normalize.parts
      (pathBelow r.srcRoot (dirs ++ [name])).dropExtension.normalize.parts) :
    ∃ between, r.srcRoot.normalize.parts = r.outputRoot.normalize.parts ++ between
      ∧ ((∃ n, IsHidden n ∧ .name n ∈ between) ∨ between = [] ∧ IsHidden name) := by
  obtain ⟨hidden, hhidden, hway⟩ := henters
  obtain ⟨q, hread, hlast⟩ := exists_parts_dropExtension hl h
  rw [parts_testDirectory hl h] at hway
  obtain ⟨between, hroots, hmem | ⟨hsame, hq⟩⟩ :=
    exists_between (fun d hd => (h.entered d hd).1) hhidden (hway.trans hread)
  · exact ⟨between, hroots, .inl ⟨hidden, hhidden, hmem⟩⟩
  · exact ⟨between, hroots, .inr ⟨hsame, hlast hidden hq hhidden⟩⟩

end Unit

/-- **Whether a test imports its source by a relative path.**  The document of a planned source
imports it by `specifierOf`.  That is relative unless the way from the directory of the test to the
source goes straight down into a hidden name; then the output root is the source root and the source
is hidden, or it leads the source root and a name between the two is. -/
theorem specifier_isRelative_iff {t : FileTree} {r : Resolved} {units : List Path} {source : Path}
    (ht : t.WellFormed) (hplan : plan t r = .ok units) (hsource : source ∈ units) :
    (∀ t' text events, renderUnit t' r source (targetOf r source) = .ok (text, events) →
        ∃ o, text = document r.framework o (specifierOf r source)
          (String.ofList (source.stem.getD [])))
      ∧ (IsRelative (specifierOf r source)
          ↔ ¬ EntersHidden (testDirectory r source).normalize.parts
            source.dropExtension.normalize.parts)
      ∧ (¬ IsRelative (specifierOf r source) →
          ∃ between, r.srcRoot.normalize.parts = r.outputRoot.normalize.parts ++ between
            ∧ ((∃ n, IsHidden n ∧ .name n ∈ between)
              ∨ between = [] ∧ ∃ n, source.fileName = some n ∧ IsHidden n)) := by
  have hiff := isRelative_importPath_iff (targetOf r source) source
  refine ⟨fun t' text events hrender => ?_, hiff, fun hnot => ?_⟩
  · rw [renderUnit] at hrender
    cases ho : analyzeFile t' source source with
    | error e =>
      rw [ho] at hrender
      cases hrender
    | ok o =>
      rw [ho] at hrender
      exact ⟨o, (Prod.mk.inj (Except.ok.inj hrender)).1.symm⟩
  · rw [plan] at hplan
    split_ifs at hplan with hdir
    obtain rfl := Except.ok.inj hplan
    obtain ⟨root, hroot⟩ := locate_of_isDirectory hdir
    rw [discoverSources, hroot] at hsource
    obtain ⟨dirs, name, rfl, hunit⟩ := (mem_sourcesBelow_iff ht.listing.closed).mp hsource
    obtain ⟨between, hroots, hbetween⟩ :=
      roots_of_entersHidden ht.listing hunit (not_not.mp (mt hiff.mpr hnot))
    refine ⟨between, hroots, hbetween.imp_right (And.imp_right fun hhidden => ?_)⟩
    refine ⟨name, ?_, hhidden⟩
    rw [pathBelow_concat]
    exact fileName_join _ (hunit.isName ht.listing name (List.mem_append_right _ List.mem_cons_self))

/-- A tree with a hidden source, and another one. -/
def hiddenSource : FileTree :=
  ⟨[(["src".toList], .directory), (["src".toList, ".cache.js".toList], .file ⟨#[]⟩),
    (["src".toList, "lib".toList], .directory),
    (["src".toList, "lib".toList, "a.js".toList], .file ⟨#[]⟩)], by decide⟩

/-- Settings that put its tests below some directory. -/
def hiddenSourceSettings (outputRoot : String) : Resolved :=
  ⟨.ofString "/src", .ofString outputRoot, none, ⟨[]⟩, .jest, false, true, none⟩

theorem wellFormed_hiddenSource : hiddenSource.WellFormed := by
  apply FileTree.wellFormed_of_entries
  intro x hx
  simp only [hiddenSource, List.mem_cons, List.not_mem_nil, or_false] at hx
  rcases hx with rfl | rfl | rfl | rfl
  all_goals exact ⟨by decide, rfl⟩

theorem plan_hiddenSource (outputRoot : String) :
    plan hiddenSource (hiddenSourceSettings outputRoot)
      = .ok [.ofString "/src/.cache.js", .ofString "/src/lib/a.js"] := by
  -- where the tests go has no part in what is found
  have hfound : ((filesBelow hiddenSource.listing [.text "src".toList]).filter
      (isSource (hiddenSourceSettings ""))).map (pathBelow (.ofString "/src"))
        = [.ofString "/src/.cache.js", .ofString "/src/lib/a.js"] := by
    decide +kernel
  exact @plan_of_found _ _ ["src".toList] _ rfl hfound (by decide +kernel)

/-- A hidden source, imported from the directory above the source root. -/
theorem specifier_isRelative_hiddenSource :
    let r := hiddenSourceSettings "/"
    let source := Path.ofString "/src/.cache.js"
    hiddenSource.WellFormed
      ∧ plan hiddenSource r = .ok [source, .ofString "/src/lib/a.js"]
      ∧ specifierOf r source = "./src/.cache" ∧ IsRelative (specifierOf r source) := by
  intro r source
  have hplan := plan_hiddenSource "/"
  refine ⟨wellFormed_hiddenSource, hplan, by decide +kernel, ?_⟩
  apply (specifier_isRelative_iff wellFormed_hiddenSource hplan List.mem_cons_self).2.1.mpr
  rintro ⟨name, hhidden, hname⟩
  -- the way leads into `src` first
  have hstart : (testDirectory r source).normalize.parts = [.root] := by decide +kernel
  have htarget : source.dropExtension.normalize.parts
      = [.root, .name "src".toList, .name ".cache".toList] := by
    decide +kernel
  rw [hstart, htarget, List.singleton_append] at hname
  have hfirst := (List.cons_prefix_cons.mp (List.cons_prefix_cons.mp hname).2).1
  rw [Part.name.inj hfirst] at hhidden
  exact absurd hhidden (by decide)

/-- Not every test imports its source by a relative path: beside a hidden source it does not. -/
theorem not_specifier_isRelative :
    ¬ ∀ (t : FileTree) (r : Resolved) (units : List Path) (source : Path), t.WellFormed →
      plan t r = .ok units → source ∈ units → IsRelative (specifierOf r source) := by
  intro h
  have hrelative := h hiddenSource (hiddenSourceSettings "/src") _ (.ofString "/src/.cache.js")
    wellFormed_hiddenSource (plan_hiddenSource "/src") List.mem_cons_self
  exact absurd hrelative (by decide +kernel)

end Scaffold

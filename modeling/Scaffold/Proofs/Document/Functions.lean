/-
Scaffold/Proofs/Document/Functions.lean

A group for each exported function.

The groups outside all braces of a document have the names of its targets
(`map_name_outermostGroups`), and the targets of a module of exported functions
are its declarations.  So such a module has one group for each function, in
order (`groups_exportedFunctions`), where the patterns can read what is declared
(`ExportedFunction.Legible`).

They cannot read type parameters in brackets that stand in each other: the
pattern for functions takes the first bracket that closes for the last one, and
the function is not found.  The one for exports does not look that far, and
finds its export, so nothing is tested although something is exported
(`not_groups_exportedFunctions`).
-/
import Scaffold.Proofs.Document.Groups
import Scaffold.Proofs.Extraction.Module
import Scaffold.Proofs.Text.Brackets

namespace Scaffold

open Text Scan Pattern

/-! ### The groups outside all braces -/

/-- The groups of a text that stand in code outside all braces. -/
def outermostGroups (cs : List Char) : List GroupLine :=
  (groupLines cs).filter fun g => (CodeMap.ofText cs).isTopLevel g.offset

section Outermost

variable {o : Outline}

/-- Of the groups a target opens the first stands outside. -/
theorem map_filter_shown (ts : List Target) :
    ((ts.flatMap Target.shown).filter fun g => g.1 == 0).map (·.2) = ts.map Target.name := by
  induction ts with
  | nil => rfl
  | cons t ts ih =>
    have hmembers : (t.memberNames.map fun name => (1, name)).filter (fun g => g.1 == 0) = [] := by
      simp
    rw [List.flatMap_cons, List.filter_append, List.map_append, ih, Target.shown, List.filter_cons,
      hmembers]
    rfl

/-- The lines of a document open the groups of its targets. -/
theorem fragment_document (framework : Framework)
    (hexports : ∀ e ∈ o.exports, isIdentifier e.name = true)
    (htargets : ∀ t ∈ o.targets, t.NamedByIdentifiers) {importPath : String}
    (hpath : ∀ c ∈ importPath.toList, c ≠ '\'' ∧ c ≠ '\\' ∧ c ≠ '\n') (unitName : String) :
    Fragment 0 (documentLines framework o importPath unitName)
      (o.targets.flatMap Target.shown) := by
  -- the head only knows the exports
  have hnamed : (⟨[], [], o.exports⟩ : Outline).NamedByIdentifiers :=
    ⟨by simp, by simp, by simp, hexports⟩
  have hhead := fragment_headLines framework hnamed hpath unitName
  have hwhole := hhead.append (fragment_groupsOf framework htargets)
  rw [List.nil_append] at hwhole
  exact hwhole

/-- **The groups of a document outside all braces have the names of its targets**, in order. -/
theorem map_name_outermostGroups (framework : Framework)
    (hexports : ∀ e ∈ o.exports, isIdentifier e.name = true)
    (htargets : ∀ t ∈ o.targets, t.NamedByIdentifiers) {importPath : String}
    (hpath : ∀ c ∈ importPath.toList, c ≠ '\'' ∧ c ≠ '\\' ∧ c ≠ '\n') (unitName : String) :
    (outermostGroups (document framework o importPath unitName).toList).map (·.name)
      = o.targets.map Target.name := by
  have hwhole := fragment_document framework hexports htargets hpath unitName
  have hshown := hwhole.shown [] [] .nil
  rw [List.nil_append, List.append_nil, byteLength_nil, ← groupLines_writtenLines hwhole.oneLine,
    ← document_eq] at hshown
  rw [outermostGroups]
  generalize (document framework o importPath unitName).toList = cs at hshown
  calc ((groupLines cs).filter fun g => (CodeMap.ofText cs).isTopLevel g.offset).map (·.name)
      = (((groupLines cs).map (GroupLine.shown (.ofText cs))).filter
          fun s => s.1 && s.2.1 == 0).map (·.2.2.2) := by
        rw [List.filter_map, List.map_map]
        rfl
    _ = ((o.targets.flatMap Target.shown).filter fun g => g.1 == 0).map (·.2) := by
        rw [hshown, List.filter_map, List.map_map]
        rfl
    _ = o.targets.map Target.name := map_filter_shown o.targets

end Outermost

/-! ### Modules of exported functions -/

theorem isIdentifier_iff {name : String} : isIdentifier name = true ↔ IsIdentifier name.toList := by
  rw [isIdentifier, IsIdentifier]
  rcases name.toList with - | ⟨c, cs⟩
  · simp
  · simp only [Bool.and_eq_true, List.all_eq_true, List.head?_cons, Option.mem_some_iff,
      exists_eq_left', List.forall_mem_cons]
    constructor
    · rintro ⟨hc, hcs⟩
      exact ⟨hc, isIdentifierPart_of_isIdentifierStart hc, hcs⟩
    · rintro ⟨hc, -, hcs⟩
      exact ⟨hc, hcs⟩

/-- **Each exported function of a module has its group**, in order, and there are no others. -/
theorem groups_exportedFunctions (framework : Framework) {ds : List ExportedFunction}
    (h : ∀ d ∈ ds, d.Legible) (hnames : (ds.map (·.name)).Nodup)
    (hquiet : (CodeMap.ofText (moduleText ds).toList).quiet = []) {importPath : String}
    (hpath : ∀ c ∈ importPath.toList, c ≠ '\'' ∧ c ≠ '\\' ∧ c ≠ '\n') (unitName : String) :
    (outermostGroups
        (document framework (extract (moduleText ds)) importPath unitName).toList).map (·.name)
      = ds.map (·.name) := by
  have hexports : ∀ e ∈ (extract (moduleText ds)).exports, isIdentifier e.name = true := by
    intro e he
    rw [exports_moduleText h hquiet] at he
    obtain ⟨ds₁, d, ds₂, rfl, rfl⟩ := mem_exportsFrom.mp he
    exact isIdentifier_iff.mpr (h d (by simp)).name
  have htargets : ∀ t ∈ (extract (moduleText ds)).targets, t.NamedByIdentifiers := by
    intro t ht
    obtain ⟨f, d, rfl, hd, hname⟩ := exists_eq_function_of_mem_targets h hquiet hnames ht
    refine ⟨?_, by simp [Target.memberNames]⟩
    show isIdentifier f.name = true
    rw [hname]
    exact isIdentifier_iff.mpr (h d hd).name
  rw [map_name_outermostGroups framework hexports htargets hpath, map_name_targets h hquiet hnames]

/-- A function with type parameters, with another one in its body, and one that waits. -/
def storeFunctions : List ExportedFunction :=
  [⟨false, "open_$1", some "T extends \x7b a: string \x7d, U",
      "[a, b] = f(2), \x7b c \x7d = \x7b\x7d",
      " if (c) \x7b return function from(x) \x7b return a; \x7d; \x7d "⟩,
    ⟨true, "close", none, "", ""⟩]

theorem legible_storeFunctions : ∀ d ∈ storeFunctions, d.Legible := by
  -- the parenthesis behind the name is closed
  have hbody : ClosesFunctions (" if (c) \x7b return function from(x".toList
      ++ ')' :: " \x7b return a; \x7d; \x7d ".toList) :=
    .close (.of_not_isInfix (by decide +kernel)) _
  intro d hd
  simp only [storeFunctions, List.mem_cons, List.not_mem_nil, or_false] at hd
  rcases hd with rfl | rfl
  · constructor
    case name => exact isIdentifier_iff.mp (by decide)
    case notHeritage => decide
    case generics =>
      rintro _ ⟨⟩
      exact ⟨List.all_iff_forall_prop.mp (by decide), by decide,
        not_hasExport_of_not_isInfix (by decide +kernel)⟩
    case parameters => exact ⟨by decide, not_hasExport_of_not_isInfix (by decide +kernel)⟩
    case body => exact ⟨by decide, hbody⟩
  · constructor
    case name => exact isIdentifier_iff.mp (by decide)
    case notHeritage => decide
    case generics => rintro _ ⟨⟩
    case parameters => exact ⟨by decide, not_hasExport_of_not_isInfix (by decide)⟩
    case body => exact ⟨by decide, .of_not_isInfix (by decide)⟩

theorem quiet_storeFunctions : (CodeMap.ofText (moduleText storeFunctions).toList).quiet = [] := by
  rw [storeFunctions, toList_moduleText_cons, backText_cons, backText_nil]
  simp only [ExportedFunction.toList_text, ExportedFunction.toList_head,
    ExportedFunction.toList_keyword, ExportedFunction.marker, ExportedFunction.typeList,
    String.toList_append]
  decide +kernel

/-- The groups of `storeFunctions`. -/
theorem groups_exportedFunctions_storeFunctions :
    (∀ d ∈ storeFunctions, d.Legible) ∧ (storeFunctions.map (·.name)).Nodup
      ∧ (CodeMap.ofText (moduleText storeFunctions).toList).quiet = []
      ∧ (∀ c ∈ "../src/store".toList, c ≠ '\'' ∧ c ≠ '\\' ∧ c ≠ '\n')
      ∧ (outermostGroups (document .jest (extract (moduleText storeFunctions)) "../src/store"
          "store").toList).map (·.name) = ["open_$1", "close"] := by
  have hnames : (storeFunctions.map (·.name)).Nodup := by decide
  have hpath : ∀ c ∈ "../src/store".toList, c ≠ '\'' ∧ c ≠ '\\' ∧ c ≠ '\n' :=
    List.all_iff_forall_prop.mp (by decide)
  have hgroups := groups_exportedFunctions .jest legible_storeFunctions hnames quiet_storeFunctions
    hpath "store"
  exact ⟨legible_storeFunctions, hnames, quiet_storeFunctions, hpath, hgroups⟩

/-! ### Brackets in brackets -/

/-- A declaration with a name, whose brackets are properly nested. -/
structure ExportedFunction.Nested (d : ExportedFunction) : Prop where
  name : IsIdentifier d.name.toList
  generics : ∀ g ∈ d.generics, nests [('<', '>')] [] g.toList = true
  parameters : nests [('(', ')'), ('[', ']'), ('{', '}')] [] d.parameters.toList = true
  body : nests [('{', '}')] [] d.body.toList = true

/-- A function whose type parameters have brackets in brackets. -/
def mergeFunction : ExportedFunction :=
  ⟨false, "merge", some "K, V extends Array<K>", "a, b", " return a; "⟩

theorem nested_mergeFunction : mergeFunction.Nested := by
  constructor
  case name => exact isIdentifier_iff.mp (by decide)
  case generics =>
    rintro _ ⟨⟩
    decide
  case parameters => decide
  case body => decide

theorem moduleText_mergeFunction : moduleText [mergeFunction]
    = "export function merge<K, V extends Array<K>>(a, b) \x7b return a; \x7d" := by
  apply String.toList_inj.mp
  rw [toList_moduleText_cons, backText_nil, ExportedFunction.toList_text,
    ExportedFunction.toList_head, ExportedFunction.toList_keyword]
  simp [mergeFunction, ExportedFunction.marker, ExportedFunction.typeList]

theorem extract_mergeFunction :
    extract (moduleText [mergeFunction]) = ⟨[], [], [⟨"merge", false, 0⟩]⟩ := by
  rw [moduleText_mergeFunction]
  decide +kernel

/-- Not every exported function has its group, properly nested as its brackets may be. -/
theorem not_groups_exportedFunctions :
    ¬ ∀ (framework : Framework) (ds : List ExportedFunction) (importPath unitName : String),
      (∀ d ∈ ds, d.Nested) → (ds.map (·.name)).Nodup →
      (CodeMap.ofText (moduleText ds).toList).quiet = [] →
      (∀ c ∈ importPath.toList, c ≠ '\'' ∧ c ≠ '\\' ∧ c ≠ '\n') →
      (outermostGroups
          (document framework (extract (moduleText ds)) importPath unitName).toList).map (·.name)
        = ds.map (·.name) := by
  intro hclaim
  have hnested : ∀ d ∈ [mergeFunction], d.Nested := by simpa using nested_mergeFunction
  have hquiet : (CodeMap.ofText (moduleText [mergeFunction]).toList).quiet = [] := by
    rw [moduleText_mergeFunction, String.toList_ofList]
    decide +kernel
  have hpath : ∀ c ∈ "../src/merge".toList, c ≠ '\'' ∧ c ≠ '\\' ∧ c ≠ '\n' :=
    List.all_iff_forall_prop.mp (by decide)
  have hgroups := hclaim .jest [mergeFunction] "../src/merge" "merge" hnested (by decide) hquiet
    hpath
  -- it is exported, but it is not found
  have hexports : ∀ e ∈ (extract (moduleText [mergeFunction])).exports,
      isIdentifier e.name = true := by
    rw [extract_mergeFunction]
    decide
  have hnone : (extract (moduleText [mergeFunction])).targets = [] := by
    rw [extract_mergeFunction]
    rfl
  rw [map_name_outermostGroups .jest hexports (by simp [hnone]) hpath, hnone] at hgroups
  cases hgroups

end Scaffold

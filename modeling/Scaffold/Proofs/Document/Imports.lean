/-
Scaffold/Proofs/Document/Imports.lean

What the import statement of a document binds, and what its groups need.

The statement and the groups go over the same exports with different filters:
the statement leaves out the name of the first default export and then drops
repetitions, the groups drop repetitions and then look for a declaration.  A
name may be exported both as a default and by name, in any order.

An `ImportClause` is the part of a statement that binds names.  `ImportsAgree`
says which names those are, that a target is bound unless it is exported as a
later default only, and that every later default is reported;
`imports_agree_with_targets` is that for every outline with exports.
-/
import Mathlib.Tactic.Tauto
import Scaffold.Proofs.Document.Targets

namespace Scaffold

/-! ### Import clauses -/

/-- The names an import statement binds. -/
structure ImportClause where
  /-- The name for the default export. -/
  default? : Option String
  /-- The names in braces. -/
  named : List String
deriving DecidableEq

namespace ImportClause

/-- The names in braces, as they are written. -/
def braced (c : ImportClause) : String := "\x7b " ++ ", ".intercalate c.named ++ " \x7d"

/-- A clause as it is written. -/
def written (c : ImportClause) : String :=
  match c.default?, c.named with
  | some name, [] => name
  | some name, _ :: _ => name ++ ", " ++ c.braced
  | none, _ => c.braced

/-- The statement that imports a module by a clause. -/
def statement (c : ImportClause) (importPath : String) : String :=
  "import " ++ c.written ++ " from '" ++ importPath ++ "';"

/-- All names a clause binds. -/
def bound (c : ImportClause) : List String := c.default?.toList ++ c.named

theorem mem_bound {c : ImportClause} {name : String} :
    name ∈ c.bound ↔ c.default? = some name ∨ name ∈ c.named := by
  rw [bound, List.mem_append, Option.mem_toList]

end ImportClause

/-! ### The clause of an outline -/

namespace Outline

variable {o : Outline}

/-- The names of the exports to import in braces, each as often as it is exported. -/
def bracedNames (o : Outline) : List String :=
  (o.exports.filter (fun e => !e.isDefault && !(some e.name == o.defaults.head?))).map (·.name)

/-- The clause that imports what an outline exports. -/
def importClause (o : Outline) : ImportClause := ⟨o.defaults.head?, o.namedExports⟩

theorem mem_bracedNames {name : String} :
    name ∈ o.bracedNames
      ↔ (∃ e ∈ o.exports, e.name = name ∧ e.isDefault = false) ∧ o.defaults.head? ≠ some name := by
  rw [bracedNames, List.mem_map]
  constructor
  · rintro ⟨e, he, rfl⟩
    obtain ⟨he, hkept⟩ := List.mem_filter.mp he
    obtain ⟨hdefault, hother⟩ := Bool.and_eq_true_iff.mp hkept
    refine ⟨⟨e, he, rfl, by simpa using hdefault⟩, fun heq => ?_⟩
    rw [heq] at hother
    simp at hother
  · rintro ⟨⟨e, he, rfl, hdefault⟩, hother⟩
    refine ⟨e, List.mem_filter.mpr ⟨he, ?_⟩, rfl⟩
    rw [hdefault, Bool.not_false, Bool.true_and, Bool.not_eq_true', beq_eq_false_iff_ne]
    exact hother.symm

/-- **The names in braces are those of the exports that are no defaults, the default name apart, in
the order of their first occurrence.** -/
theorem firstOccurrences_namedExports (o : Outline) :
    FirstOccurrences o.bracedNames o.namedExports := by
  have hnames : ((o.exports.filter (fun e => !e.isDefault)).map (·.name)).filter
      (fun name => !(some name == o.defaults.head?)) = o.bracedNames := by
    -- one filter on exports, and one on their names
    rw [bracedNames, List.filter_map, List.filter_filter]
    refine congrArg (List.map _) (List.filter_congr fun e _ => ?_)
    exact Bool.and_comm _ _
  rw [namedExports, hnames]
  have h := firstOccurrences_distinctBy (fun name => name) o.bracedNames
  rwa [List.map_id', List.map_id'] at h

theorem head?_defaults (o : Outline) :
    o.defaults.head? = (o.exports.find? (·.isDefault)).map (·.name) := by
  rw [defaults, List.head?_map, List.head?_filter]

/-- A name is bound as that of the first default export, or because something that is no default is
exported by it. -/
theorem mem_bound_importClause {name : String} :
    name ∈ o.importClause.bound
      ↔ o.defaults.head? = some name ∨ ∃ e ∈ o.exports, e.name = name ∧ e.isDefault = false := by
  rw [ImportClause.mem_bound]
  change o.defaults.head? = some name ∨ name ∈ o.namedExports ↔ _
  rw [o.firstOccurrences_namedExports.mem_iff, mem_bracedNames]
  tauto

/-- No name is bound twice. -/
theorem nodup_bound_importClause (o : Outline) : o.importClause.bound.Nodup := by
  refine List.nodup_append.mpr ⟨?_, o.firstOccurrences_namedExports.nodup, ?_⟩
  · rcases o.importClause.default? with - | name
    · exact .nil
    · exact List.nodup_singleton name
  · intro name hname other hother heq
    have hhead : o.defaults.head? = some name := Option.mem_toList.mp hname
    rw [← heq] at hother
    exact (mem_bracedNames.mp (o.firstOccurrences_namedExports.mem_iff name |>.mp hother)).2 hhead

/-- Where something is exported, the statement binds something. -/
theorem bound_importClause_ne_nil (h : o.exports ≠ []) : o.importClause.bound ≠ [] := by
  obtain ⟨e, es, hes⟩ := List.exists_cons_of_ne_nil h
  intro hnil
  have hunbound : ∀ name, name ∉ o.importClause.bound := by
    intro name
    rw [hnil]
    exact List.not_mem_nil
  -- the first export is bound, in braces or as the default
  rcases hdefault : e.isDefault with - | -
  · refine hunbound e.name (mem_bound_importClause.mpr (Or.inr ⟨e, ?_, rfl, hdefault⟩))
    rw [hes]
    exact List.mem_cons_self
  · refine hunbound e.name (mem_bound_importClause.mpr (Or.inl ?_))
    rw [head?_defaults, hes, List.find?_cons_of_pos hdefault]
    rfl

/-- The import statement of an outline with exports is that of its clause. -/
theorem importStatement_eq (h : o.exports ≠ []) (importPath unitName : String) :
    o.importStatement importPath unitName = o.importClause.statement importPath := by
  have hbound := bound_importClause_ne_nil h
  rw [ImportClause.bound, importClause] at hbound
  rw [importStatement, ImportClause.statement, ImportClause.written, ImportClause.braced,
    importClause]
  -- a default or none, names in braces or none; an outline with exports has one of the two
  rcases hhead : o.defaults.head? with - | name <;> rcases hnamed : o.namedExports with - | ⟨n, ns⟩
  case none.nil =>
    rw [hhead, hnamed] at hbound
    exact absurd rfl hbound
  all_goals rfl

end Outline

/-! ### The statement, the targets and the reports -/

/-- What a clause has to do with the exports, the targets and the reports of an outline. -/
structure ImportsAgree (o : Outline) (importPath : String) (c : ImportClause) : Prop where
  /-- The first default export is bound by itself. -/
  default?_eq : c.default? = (o.exports.find? (·.isDefault)).map (·.name)
  /-- The exports that are no defaults are bound in braces, the name of the first default apart. -/
  named : FirstOccurrences
    ((o.exports.filter (fun e => !e.isDefault && !(some e.name == c.default?))).map (·.name))
    c.named
  once : c.bound.Nodup
  /-- A target is left out exactly if it is exported as a default only, and not as the first. -/
  unbound_iff : ∀ t ∈ o.targets, t.name ∉ c.bound
    ↔ (∀ e ∈ o.exports, e.name = t.name → e.isDefault = true) ∧ c.default? ≠ some t.name
  /-- There is a report for every default export but one. -/
  reports : (o.ignoredDefaults importPath).length = o.exports.countP (·.isDefault) - 1
  /-- Each report names what is kept, and the next default export. -/
  reported : ∀ i report, (o.ignoredDefaults importPath)[i]? = some report →
    report.importPath = importPath ∧ some report.kept = c.default?
      ∧ ((o.exports.filter (·.isDefault))[i + 1]?).map (·.name) = some report.ignored

namespace Outline

variable {o : Outline}

theorem length_ignoredDefaults (o : Outline) (importPath : String) :
    (o.ignoredDefaults importPath).length = o.defaults.length - 1 := by
  rw [ignoredDefaults]
  rcases o.defaults with - | ⟨kept, others⟩
  · rfl
  · rw [List.length_map, List.length_cons, Nat.add_sub_cancel]

/-- A report is about the first default export and the one it stands for. -/
theorem getElem?_ignoredDefaults {importPath : String} {i : Nat} {report : IgnoredDefault}
    (h : (o.ignoredDefaults importPath)[i]? = some report) :
    report.importPath = importPath ∧ o.defaults.head? = some report.kept
      ∧ o.defaults[i + 1]? = some report.ignored := by
  rw [ignoredDefaults] at h
  rcases hdefaults : o.defaults with - | ⟨kept, others⟩
  · rw [hdefaults] at h
    cases h
  · rw [hdefaults, List.getElem?_map] at h
    obtain ⟨ignored, hignored, rfl⟩ := Option.map_eq_some_iff.mp h
    exact ⟨rfl, rfl, hignored⟩

/-- **Imports and groups agree**: the import statement of an outline with exports binds the names of
its exports once, leaves no target out but those exported as a later default only, and every later
default is reported. -/
theorem imports_agree_with_targets (o : Outline) (h : o.exports ≠ [])
    (importPath unitName : String) :
    ∃ c : ImportClause, o.importStatement importPath unitName = c.statement importPath
      ∧ ImportsAgree o importPath c := by
  refine ⟨o.importClause, importStatement_eq h importPath unitName, ?_⟩
  constructor
  case default?_eq => exact o.head?_defaults
  case named => exact o.firstOccurrences_namedExports
  case once => exact o.nodup_bound_importClause
  case unbound_iff =>
    intro t _
    rw [mem_bound_importClause, not_or, and_comm]
    refine and_congr_left fun _ => ?_
    simp only [not_exists, not_and, Bool.not_eq_false]
  case reports =>
    rw [length_ignoredDefaults, defaults, List.length_map, List.countP_eq_length_filter]
  case reported =>
    intro i report hreport
    obtain ⟨hpath, hkept, hignored⟩ := getElem?_ignoredDefaults hreport
    refine ⟨hpath, hkept.symm, ?_⟩
    rwa [defaults, List.getElem?_map] at hignored

/-- A module that exports one name twice and has two defaults. -/
def crowdedExports : Outline where
  functions := [⟨"f", [], false, 0⟩, ⟨"g", [], false, 20⟩, ⟨"h", [], false, 40⟩]
  classes := [⟨"C", [], 60⟩]
  exports := [⟨"g", false, 20⟩, ⟨"f", true, 70⟩, ⟨"h", true, 80⟩, ⟨"C", false, 90⟩,
    ⟨"f", false, 95⟩, ⟨"g", false, 99⟩]

theorem crowdedExports_imports_agree :
    crowdedExports.exports ≠ [] ∧ ∃ c : ImportClause,
      crowdedExports.importStatement "../src/m" "m" = c.statement "../src/m"
        ∧ ImportsAgree crowdedExports "../src/m" c := by
  have h : crowdedExports.exports ≠ [] := by decide
  exact ⟨h, imports_agree_with_targets crowdedExports h "../src/m" "m"⟩

end Outline

end Scaffold

/-
Scaffold/Proofs/Document/Targets.lean

Which declarations a document tests, and in which order.

Names may repeat in an outline, and the first one counts.  `FirstOccurrences`
says of a list that it has the elements of another one, each once, in the order
in which they first occur; `distinctBy` makes such a list of keys
(`firstOccurrences_distinctBy`).  With it the targets are described without the
way they are picked (`Selects`): their names are the exported names that are
declared, or all declared names where nothing is exported, and each one is the
declaration its name stands for (`selects_targets`, `target?_of_mem_targets`).
-/
import Mathlib.Data.List.Basic
import Mathlib.Data.List.Nodup
import Scaffold.Document

namespace Scaffold

/-! ### First occurrences -/

section FirstOccurrences

variable {α β : Type} [DecidableEq β]

/-- `ys` has the elements of `xs`, each once, in the order in which they first occur. -/
structure FirstOccurrences (xs ys : List β) : Prop where
  mem_iff : ∀ b, b ∈ ys ↔ b ∈ xs
  inOrder : ys.Pairwise (fun a b => xs.idxOf a < xs.idxOf b)

theorem FirstOccurrences.nodup {xs ys : List β} (h : FirstOccurrences xs ys) : ys.Nodup := by
  refine h.inOrder.imp fun hlt heq => ?_
  rw [heq] at hlt
  exact Nat.lt_irrefl _ hlt

variable {key : α → β} {xs : List α}

theorem mem_of_mem_distinctBy {x : α} (h : x ∈ distinctBy key xs) : x ∈ xs := by
  induction xs with
  | nil => exact h
  | cons y ys ih =>
    rw [distinctBy, List.mem_cons] at h
    rcases h with rfl | h
    · exact List.mem_cons_self
    · exact List.mem_cons_of_mem _ (ih (List.mem_filter.mp h).1)

/-- Of the items with one key the first is kept. -/
theorem find?_of_mem_distinctBy {x : α} (h : x ∈ distinctBy key xs) :
    xs.find? (fun y => key y == key x) = some x := by
  induction xs with
  | nil => cases h
  | cons y ys ih =>
    rw [distinctBy, List.mem_cons] at h
    rcases h with rfl | h
    · -- `x` is the first
      exact List.find?_cons_of_pos (beq_self_eq_true _)
    · -- `x` comes later, so its key is another
      obtain ⟨h, hne⟩ := List.mem_filter.mp h
      have hother : (key y == key x) = false := by
        rw [beq_eq_false_iff_ne]
        intro heq
        rw [heq] at hne
        simp at hne
      rw [List.find?_cons, hother]
      exact ih h

/-- **The keys of the distinct items are the keys in the order of their first occurrence.** -/
theorem firstOccurrences_distinctBy (key : α → β) (xs : List α) :
    FirstOccurrences (xs.map key) ((distinctBy key xs).map key) := by
  induction xs with
  | nil => exact ⟨fun _ => Iff.rfl, .nil⟩
  | cons x xs ih =>
    rw [distinctBy, List.map_cons, List.map_cons]
    have hrest : ∀ b, b ∈ ((distinctBy key xs).filter (fun y => !(key y == key x))).map key
        ↔ b ∈ xs.map key ∧ b ≠ key x := by
      intro b
      rw [← ih.mem_iff]
      constructor
      · rintro hb
        obtain ⟨y, hy, rfl⟩ := List.mem_map.mp hb
        obtain ⟨hy, hne⟩ := List.mem_filter.mp hy
        exact ⟨List.mem_map_of_mem hy, by simpa using hne⟩
      · rintro ⟨hb, hne⟩
        obtain ⟨y, hy, rfl⟩ := List.mem_map.mp hb
        exact List.mem_map_of_mem (List.mem_filter.mpr ⟨hy, by simpa using hne⟩)
    refine ⟨fun b => ?_, List.pairwise_cons.mpr ⟨fun b hb => ?_, ?_⟩⟩
    · rw [List.mem_cons, List.mem_cons, hrest]
      tauto
    · rw [List.idxOf_cons_self, List.idxOf_cons_ne _ ((hrest b).mp hb).2.symm]
      exact Nat.succ_pos _
    · -- In front of the first key the others only move one place on.
      have hsub : (((distinctBy key xs).filter (fun y => !(key y == key x))).map key).Pairwise
          (fun a b => (xs.map key).idxOf a < (xs.map key).idxOf b) :=
        ih.inOrder.sublist (List.filter_sublist.map key)
      refine List.Pairwise.imp_of_mem (fun ha hb hlt => ?_) hsub
      rw [List.idxOf_cons_ne _ ((hrest _).mp ha).2.symm,
        List.idxOf_cons_ne _ ((hrest _).mp hb).2.symm]
      exact Nat.succ_lt_succ hlt

/-- Where no key repeats every item is kept. -/
theorem distinctBy_of_nodup (h : (xs.map key).Nodup) : distinctBy key xs = xs := by
  induction xs with
  | nil => rfl
  | cons x xs ih =>
    rw [List.map_cons, List.nodup_cons] at h
    rw [distinctBy, ih h.2, List.filter_eq_self.mpr]
    intro y hy
    have hne : key y ≠ key x := fun heq => h.1 (heq ▸ List.mem_map_of_mem hy)
    simpa using hne

end FirstOccurrences

/-! ### Targets -/

namespace Outline

variable {o : Outline}

/-- The names of what an outline declares, functions before classes. -/
def declaredNames (o : Outline) : List String :=
  o.functions.map (·.name) ++ o.classes.map (·.name)

/-- The declarations of an outline, functions before classes. -/
def declared (o : Outline) : List Target := o.functions.map .function ++ o.classes.map .classItem

theorem map_name_declared (o : Outline) : o.declared.map Target.name = o.declaredNames := by
  rw [declared, declaredNames, List.map_append, List.map_map, List.map_map]
  rfl

/-- The declaration of a name is the first one that has it. -/
theorem target?_eq_find? (o : Outline) (name : String) :
    o.target? name = o.declared.find? (fun t => t.name == name) := by
  have hfunctions : (o.functions.map Target.function).find? (fun t => t.name == name)
      = (o.function? name).map Target.function := List.find?_map
  have hclasses : (o.classes.map Target.classItem).find? (fun t => t.name == name)
      = (o.class? name).map Target.classItem := List.find?_map
  rw [declared, List.find?_append, hfunctions, hclasses, target?]
  rcases o.function? name with - | f
  · rw [Option.map_none, Option.none_or]
  · rw [Option.map_some, Option.some_or]

theorem name_of_target? {name : String} {t : Target} (h : o.target? name = some t) :
    t.name = name := by
  rw [target?_eq_find?] at h
  have hname := @List.find?_some Target (fun t => t.name == name) _ _ h
  exact eq_of_beq hname

theorem isSome_target? (o : Outline) (name : String) :
    (o.target? name).isSome = decide (name ∈ o.declaredNames) := by
  rw [target?_eq_find?, ← map_name_declared, Bool.eq_iff_iff, List.find?_isSome, decide_eq_true_iff,
    List.mem_map]
  simp only [beq_iff_eq]

/-- The names of the targets found for some exports are those of the exports that are declared. -/
theorem map_name_filterMap_target? (o : Outline) (es : List ExportItem) :
    (es.filterMap (fun e => o.target? e.name)).map Target.name
      = (es.map (·.name)).filter (fun name => decide (name ∈ o.declaredNames)) := by
  induction es with
  | nil => rfl
  | cons e es ih =>
    have hsome := o.isSome_target? e.name
    rw [List.map_cons, List.filter_cons, ← hsome, List.filterMap_cons]
    rcases htarget : o.target? e.name with - | t
    · exact ih
    · show t.name :: _ = e.name :: _
      rw [ih, name_of_target? htarget]

/-- How the names of what is tested follow from an outline. -/
structure Selects (o : Outline) (names : List String) : Prop where
  /-- With exports: the exported names that are declared, in the order of the exports. -/
  exported : o.exports ≠ [] → ∃ distinct, FirstOccurrences (o.exports.map (·.name)) distinct
    ∧ names = distinct.filter (fun name => decide (name ∈ o.declaredNames))
  /-- Without exports: all declared names, functions before classes. -/
  fallback : o.exports = [] → FirstOccurrences o.declaredNames names

theorem targets_of_exports (h : o.exports ≠ []) :
    o.targets = (distinctBy (·.name) o.exports).filterMap (fun e => o.target? e.name) := by
  rw [targets, if_neg (by simpa using h)]

theorem targets_of_no_exports (h : o.exports = []) :
    o.targets = distinctBy Target.name o.declared := by
  rw [targets, h, List.isEmpty_nil, if_pos rfl]
  rfl

/-- **The targets have the names an outline selects**, in that order. -/
theorem selects_targets (o : Outline) : o.Selects (o.targets.map Target.name) where
  exported h := by
    rw [targets_of_exports h, map_name_filterMap_target?]
    exact ⟨_, firstOccurrences_distinctBy _ _, rfl⟩
  fallback h := by
    rw [targets_of_no_exports h, ← map_name_declared]
    exact firstOccurrences_distinctBy _ _

/-- **A target is the declaration its name stands for.** -/
theorem target?_of_mem_targets {t : Target} (h : t ∈ o.targets) : o.target? t.name = some t := by
  by_cases hexports : o.exports = []
  · rw [targets_of_no_exports hexports] at h
    rw [target?_eq_find?]
    exact find?_of_mem_distinctBy h
  · rw [targets_of_exports hexports] at h
    obtain ⟨e, -, he⟩ := List.mem_filterMap.mp h
    rw [name_of_target? he]
    exact he

/-- With exports every target is exported. -/
theorem exported_of_mem_targets (hexports : o.exports ≠ []) {t : Target} (h : t ∈ o.targets) :
    ∃ e ∈ o.exports, e.name = t.name := by
  rw [targets_of_exports hexports] at h
  obtain ⟨e, he, ht⟩ := List.mem_filterMap.mp h
  exact ⟨e, mem_of_mem_distinctBy he, (name_of_target? ht).symm⟩

theorem nodup_targets (o : Outline) : (o.targets.map Target.name).Nodup := by
  by_cases hexports : o.exports = []
  · exact (o.selects_targets.fallback hexports).nodup
  · obtain ⟨distinct, hdistinct, hnames⟩ := o.selects_targets.exported hexports
    rw [hnames]
    exact hdistinct.nodup.filter _

end Outline

end Scaffold

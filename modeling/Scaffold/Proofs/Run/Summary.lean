/-
Scaffold/Proofs/Run/Summary.lean

Summaries of a run, in whatever shape they are put together.

Every outcome counts in one place, so the counts of a run add up to its sources
(`total_summary`).

Where the units of a run are shared out, the summaries of single units are
combined two by two, in the shape in which the work was split, with empty
summaries where a share had no units left.  `Reduction outcomes` is such a
shape over outcomes in their order.

* `ofOutcomes_append` — as `merge` is associative and `empty` its identity, the
  summary of outcomes in two parts is that of the parts merged;
* `Reduction.combine_eq` — hence the shape does not show;
* `accounts_sortFailures` — sorted, such a summary accounts for every outcome:
  the numbers add up, and the failures ascend by path, those of one path in
  their order;
* `summary_of_reduction` — so does that of a run over any units.
-/
import Scaffold.Proofs.Run.Order

namespace Scaffold

/-! ### Counts -/

section Counts

variable {t : FileTree} {r : Resolved} {units : List Path} {dryRun : Bool}

theorem length_processAll (r : Resolved) (dryRun : Bool) (t : FileTree) (units : List Path) :
    (processAll r dryRun t units).2.length = units.length := by
  induction units generalizing t with
  | nil => rfl
  | cons s units ih => simp only [processAll, List.length_cons, ih]

/-- One outcome for each source. -/
theorem length_outcomes : (execute t r units dryRun).outcomes.length = units.length := by
  simp only [execute, List.length_map, length_processAll]

namespace Summary

/-- An outcome counts in one place. -/
theorem total_ofOutcomes (outcomes : List Outcome) :
    (ofOutcomes outcomes).total = outcomes.length := by
  rw [ofOutcomes_eq]
  induction outcomes with
  | nil => rfl
  | cons o outcomes ih =>
    have one : (if o.isGenerated then 1 else 0) + (if o.isSkipped then 1 else 0)
        + (ofOutcome o).failures.length = 1 := by
      cases o <;> rfl
    simp only [total, failed, List.countP_cons, List.flatMap_cons, List.length_append,
      List.length_cons] at ih ⊢
    omega

theorem failed_sortFailures (s : Summary) : s.sortFailures.failed = s.failed :=
  List.length_mergeSort _

theorem total_sortFailures (s : Summary) : s.sortFailures.total = s.total := by
  rw [total, failed_sortFailures]
  rfl

/-- A failure is counted when there is one. -/
theorem failed_pos_iff (outcomes : List Outcome) :
    0 < (ofOutcomes outcomes).failed ↔ ∃ e, Outcome.failed e ∈ outcomes := by
  rw [ofOutcomes_eq, failed, List.length_pos_iff_exists_mem]
  simp only [List.mem_flatMap]
  constructor
  · rintro ⟨e, o, ho, he⟩
    cases o with
    | failed e' => exact ⟨e', ho⟩
    | generated => cases he
    | skipped => cases he
  · rintro ⟨e, he⟩
    exact ⟨e, .failed e, he, List.mem_singleton_self e⟩

end Summary

/-- **The counts of a run add up to its sources.** -/
theorem total_summary : (execute t r units dryRun).summary.total = units.length :=
  (Summary.total_sortFailures _).trans ((Summary.total_ofOutcomes _).trans length_outcomes)

/-- A run counts a failure when a source fails. -/
theorem failed_summary_pos_iff : 0 < (execute t r units dryRun).summary.failed
    ↔ ∃ e, Outcome.failed e ∈ (execute t r units dryRun).outcomes := by
  refine Iff.trans ?_ (Summary.failed_pos_iff _)
  exact iff_of_eq (congrArg (0 < ·) (Summary.failed_sortFailures _))

end Counts

/-! ### Errors -/

/-- The error of a source that failed. -/
def Outcome.error? : Outcome → Option UnitError
  | .failed e => some e
  | _ => none

/-- The errors among outcomes, in their order. -/
def errors (outcomes : List Outcome) : List UnitError := outcomes.filterMap Outcome.error?

namespace Summary

theorem flatMap_failures (outcomes : List Outcome) :
    outcomes.flatMap (fun o => (ofOutcome o).failures) = errors outcomes := by
  induction outcomes with
  | nil => rfl
  | cons o outcomes ih =>
    rw [List.flatMap_cons, ih, errors, errors, List.filterMap_cons]
    cases o <;> rfl

/-! ### Merging -/

instance : Std.Associative merge where
  assoc a b c := by
    simp only [merge, Nat.add_assoc, List.append_assoc]

instance : Std.LawfulIdentity merge empty where
  left_id s := by
    show Summary.mk (0 + s.generated) (0 + s.skipped) ([] ++ s.failures) = s
    rw [Nat.zero_add, Nat.zero_add, List.nil_append]
  right_id s := by
    show Summary.mk (s.generated + 0) (s.skipped + 0) (s.failures ++ []) = s
    rw [Nat.add_zero, Nat.add_zero, List.append_nil]

/-- **The summary of outcomes in two parts** is that of the first merged with that of the second. -/
theorem ofOutcomes_append (xs ys : List Outcome) :
    ofOutcomes (xs ++ ys) = (ofOutcomes xs).merge (ofOutcomes ys) := by
  have hfirst : ofOutcomes xs = (ofOutcomes xs).merge empty :=
    (Std.LawfulRightIdentity.right_id (ofOutcomes xs)).symm
  calc ofOutcomes (xs ++ ys)
      = (ys.map ofOutcome).foldl merge (ofOutcomes xs) := by
        rw [ofOutcomes, List.map_append, List.foldl_append]
        rfl
    _ = (ys.map ofOutcome).foldl merge ((ofOutcomes xs).merge empty) := by rw [← hfirst]
    _ = (ofOutcomes xs).merge (ofOutcomes ys) := List.foldl_assoc

end Summary

/-! ### Reductions -/

/-- A shape in which the summaries of outcomes, in their order, are combined. -/
inductive Reduction : List Outcome → Type where
  /-- A share without units. -/
  | empty : Reduction []
  /-- A single unit. -/
  | unit (outcome : Outcome) : Reduction [outcome]
  /-- Two shares, one behind the other. -/
  | merge {front back : List Outcome} (left : Reduction front) (right : Reduction back) :
    Reduction (front ++ back)

namespace Reduction

/-- The summary a reduction comes to. -/
def combine {outcomes : List Outcome} : Reduction outcomes → Summary
  | empty => .empty
  | unit outcome => .ofOutcome outcome
  | merge left right => left.combine.merge right.combine

/-- **The shape of a reduction does not show** in the summary it comes to. -/
theorem combine_eq {outcomes : List Outcome} (shape : Reduction outcomes) :
    shape.combine = Summary.ofOutcomes outcomes := by
  induction shape with
  | empty => rfl
  | unit outcome => exact (Std.LawfulLeftIdentity.left_id (Summary.ofOutcome outcome)).symm
  | merge left right ihleft ihright =>
    rw [combine, ihleft, ihright, Summary.ofOutcomes_append]

end Reduction

/-! ### Accounts -/

/-- What a summary in the order of paths says of outcomes. -/
structure Summary.Accounts (s : Summary) (outcomes : List Outcome) : Prop where
  /-- Every outcome counts once. -/
  total : s.total = outcomes.length
  generated : s.generated = outcomes.countP Outcome.isGenerated
  skipped : s.skipped = outcomes.countP Outcome.isSkipped
  failures : s.failures.Perm (errors outcomes)
  ascending : s.failures.Pairwise fun a b => a.path.le b.path = true
  /-- Failures with one path are in the order of their outcomes. -/
  stable : ∀ p : Path, s.failures.filter (fun e => e.path.parts = p.parts)
    = (errors outcomes).filter fun e => e.path.parts = p.parts

/-- **A sorted summary accounts for its outcomes.** -/
theorem Summary.accounts_sortFailures (outcomes : List Outcome) :
    (ofOutcomes outcomes).sortFailures.Accounts outcomes := by
  have hfailures : (ofOutcomes outcomes).failures = errors outcomes := by
    rw [ofOutcomes_eq]
    exact flatMap_failures outcomes
  constructor
  case total => rw [total_sortFailures, total_ofOutcomes]
  case generated => exact congrArg Summary.generated (ofOutcomes_eq outcomes)
  case skipped => exact congrArg Summary.skipped (ofOutcomes_eq outcomes)
  case failures =>
    rw [← hfailures]
    exact List.mergeSort_perm _ _
  case ascending =>
    exact List.pairwise_mergeSort (fun a b c => Path.le_trans a.path b.path c.path)
      (fun a b => Path.le_total a.path b.path) _
  case stable =>
    intro p
    rw [← hfailures]
    exact Path.filter_parts_mergeSort UnitError.path _ p

/-- Each source of a run comes to the outcome of processing it. -/
theorem forall₂_outcomes (t : FileTree) (r : Resolved) (units : List Path) (dryRun : Bool) :
    List.Forall₂ (fun source outcome =>
        ∃ t', outcome = (processUnit r r.writePolicy dryRun t' source).outcome)
      units (execute t r units dryRun).outcomes := by
  show List.Forall₂ _ units ((processAll r dryRun t units).2.map (·.1))
  induction units generalizing t with
  | nil => exact .nil
  | cons source units ih => exact .cons ⟨t, rfl⟩ (ih _)

/-- **The summary of a run accounts for every unit, in whatever shape it is put together.**  Every
reduction of the outcomes of some units comes to the same summary, the numbers of tests generated
and kept and the errors in order; sorted, it accounts for all of them.  The summary of a run over
any units is that of every reduction of their outcomes, one for each unit. -/
theorem summary_of_reduction :
    (∀ (outcomes : List Outcome) (shape : Reduction outcomes),
        shape.combine = ⟨outcomes.countP Outcome.isGenerated, outcomes.countP Outcome.isSkipped,
          errors outcomes⟩
        ∧ shape.combine.sortFailures.Accounts outcomes)
      ∧ ∀ (t : FileTree) (r : Resolved) (units : List Path) (dryRun : Bool),
        List.Forall₂ (fun source outcome =>
            ∃ t', outcome = (processUnit r r.writePolicy dryRun t' source).outcome)
          units (execute t r units dryRun).outcomes
        ∧ (∀ shape : Reduction (execute t r units dryRun).outcomes,
            (execute t r units dryRun).summary = shape.combine.sortFailures)
        ∧ (execute t r units dryRun).summary.Accounts (execute t r units dryRun).outcomes
        ∧ (execute t r units dryRun).summary.total = units.length := by
  refine ⟨fun outcomes shape => ?_, fun t r units dryRun => ?_⟩
  · rw [shape.combine_eq]
    refine ⟨?_, Summary.accounts_sortFailures outcomes⟩
    rw [Summary.ofOutcomes_eq, Summary.flatMap_failures]
  · refine ⟨forall₂_outcomes t r units dryRun, fun shape => ?_, ?_, total_summary⟩
    · rw [shape.combine_eq]
      rfl
    · exact Summary.accounts_sortFailures _

end Scaffold

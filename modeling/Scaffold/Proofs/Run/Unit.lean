/-
Scaffold/Proofs/Run/Unit.lean

What processing one source can do.

A source is skipped, or cannot be read, or has a document
(`processUnit_of_kept`, `processUnit_of_unread`, `processUnit_of_read`), and a
document is written by replacing a file once the directories above it are there
(`writeDocument_eq`).

`UnitStep` lists the five ways in which a source can be processed, with
everything each of them does to the tree: it is skipped, it cannot be read,
the directories for its test cannot be made, its test cannot be written, or
its test is generated.  `processUnit_step` says that there is no other way;
what a run needs to know about a unit is read off the list
(`UnitStep.frame`).
-/
import Scaffold.Proofs.FileTree.Change
import Scaffold.Proofs.Run.Discovery

namespace Scaffold

open FileTree

/-! ### Writing a document -/

/-- A tree once the directories above a path are made, as far as they can be. -/
def FileTree.withParents (t : FileTree) (p : Path) : FileTree :=
  match p.parent with
  | none => t
  | some above => (t.makeDirectories above).1

theorem withParents_adds {t : FileTree} (hlink : t.LinkFree) (p : Path) :
    t.AddsDirectories (t.withParents p) := by
  rw [withParents]
  split
  · exact .refl t
  · exact makeDirectories_adds hlink _

/-- A document is written by replacing a file, unless the directories above it cannot be made. -/
theorem writeDocument_eq (t : FileTree) (p : Path) (text : String) :
    (∃ above cause, writeDocument t p text
        = (t.withParents p, .error (.makeDirectory above cause)))
      ∨ writeDocument t p text = replaceFile (t.withParents p) p text.toUTF8 := by
  rw [writeDocument, withParents]
  rcases p.parent with - | above
  · exact .inr rfl
  · simp only
    rcases t.makeDirectories above with ⟨t', cause | ⟨⟩⟩
    · exact .inl ⟨above, cause, rfl⟩
    · exact .inr rfl

/-! ### Processing a source -/

/-- The bytes of the test of a source with a given text. -/
def documentOf (r : Resolved) (source : Path) (text : String) : ByteArray :=
  (document r.framework (extract text) (importPath (targetOf r source) source)
    (String.ofList (source.stem.getD []))).toUTF8

/-- What stands beside the test of a source while it is written. -/
abbrev temporaryOf (r : Resolved) (source : Path) : Path := temporaryPath (targetOf r source)

/-- The ways in which a source can be processed: the tree it leaves, and the outcome. -/
inductive UnitStep (r : Resolved) (policy : WritePolicy) (t : FileTree) (source : Path) :
    FileTree → Outcome → Prop
  | skipped (hpolicy : policy = .skipExisting) (hexists : t.exists? (targetOf r source) = true) :
      UnitStep r policy t source t (.skipped source (targetOf r source))
  | unread (cause : IoError) : UnitStep r policy t source t (.failed (.read source cause))
  | noDirectory {t' : FileTree} (above : Path) (cause : IoError) (hadd : t.AddsDirectories t') :
      UnitStep r policy t source t' (.failed (.makeDirectory above cause))
  | unwritten {t₁ t' : FileTree} (cause : IoError) (hadd : t.AddsDirectories t₁)
      (hlose : t₁.AtMostLoses t' (temporaryOf r source).place) :
      UnitStep r policy t source t' (.failed (.write (targetOf r source) cause))
  | generated {t₁ t' : FileTree} {text : String} (hread : t.readText source = .ok text)
      (hadd : t.AddsDirectories t₁)
      (hview : ∀ q, t'.get? q
        = if q = (targetOf r source).place then some (.file (documentOf r source text))
          else if q = (temporaryOf r source).place then none else t₁.get? q)
      (htarget : t₁.get? (targetOf r source).place ≠ some .directory)
      (htemporary : t₁.get? (temporaryOf r source).place ≠ some .directory)
      (hentry : t'.entryAt? (targetOf r source) = some (.file (documentOf r source text))) :
      UnitStep r policy t source t' (.generated source (targetOf r source))

/-- The outcome of writing a document. -/
def writeOutcome (source target : Path) : Except UnitError Unit → Outcome
  | .ok () => .generated source target
  | .error e => .failed e

section Step

variable {r : Resolved} {policy : WritePolicy} {t t' : FileTree} {source : Path} {o : Outcome}

/-- Where a test is kept, a source is skipped. -/
theorem processUnit_of_kept
    (hkept : policy = .skipExisting ∧ t.exists? (targetOf r source) = true) (dryRun : Bool) :
    (processUnit r policy dryRun t source).tree = t
      ∧ (processUnit r policy dryRun t source).outcome = .skipped source (targetOf r source) := by
  rw [processUnit, if_pos hkept]
  exact ⟨rfl, rfl⟩

theorem processUnit_of_unread {cause : IoError}
    (hkept : ¬ (policy = .skipExisting ∧ t.exists? (targetOf r source) = true))
    (hread : t.readText source = .error cause) (dryRun : Bool) :
    (processUnit r policy dryRun t source).tree = t
      ∧ (processUnit r policy dryRun t source).outcome = .failed (.read source cause) := by
  rw [processUnit, if_neg hkept, renderUnit, analyzeFile, hread]
  exact ⟨rfl, rfl⟩

/-- A source that is read has a document, which is written if the run is not dry. -/
theorem processUnit_of_read {text : String}
    (hkept : ¬ (policy = .skipExisting ∧ t.exists? (targetOf r source) = true))
    (hread : t.readText source = .ok text) :
    ∃ doc : String, doc.toUTF8 = documentOf r source text
      ∧ ((processUnit r policy true t source).tree = t
        ∧ (processUnit r policy true t source).outcome = .generated source (targetOf r source))
      ∧ (processUnit r policy false t source).tree = (writeDocument t (targetOf r source) doc).1
      ∧ (processUnit r policy false t source).outcome
        = writeOutcome source (targetOf r source)
          (writeDocument t (targetOf r source) doc).2 := by
  refine ⟨_, rfl, ?_⟩
  rw [processUnit, processUnit, if_neg hkept, if_neg hkept, renderUnit, analyzeFile, hread]
  refine ⟨⟨rfl, rfl⟩, ?_⟩
  simp only [Bool.false_eq_true, if_false]
  rcases writeDocument t (targetOf r source) _ with ⟨t', e | ⟨⟩⟩
  · exact ⟨rfl, rfl⟩
  · exact ⟨rfl, rfl⟩

/-- A dry run leaves the tree alone. -/
theorem processUnit_dry_tree (r : Resolved) (policy : WritePolicy) (t : FileTree) (source : Path) :
    (processUnit r policy true t source).tree = t := by
  by_cases hkept : policy = .skipExisting ∧ t.exists? (targetOf r source) = true
  · exact (processUnit_of_kept hkept true).1
  · rcases hread : t.readText source with cause | text
    · exact (processUnit_of_unread hkept hread true).1
    · obtain ⟨-, -, ⟨htree, -⟩, -⟩ := processUnit_of_read hkept hread
      exact htree

/-- **A source is processed in one of the five ways.** -/
theorem processUnit_step (hlink : t.LinkFree)
    (hne : (targetOf r source).place ≠ (temporaryOf r source).place) :
    UnitStep r policy t source (processUnit r policy false t source).tree
      (processUnit r policy false t source).outcome := by
  by_cases hkept : policy = .skipExisting ∧ t.exists? (targetOf r source) = true
  · -- a test is there already
    obtain ⟨htree, houtcome⟩ := processUnit_of_kept hkept false
    rw [htree, houtcome]
    exact .skipped hkept.1 hkept.2
  · rcases hread : t.readText source with cause | text
    · -- the source is not read
      obtain ⟨htree, houtcome⟩ := processUnit_of_unread hkept hread false
      rw [htree, houtcome]
      exact .unread cause
    · -- the source is read
      obtain ⟨doc, hdoc, -, htree, houtcome⟩ := processUnit_of_read hkept hread
      rw [htree, houtcome]
      have hadd := withParents_adds hlink (targetOf r source)
      have hlink₁ := hadd.linkFree hlink
      rcases writeDocument_eq t (targetOf r source) doc with ⟨above, cause, hwrite⟩ | hwrite
      · -- a directory above is missing
        rw [hwrite]
        exact .noDirectory above cause hadd
      · rw [hwrite]
        rcases hreplace : replaceFile (t.withParents (targetOf r source)) (targetOf r source)
          doc.toUTF8 with ⟨t', e | ⟨⟩⟩
        · -- the file is not replaced
          obtain ⟨hlose, cause, rfl⟩ := replaceFile_error hlink₁ hreplace
          exact .unwritten cause hadd hlose
        · -- the document is written
          obtain ⟨hview, htarget, htemporary, hentry⟩ := replaceFile_ok hlink₁ hne hreplace
          rw [hdoc] at hview hentry
          exact .generated hread hadd hview htarget htemporary hentry

/-- **What processing a source leaves of an entry**: the entry as it was, a directory where nothing
stood, nothing where the temporary file was, or the new test. -/
theorem UnitStep.frame (h : UnitStep r policy t source t' o) (q : Place) :
    t'.get? q = t.get? q
      ∨ t.get? q = none ∧ t'.get? q = some .directory
      ∨ t.get? q ≠ some .directory ∧ q = (temporaryOf r source).place ∧ t'.get? q = none
      ∨ t.get? q ≠ some .directory ∧ q = (targetOf r source).place
        ∧ o = .generated source (targetOf r source) := by
  cases h with
  | skipped hpolicy hexists => exact .inl rfl
  | unread cause => exact .inl rfl
  | noDirectory above cause hadd =>
    rcases hadd q with h | h
    · exact .inl h
    · exact .inr (.inl h)
  | unwritten cause hadd hlose =>
    rcases hlose q with h | ⟨hq, hnone, hdir⟩
    · rw [h]
      rcases hadd q with h | h
      · exact .inl h
      · exact .inr (.inl h)
    · exact .inr (.inr (.inl ⟨fun h => hdir (hadd.keeps q h), hq, hnone⟩))
  | generated hread hadd hview htarget htemporary hentry =>
    rw [hview q]
    split_ifs with hq hq'
    · -- the target
      exact .inr (.inr (.inr ⟨fun h => htarget (hq ▸ hadd.keeps q h), hq, rfl⟩))
    · -- the temporary path
      exact .inr (.inr (.inl ⟨fun h => htemporary (hq' ▸ hadd.keeps q h), hq', rfl⟩))
    · -- any other place
      rcases hadd q with h | h
      · exact .inl h
      · exact .inr (.inl h)

theorem UnitStep.keeps (h : UnitStep r policy t source t' o) : t.KeepsDirectories t' := by
  intro q hdir
  rcases h.frame q with h | ⟨h, -⟩ | ⟨h, -⟩ | ⟨h, -⟩
  · exact h.trans hdir
  · rw [hdir] at h
    cases h
  · exact absurd hdir h
  · exact absurd hdir h

theorem UnitStep.linkFree (h : UnitStep r policy t source t' o) (hlink : t.LinkFree) :
    t'.LinkFree := by
  intro q target htarget
  cases h with
  | skipped hpolicy hexists => exact hlink q target htarget
  | unread cause => exact hlink q target htarget
  | noDirectory above cause hadd => exact hadd.linkFree hlink q target htarget
  | unwritten cause hadd hlose => exact hlose.linkFree (hadd.linkFree hlink) q target htarget
  | generated hread hadd hview htarget' htemporary hentry =>
    rw [hview q] at htarget
    split_ifs at htarget
    · cases htarget
    · exact hadd.linkFree hlink q target htarget

/-! ### What an outcome tells -/

theorem UnitStep.of_generated (h : UnitStep r policy t source t' o)
    (ho : o = .generated source (targetOf r source)) :
    ∃ text, t.readText source = .ok text
      ∧ t'.entryAt? (targetOf r source) = some (.file (documentOf r source text)) := by
  cases h with
  | generated hread hadd hview htarget htemporary hentry => exact ⟨_, hread, hentry⟩
  | _ => cases ho

theorem UnitStep.of_skipped (h : UnitStep r policy t source t' o)
    (ho : o = .skipped source (targetOf r source)) :
    policy = .skipExisting ∧ t.exists? (targetOf r source) = true := by
  cases h with
  | skipped hpolicy hexists => exact ⟨hpolicy, hexists⟩
  | _ => cases ho

theorem UnitStep.outcome_cases (h : UnitStep r policy t source t' o) :
    o = .generated source (targetOf r source) ∨ o = .skipped source (targetOf r source)
      ∨ ∃ e, o = .failed e := by
  cases h with
  | skipped hpolicy hexists => exact .inr (.inl rfl)
  | unread cause => exact .inr (.inr ⟨_, rfl⟩)
  | noDirectory above cause hadd => exact .inr (.inr ⟨_, rfl⟩)
  | unwritten cause hadd hlose => exact .inr (.inr ⟨_, rfl⟩)
  | generated hread hadd hview htarget htemporary hentry => exact .inl rfl

end Step

end Scaffold

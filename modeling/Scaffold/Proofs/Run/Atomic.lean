/-
Scaffold/Proofs/Run/Atomic.lean

Processing one source is all or nothing.

A test is written beside its place first, and moved there when it is complete.  So
the entry at its place is the one that stood there, or the complete document; and
when the document cannot be written, what was written of it is taken away again
(`isFile_temporaryPath`).  Before that only directories are made, and these not where
something stands.

Where nothing stands a directory can be made at the place of the test itself, on the
way to it: a path that climbs out of a directory can lead back to that directory
(`LeavesTarget`).  Every other path leads below all that is made for it.

A dry run does the same up to the point where a document is there to be written
(`processUnit_cases`).  `processUnit_atomic` puts all of this together.
-/
import Scaffold.Proofs.FileTree.Places
import Scaffold.Proofs.Run.Unit

namespace Scaffold

open FileTree

/-! ### Failing to replace a file -/

section Replace

variable {t t' : FileTree} {p : Path}

/-- Where a file is removed if it can be, none is left. -/
theorem isFile_removed (hlink : t.LinkFree) (p : Path) :
    (match t.removeFile p with
      | .ok t' => t'
      | .error _ => t).isFile p = false := by
  rcases hremove : t.removeFile p with cause | t'
  · -- a file there could have been removed
    show t.isFile p = false
    rw [isFile]
    rcases hentry : t.entryAt? p with - | ⟨contents | - | target⟩
    · rfl
    · obtain ⟨hp, hopens, hget⟩ := (entryAt?_eq_some hlink).mp hentry
      rw [removeFile_of_opens hlink hp hopens hget] at hremove
      cases hremove
    · rfl
    · rfl
  · obtain ⟨rfl, hdir⟩ := removeFile_ok hlink hremove
    have hlink' := (erase_atMostLoses hdir).linkFree hlink
    show (t.erase p.place).isFile p = false
    rw [isFile]
    rcases hentry : (t.erase p.place).entryAt? p with - | e
    · rfl
    · obtain ⟨-, -, hget⟩ := (entryAt?_eq_some hlink').mp hentry
      rw [get?_erase _ _ _ (ne_root_of_get? hdir), if_pos rfl] at hget
      cases hget

/-- **No temporary file is left where writing fails.** -/
theorem isFile_temporaryPath (hlink : t.LinkFree) {contents : ByteArray} {e : UnitError}
    (h : replaceFile t p contents = (t', .error e)) : t'.isFile (temporaryPath p) = false := by
  rw [replaceFile] at h
  split at h
  · obtain ⟨rfl, -⟩ := Prod.mk.inj h
    exact isFile_removed hlink (temporaryPath p)
  · next t₁ hwrite =>
    obtain ⟨rfl, hdir, -, -⟩ := writeFile_ok hlink hwrite
    split at h
    · obtain ⟨rfl, -⟩ := Prod.mk.inj h
      exact isFile_removed (put_linkFree (ne_root_of_get? hdir) hlink) (temporaryPath p)
    · cases h

end Replace

/-! ### Failing to write a document -/

/-- Where a path leads stands what stood there.  Where nothing stood nothing stands, but for a
directory, if the path climbs. -/
def LeavesTarget (t t' : FileTree) (p : Path) : Prop :=
  t'.get? p.place = t.get? p.place
    ∨ p.Climbs ∧ t.get? p.place = none ∧ t'.get? p.place = some .directory

section Write

variable {t t' : FileTree} {p : Path} {e : UnitError}

/-- What a path leads to it leads to still. -/
theorem LeavesTarget.entryAt? (h : LeavesTarget t t' p) (hlink : t.LinkFree) (hlink' : t'.LinkFree)
    (hkeep : t.KeepsDirectories t') {e : Entry} (he : t.entryAt? p = some e) :
    t'.entryAt? p = some e := by
  obtain ⟨-, -, hget⟩ := (entryAt?_eq_some hlink).mp he
  refine entryAt?_mono hlink hlink' hkeep he ?_
  rcases h with h | ⟨-, hnone, -⟩
  · rw [h, hget]
  · rw [hnone] at hget
    cases hget

/-- Where directories are made above a path its target is left. -/
theorem leavesTarget_makeDirectories (hlink : t.LinkFree) {above : Path}
    (hparent : p.parent = some above) : LeavesTarget t (t.makeDirectories above).1 p := by
  rcases makeDirectories_adds hlink above p.place with h | ⟨hnone, hdir⟩
  · exact .inl h
  · refine .inr ⟨by_contra fun hclimb => ?_, hnone, hdir⟩
    -- the place is one of those that directories are made at, and not the root
    rcases makeDirectories_made hlink above p.place with h | ⟨q, hq, hplace⟩
    · rw [h, hnone] at hdir
      cases hdir
    · rcases hname : p.fileName with - | name
      · rw [Path.place_of_no_fileName hname hclimb] at hnone
        cases hnone
      · obtain ⟨dir, hdir, -, hparts, -⟩ := Path.place_parent hname
        obtain rfl := Option.some.inj (hparent.symm.trans hdir)
        exact Path.place_ne_of_isPrefix hclimb hparts hq hplace.symm

theorem leavesTarget_withParents (hlink : t.LinkFree) (p : Path) :
    LeavesTarget t (t.withParents p) p := by
  rw [withParents]
  split
  · exact .inl rfl
  · next hparent => exact leavesTarget_makeDirectories hlink hparent

/-- Where a document cannot be put in its place the target is left, and no temporary file. -/
theorem leavesTarget_replaceFile (hlink : t.LinkFree) {t₁ : FileTree} (hadd : t.AddsDirectories t₁)
    (hleave : LeavesTarget t t₁ p) {contents : ByteArray}
    (h : replaceFile t₁ p contents = (t', .error e)) :
    LeavesTarget t t' p ∧ (∀ e, t.entryAt? p = some e → t'.entryAt? p = some e)
      ∧ t'.isFile (temporaryPath p) = false := by
  have hlink₁ := hadd.linkFree hlink
  obtain ⟨hlose, -⟩ := replaceFile_error hlink₁ h
  have hsame : t'.get? p.place = t₁.get? p.place :=
    (hlose p.place).resolve_right fun h => Path.place_temporaryPath_ne p h.1
  have hleave' : LeavesTarget t t' p := by
    rw [LeavesTarget, hsame]
    exact hleave
  exact ⟨hleave', fun e => hleave'.entryAt? hlink (hlose.linkFree hlink₁)
    (hadd.keeps.trans hlose.keeps), isFile_temporaryPath hlink₁ h⟩

/-- **What writing a document comes to**: it is written, a directory above it cannot be made, or it
cannot be put in its place, which is left as it was, with no temporary file beside it. -/
theorem writeDocument_cases (hlink : t.LinkFree) (p : Path) (text : String) :
    (writeDocument t p text).2 = .ok ()
      ∨ (∃ above cause, (writeDocument t p text).2 = .error (.makeDirectory above cause))
      ∨ ∃ cause, (writeDocument t p text).2 = .error (.write p cause)
        ∧ LeavesTarget t (writeDocument t p text).1 p
        ∧ (∀ e, t.entryAt? p = some e → (writeDocument t p text).1.entryAt? p = some e)
        ∧ (writeDocument t p text).1.isFile (temporaryPath p) = false := by
  have hadd := withParents_adds hlink p
  rcases writeDocument_eq t p text with ⟨above, cause, hwrite⟩ | hwrite
  · -- a directory above is missing
    exact .inr (.inl ⟨above, cause, by rw [hwrite]⟩)
  · -- the directories are there
    rw [hwrite]
    rcases h : replaceFile (t.withParents p) p text.toUTF8 with ⟨t', e | ⟨⟩⟩
    · obtain ⟨-, cause, rfl⟩ := replaceFile_error (hadd.linkFree hlink) h
      have hleave := leavesTarget_withParents hlink p
      exact .inr (.inr ⟨cause, rfl, leavesTarget_replaceFile hlink hadd hleave h⟩)
    · exact .inl rfl

end Write

/-! ### Dry runs -/

section Unit

variable (r : Resolved) (policy : WritePolicy) (t : FileTree) (source : Path)

/-- **A dry run is a run up to the document**: there is none, and nothing happens, or the document
is written if the run is not dry. -/
theorem processUnit_cases :
    (∃ o, (o = .skipped source (targetOf r source) ∨ ∃ cause, o = .failed (.read source cause))
        ∧ ∀ dryRun, (processUnit r policy dryRun t source).tree = t
          ∧ (processUnit r policy dryRun t source).outcome = o)
      ∨ ∃ text, (processUnit r policy true t source).tree = t
        ∧ (processUnit r policy true t source).outcome = .generated source (targetOf r source)
        ∧ (processUnit r policy false t source).tree
          = (writeDocument t (targetOf r source) text).1
        ∧ (processUnit r policy false t source).outcome
          = writeOutcome source (targetOf r source)
            (writeDocument t (targetOf r source) text).2 := by
  by_cases hkept : policy = .skipExisting ∧ t.exists? (targetOf r source) = true
  · -- a test is there already
    exact .inl ⟨_, .inl rfl, processUnit_of_kept hkept⟩
  · rcases hread : t.readText source with cause | text
    · -- the source is not read
      exact .inl ⟨_, .inr ⟨cause, rfl⟩, processUnit_of_unread hkept hread⟩
    · -- the source is read, and its document written
      obtain ⟨doc, -, ⟨hdryTree, hdry⟩, htree, houtcome⟩ := processUnit_of_read hkept hread
      exact .inr ⟨doc, hdryTree, hdry, htree, houtcome⟩

end Unit

/-! ### All or nothing -/

/-- What a dry run and a run over one source do to a tree, and what they have in common. -/
structure IsAtomic (r : Resolved) (t : FileTree) (source : Path) (dry real : UnitResult) :
    Prop where
  dry_tree : dry.tree = t
  of_skipped : ∀ s d, real.outcome = .skipped s d → real.tree = t
  of_unread : ∀ path cause, real.outcome = .failed (.read path cause) → real.tree = t
  of_noDirectory : ∀ path cause, real.outcome = .failed (.makeDirectory path cause) →
    t.AddsDirectories real.tree
  of_unwritten : ∀ path cause, real.outcome = .failed (.write path cause) →
    LeavesTarget t real.tree (targetOf r source)
      ∧ (∀ e, t.entryAt? (targetOf r source) = some e →
        real.tree.entryAt? (targetOf r source) = some e)
      ∧ real.tree.isFile (temporaryOf r source) = false
      ∧ ∀ place, place ≠ (temporaryOf r source).place → real.tree.get? place = t.get? place
        ∨ t.get? place = none ∧ real.tree.get? place = some .directory
  of_generated : ∀ s d, real.outcome = .generated s d →
    ∃ text, t.readText source = .ok text
      ∧ real.tree.entryAt? (targetOf r source) = some (.file (documentOf r source text))
      ∧ real.tree.exists? (temporaryOf r source) = false
  skipped_alike : ∀ s d, dry.outcome = .skipped s d ↔ real.outcome = .skipped s d
  unread_alike : ∀ path cause,
    dry.outcome = .failed (.read path cause) ↔ real.outcome = .failed (.read path cause)
  generated_dry : ∀ s d, dry.outcome = .generated s d →
    real.outcome = .generated s d
      ∨ (∃ path cause, real.outcome = .failed (.makeDirectory path cause))
      ∨ ∃ path cause, real.outcome = .failed (.write path cause)

section Atomic

variable {r : Resolved} {policy : WritePolicy} {t t' : FileTree} {source : Path} {o : Outcome}

theorem UnitStep.addsDirectories (h : UnitStep r policy t source t' o) {path : Path}
    {cause : IoError} (ho : o = .failed (.makeDirectory path cause)) : t.AddsDirectories t' := by
  cases h with
  | noDirectory above cause hadd => exact hadd
  | _ => cases ho

/-- Where a document is not written only directories are added, but for the temporary file. -/
theorem UnitStep.addsDirectories_elsewhere (h : UnitStep r policy t source t' o) {path : Path}
    {cause : IoError} (ho : o = .failed (.write path cause)) :
    ∀ place, place ≠ (temporaryOf r source).place → t'.get? place = t.get? place
      ∨ t.get? place = none ∧ t'.get? place = some .directory := by
  cases h with
  | unwritten cause hadd hlose =>
    intro place hplace
    rw [(hlose place).resolve_right fun hlost => hplace hlost.1]
    exact hadd place
  | _ => cases ho

/-- Beside a generated test nothing is left. -/
theorem UnitStep.not_exists_temporary (h : UnitStep r policy t source t' o) (hlink' : t'.LinkFree)
    {s d : Path} (ho : o = .generated s d) : t'.exists? (temporaryOf r source) = false := by
  cases h with
  | generated hread hadd hview htarget htemporary hentry =>
    rw [exists?]
    rcases he : t'.entryAt? (temporaryOf r source) with - | e
    · rfl
    · obtain ⟨-, -, hget⟩ := (entryAt?_eq_some hlink').mp he
      rw [hview, if_neg (Path.place_temporaryPath_ne _).symm, if_pos rfl] at hget
      cases hget
  | _ => cases ho

theorem UnitStep.eq_of_generated (h : UnitStep r policy t source t' o) {s d : Path}
    (ho : o = .generated s d) : o = .generated source (targetOf r source) := by
  cases h with
  | generated hread hadd hview htarget htemporary hentry => rfl
  | _ => cases ho

variable {dry real : UnitResult}

/-- Where there is no document a dry run is a run. -/
theorem IsAtomic.of_no_document
    (ho : o = .skipped source (targetOf r source) ∨ ∃ cause, o = .failed (.read source cause))
    (hdry : dry.tree = t ∧ dry.outcome = o) (hreal : real.tree = t ∧ real.outcome = o) :
    IsAtomic r t source dry real := by
  have hmakes : ∀ path cause, real.outcome ≠ .failed (.makeDirectory path cause) := by
    rw [hreal.2]
    rcases ho with rfl | ⟨cause, rfl⟩ <;> simp
  have hwrites : ∀ path cause, real.outcome ≠ .failed (.write path cause) := by
    rw [hreal.2]
    rcases ho with rfl | ⟨cause, rfl⟩ <;> simp
  have hgenerates : ∀ s d, o ≠ .generated s d := by
    rcases ho with rfl | ⟨cause, rfl⟩ <;> simp
  constructor
  case dry_tree => exact hdry.1
  case of_skipped => exact fun _ _ _ => hreal.1
  case of_unread => exact fun _ _ _ => hreal.1
  case of_noDirectory => exact fun path cause h => absurd h (hmakes path cause)
  case of_unwritten => exact fun path cause h => absurd h (hwrites path cause)
  case of_generated => exact fun s d h => absurd (hreal.2.symm.trans h) (hgenerates s d)
  case skipped_alike => exact fun s d => by rw [hdry.2, hreal.2]
  case unread_alike => exact fun path cause => by rw [hdry.2, hreal.2]
  case generated_dry => exact fun s d h => absurd (hdry.2.symm.trans h) (hgenerates s d)

/-- Where there is a document only the run writes it. -/
theorem IsAtomic.of_document (hlink : t.LinkFree) {text : String}
    (hstep : UnitStep r policy t source real.tree real.outcome) (hdryTree : dry.tree = t)
    (hdry : dry.outcome = .generated source (targetOf r source))
    (htree : real.tree = (writeDocument t (targetOf r source) text).1)
    (hreal : real.outcome = writeOutcome source (targetOf r source)
      (writeDocument t (targetOf r source) text).2) : IsAtomic r t source dry real := by
  have hcases := writeDocument_cases hlink (targetOf r source) text
  rw [← htree] at hcases
  have hkind : real.outcome = .generated source (targetOf r source)
      ∨ (∃ path cause, real.outcome = .failed (.makeDirectory path cause))
      ∨ ∃ path cause, real.outcome = .failed (.write path cause) := by
    rw [hreal]
    rcases hcases with h | ⟨above, cause, h⟩ | ⟨cause, h, -⟩ <;> rw [h]
    · exact .inl rfl
    · exact .inr (.inl ⟨above, cause, rfl⟩)
    · exact .inr (.inr ⟨_, cause, rfl⟩)
  have hskips : ∀ s d, real.outcome ≠ .skipped s d := by
    rcases hkind with h | ⟨path, cause, h⟩ | ⟨path, cause, h⟩ <;> simp [h]
  have hreads : ∀ path cause, real.outcome ≠ .failed (.read path cause) := by
    rcases hkind with h | ⟨path, cause, h⟩ | ⟨path, cause, h⟩ <;> simp [h]
  constructor
  case dry_tree => exact hdryTree
  case of_skipped => exact fun s d h => absurd h (hskips s d)
  case of_unread => exact fun path cause h => absurd h (hreads path cause)
  case of_noDirectory => exact fun path cause h => hstep.addsDirectories h
  case of_unwritten =>
    intro path cause h
    have helsewhere := hstep.addsDirectories_elsewhere h
    rw [hreal] at h
    rcases hcases with hresult | ⟨above, cause', hresult⟩ | ⟨cause', -, hleave, hentry, hclean⟩
    · rw [hresult] at h
      cases h
    · rw [hresult] at h
      cases h
    · exact ⟨hleave, hentry, hclean, helsewhere⟩
  case of_generated =>
    intro s d h
    obtain ⟨text, hread, hentry⟩ := hstep.of_generated (hstep.eq_of_generated h)
    exact ⟨text, hread, hentry, hstep.not_exists_temporary (hstep.linkFree hlink) h⟩
  case skipped_alike => exact fun s d => iff_of_false (by simp [hdry]) (hskips s d)
  case unread_alike => exact fun path cause => iff_of_false (by simp [hdry]) (hreads path cause)
  case generated_dry =>
    intro s d h
    obtain ⟨rfl, rfl⟩ := Outcome.generated.inj (hdry.symm.trans h)
    exact hkind

end Atomic

/-- **A source is processed entirely or not at all.**  In a tree without links, whatever stands in
the way, a source leaves the tree as it was, or with more directories, or with the complete
document in its place and no temporary file; and a dry run differs from this only in that nothing
is made or written. -/
theorem processUnit_atomic (r : Resolved) (policy : WritePolicy) (t : FileTree) (source : Path)
    (hlink : t.LinkFree) :
    IsAtomic r t source (processUnit r policy true t source)
      (processUnit r policy false t source) := by
  rcases processUnit_cases r policy t source with ⟨o, ho, hsame⟩
    | ⟨text, hdryTree, hdry, htree, hreal⟩
  · exact .of_no_document ho (hsame true) (hsame false)
  · have hstep : UnitStep r policy t source _ _ :=
      processUnit_step hlink (Path.place_temporaryPath_ne (targetOf r source))
    exact .of_document hlink hstep hdryTree hdry htree hreal

/-! ### A directory in the way -/

/-- A source whose test, and the temporary file of it, are in the way. -/
def blockedTree : FileTree :=
  ⟨[(["src".toList], .directory),
    (["src".toList, "a.ts".toList], .file "export function f() \x7b\x7d".toUTF8),
    (["out".toList], .directory),
    (["out".toList, "a.test.ts".toList], .directory),
    (["out".toList, "a.test.ts.tmp".toList], .file "left over".toUTF8)], by decide⟩

/-- Settings for it. -/
def blockedSettings : Resolved :=
  ⟨.ofString "/src", .ofString "/out", none, ⟨[]⟩, .jest, false, true, none⟩

/-- A directory that stands in the place of a test stands there still, and an old temporary file
is gone. -/
theorem processUnit_atomic_blocked :
    blockedTree.LinkFree
      ∧ blockedTree.entryAt? (.ofString "/out/a.test.ts") = some .directory
      ∧ blockedTree.isFile (.ofString "/out/a.test.ts.tmp") = true
      ∧ (processUnit blockedSettings .overwrite false blockedTree (.ofString "/src/a.ts")).outcome
        = .failed (.write (.ofString "/out/a.test.ts") .isDirectory)
      ∧ (processUnit blockedSettings .overwrite false blockedTree
          (.ofString "/src/a.ts")).tree.entryAt? (.ofString "/out/a.test.ts") = some .directory
      ∧ (processUnit blockedSettings .overwrite false blockedTree
          (.ofString "/src/a.ts")).tree.isFile (.ofString "/out/a.test.ts.tmp") = false := by
  have hlink : blockedTree.LinkFree := by
    refine IsPlain.linkFree (isPlain_of_entries fun x hx => ?_)
    simp only [blockedTree, List.mem_cons, List.not_mem_nil, or_false] at hx
    rcases hx with rfl | rfl | rfl | rfl | rfl <;> exact ⟨by simp, by decide⟩
  have hthere : blockedTree.entryAt? (.ofString "/out/a.test.ts") = some .directory := by
    decide +kernel
  have hfailed : (processUnit blockedSettings .overwrite false blockedTree
      (.ofString "/src/a.ts")).outcome
        = .failed (.write (.ofString "/out/a.test.ts") .isDirectory) := by
    decide +kernel
  obtain ⟨-, hleft, hclean, -⟩ := (processUnit_atomic blockedSettings .overwrite blockedTree
    (.ofString "/src/a.ts") hlink).of_unwritten _ _ hfailed
  have htarget : targetOf blockedSettings (.ofString "/src/a.ts") = .ofString "/out/a.test.ts" := by
    decide +kernel
  have htemporary : temporaryOf blockedSettings (.ofString "/src/a.ts")
      = .ofString "/out/a.test.ts.tmp" := by
    decide +kernel
  rw [htarget] at hleft
  rw [htemporary] at hclean
  exact ⟨hlink, hthere, by decide +kernel, hfailed, hleft _ hthere, hclean⟩

end Scaffold

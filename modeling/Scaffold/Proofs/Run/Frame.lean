/-
Scaffold/Proofs/Run/Frame.lean

A run changes what it reports and nothing else.

A run takes its tree from unit to unit; `treeAt i` is the tree in which it
comes to unit number `i`.  What one unit does to an entry is known
(`UnitStep.frame`), and by induction over the units what several of them do:

* a file stays as it is while no unit has its test or its temporary file at
  the place (`file_between`);
* a file that was not there before is the test of a unit (`file_new`).

That the files of different units do not meet (`Apart`) makes these two into
the statement about a whole run, `run_changes_only_what_it_reports`.
-/
import Scaffold.Proofs.Run.Unit

namespace Scaffold

open FileTree

/-! ### The units of a run -/

section Units

variable (r : Resolved) (t : FileTree) (units : List Path)

/-- The tree in which a run comes to unit number `i`; behind the last unit, the tree it leaves. -/
def treeAt (i : Nat) : FileTree := (processAll r false t (units.take i)).1

/-- What a run reports of its units. -/
def outcomesOf : List Outcome := (processAll r false t units).2.map (·.1)

/-- Unit number `i` of a run is `source`, and its test is reported as generated. -/
def Generates (i : Nat) (source : Path) : Prop :=
  units[i]? = some source
    ∧ (outcomesOf r t units)[i]? = some (.generated source (targetOf r source))

/-- The files of units do not meet. -/
structure Apart : Prop where
  target_ne_temporary : ∀ s ∈ units, ∀ s' ∈ units, (targetOf r s).place ≠ (temporaryOf r s').place
  target_ne_source : ∀ s ∈ units, ∀ s' ∈ units, (targetOf r s).place ≠ s'.place
  temporary_ne_source : ∀ s ∈ units, ∀ s' ∈ units, (temporaryOf r s).place ≠ s'.place
  target_injective : ∀ s ∈ units, ∀ s' ∈ units,
    (targetOf r s).place = (targetOf r s').place → s = s'

end Units

/-- The files of discovered sources do not meet. -/
theorem apart_discoverSources {t : FileTree} {r : Resolved} (hplain : t.IsPlain)
    (hroot : t.isDirectory r.srcRoot = true) : Apart r (discoverSources t r) := by
  have hplanned := fun s (hs : s ∈ discoverSources t r) => plannedAs_of_mem hplain hroot hs
  refine ⟨?_, ?_, ?_, ?_⟩
  all_goals
    intro s hs s' hs'
    obtain ⟨dirs, n, stem, ext, h⟩ := hplanned s hs
    obtain ⟨dirs', n', stem', ext', h'⟩ := hplanned s' hs'
  · exact (h'.temporary_ne_target h).symm
  · exact h.target_ne_source h'
  · exact h.temporary_ne_source h'
  · exact h.target_injective h'

section Run

variable {r : Resolved} {t : FileTree} {units : List Path} {i j : Nat} {source : Path} {q : Place}
  {contents : ByteArray}

theorem treeAt_of_le (h : units.length ≤ i) :
    treeAt r t units i = (processAll r false t units).1 := by
  rw [treeAt, List.take_of_length_le h]

theorem treeAt_cons_succ (s : Path) (units : List Path) (i : Nat) :
    treeAt r t (s :: units) (i + 1)
      = treeAt r (processUnit r r.writePolicy false t s).tree units i := rfl

theorem outcomesOf_cons (s : Path) (units : List Path) :
    outcomesOf r t (s :: units)
      = (processUnit r r.writePolicy false t s).outcome
        :: outcomesOf r (processUnit r r.writePolicy false t s).tree units := rfl

theorem length_outcomesOf : (outcomesOf r t units).length = units.length := by
  induction units generalizing t with
  | nil => rfl
  | cons s units ih => rw [outcomesOf_cons, List.length_cons, List.length_cons, ih]

/-- **Each unit of a run is processed in the tree the one before left.** -/
theorem step_at (hlink : t.LinkFree) (hapart : Apart r units) (hi : units[i]? = some source) :
    ∃ o, (outcomesOf r t units)[i]? = some o
      ∧ UnitStep r r.writePolicy (treeAt r t units i) source (treeAt r t units (i + 1)) o := by
  have hne : ∀ s ∈ units, (targetOf r s).place ≠ (temporaryOf r s).place :=
    fun s hs => hapart.target_ne_temporary s hs s hs
  clear hapart
  induction units generalizing t i with
  | nil => simp at hi
  | cons s units ih =>
    have hstep : UnitStep r r.writePolicy t s _ _ :=
      processUnit_step hlink (hne s List.mem_cons_self)
    rw [outcomesOf_cons]
    cases i with
    | zero =>
      obtain rfl : s = source := by simpa using hi
      exact ⟨_, rfl, hstep⟩
    | succ i =>
      rw [List.getElem?_cons_succ] at hi ⊢
      rw [treeAt_cons_succ, treeAt_cons_succ]
      exact ih (hstep.linkFree hlink) hi (fun s' hs' => hne s' (List.mem_cons_of_mem _ hs'))

/-- Behind the last unit nothing happens. -/
theorem treeAt_succ_of_none (hi : units[i]? = none) :
    treeAt r t units (i + 1) = treeAt r t units i := by
  have hle : units.length ≤ i := List.getElem?_eq_none_iff.mp hi
  rw [treeAt_of_le hle, treeAt_of_le (Nat.le_succ_of_le hle)]

/-- A unit is passed, or all units are behind. -/
theorem treeAt_succ_cases (hlink : t.LinkFree) (hapart : Apart r units) (i : Nat) :
    treeAt r t units (i + 1) = treeAt r t units i
      ∨ ∃ s o, units[i]? = some s ∧ (outcomesOf r t units)[i]? = some o
        ∧ UnitStep r r.writePolicy (treeAt r t units i) s (treeAt r t units (i + 1)) o := by
  rcases hi : units[i]? with - | s
  · exact .inl (treeAt_succ_of_none hi)
  · obtain ⟨o, ho, hstep⟩ := step_at hlink hapart hi
    exact .inr ⟨s, o, rfl, ho, hstep⟩

/-! ### Several units -/

theorem linkFree_treeAt (hlink : t.LinkFree) (hapart : Apart r units) (i : Nat) :
    (treeAt r t units i).LinkFree := by
  induction i with
  | zero => exact hlink
  | succ i ih =>
    rcases treeAt_succ_cases hlink hapart i with h | ⟨s, o, -, -, hstep⟩
    · rw [h]
      exact ih
    · exact hstep.linkFree ih

theorem keeps_between (hlink : t.LinkFree) (hapart : Apart r units) (hij : i ≤ j) :
    (treeAt r t units i).KeepsDirectories (treeAt r t units j) := by
  induction j, hij using Nat.le_induction with
  | base => exact .refl _
  | succ j hij ih =>
    rcases treeAt_succ_cases hlink hapart j with h | ⟨s, o, -, -, hstep⟩
    · rw [h]
      exact ih
    · exact ih.trans hstep.keeps

/-- **A file stays as it is** while no unit generates its test there and none has its temporary
file there. -/
theorem file_between (hlink : t.LinkFree) (hapart : Apart r units) (hij : i ≤ j)
    (hfile : (treeAt r t units i).get? q = some (.file contents))
    (htarget : ∀ k s, i ≤ k → Generates r t units k s → q ≠ (targetOf r s).place)
    (htemporary : ∀ s ∈ units, q ≠ (temporaryOf r s).place) :
    (treeAt r t units j).get? q = some (.file contents) := by
  induction j, hij using Nat.le_induction with
  | base => exact hfile
  | succ j hij ih =>
    rcases treeAt_succ_cases hlink hapart j with h | ⟨s, o, hs, ho, hstep⟩
    · -- past the last unit nothing changes
      rw [h]
      exact ih
    · rcases hstep.frame q with h | ⟨h, -⟩ | ⟨-, h, -⟩ | ⟨-, h, rfl⟩
      · rw [h]
        exact ih
      · -- no directory is made where a file stands
        rw [ih] at h
        cases h
      · -- no temporary path is that of a file which is kept
        exact absurd h (htemporary s (List.mem_of_getElem? hs))
      · -- nor is the target of a unit that is generated
        exact absurd h (htarget j s hij ⟨hs, ho⟩)

/-- **A file that is new is the test of a unit.** -/
theorem file_new (hlink : t.LinkFree) (hapart : Apart r units) (i : Nat)
    (hfile : (treeAt r t units i).get? q = some (.file contents)) :
    t.get? q = some (.file contents)
      ∨ ∃ k s, Generates r t units k s ∧ q = (targetOf r s).place := by
  induction i with
  | zero => exact .inl hfile
  | succ i ih =>
    rcases treeAt_succ_cases hlink hapart i with h | ⟨s, o, hs, ho, hstep⟩
    · exact ih (h ▸ hfile)
    · rcases hstep.frame q with h | ⟨-, h⟩ | ⟨-, -, h⟩ | ⟨-, h, rfl⟩
      · exact ih (h ▸ hfile)
      · -- what is new here is a directory
        rw [hfile] at h
        cases h
      · -- a temporary file is gone afterwards
        rw [hfile] at h
        cases h
      · -- the target of this unit
        exact .inr ⟨i, s, ⟨hs, ho⟩, h⟩

/-- What stands at a place was there before, or it is a directory, or the test of a unit. -/
theorem entry_before (hlink : t.LinkFree) (hapart : Apart r units) (i : Nat) {e : Entry}
    (he : (treeAt r t units i).get? q = some e) :
    (t.get? q).isSome ∨ e = .directory ∨ ∃ k s, k < i ∧ Generates r t units k s
      ∧ q = (targetOf r s).place := by
  induction i with
  | zero => exact .inl (by rw [show t.get? q = some e from he]; rfl)
  | succ i ih =>
    have hlater : ((t.get? q).isSome ∨ e = .directory ∨ ∃ k s, k < i ∧ Generates r t units k s
          ∧ q = (targetOf r s).place) →
        (t.get? q).isSome ∨ e = .directory ∨ ∃ k s, k < i + 1 ∧ Generates r t units k s
          ∧ q = (targetOf r s).place := by
      rintro (h | h | ⟨k, s, hk, h⟩)
      · exact .inl h
      · exact .inr (.inl h)
      · exact .inr (.inr ⟨k, s, Nat.lt_succ_of_lt hk, h⟩)
    rcases treeAt_succ_cases hlink hapart i with h | ⟨s, o, hs, ho, hstep⟩
    · -- past the last unit nothing changes
      exact hlater (ih (h ▸ he))
    · rcases hstep.frame q with h | ⟨-, h⟩ | ⟨-, -, h⟩ | ⟨-, h, rfl⟩
      · exact hlater (ih (h ▸ he))
      · -- a directory made on the way
        rw [he] at h
        exact .inr (.inl (Option.some.inj h))
      · -- a temporary file is gone afterwards
        rw [he] at h
        cases h
      · -- the target of this unit
        exact .inr (.inr ⟨i, s, Nat.lt_succ_self i, ⟨hs, ho⟩, h⟩)

end Run

/-! ### A whole run -/

/-- What a run from `t` reports of its units, and what it leaves of the tree. -/
structure ChangesOnlyWhatItReports (t : FileTree) (r : Resolved) (units : List Path)
    (res : RunResult) : Prop where
  length_eq : res.outcomes.length = units.length
  /-- Every unit is reported as generated, as skipped, or as failed. -/
  outcome : ∀ (i : Nat) source, units[i]? = some source →
    res.outcomes[i]? = some (Outcome.generated source (targetOf r source))
      ∨ res.outcomes[i]? = some (Outcome.skipped source (targetOf r source))
      ∨ ∃ e, res.outcomes[i]? = some (Outcome.failed e)
  /-- The destination of a generated unit holds the document of its text before the run. -/
  generated : ∀ (i : Nat) source, units[i]? = some source →
    res.outcomes[i]? = some (Outcome.generated source (targetOf r source)) →
    ∃ text, t.readText source = .ok text
      ∧ res.tree.entryAt? (targetOf r source) = some (.file (documentOf r source text))
  /-- Every unit keeps its own bytes. -/
  source : ∀ source ∈ units, res.tree.entryAt? source = t.entryAt? source
    ∧ ∃ contents, t.get? source.place = some (.file contents)
      ∧ res.tree.get? source.place = some (.file contents)
  /-- A unit is skipped only where existing tests are kept and when something is at its destination:
  something that was there before the run, or a directory the run has made. -/
  skipped : ∀ (i : Nat) source, units[i]? = some source →
    res.outcomes[i]? = some (Outcome.skipped source (targetOf r source)) →
    r.writePolicy = .skipExisting ∧ (treeAt r t units i).exists? (targetOf r source) = true
      ∧ ((t.get? (targetOf r source).place).isSome
        ∨ (treeAt r t units i).get? (targetOf r source).place = some .directory)
  /-- A file at the destination of a unit that is not generated keeps its bytes. -/
  destination : ∀ (i : Nat) source contents, units[i]? = some source →
    res.outcomes[i]? ≠ some (Outcome.generated source (targetOf r source)) →
    t.get? (targetOf r source).place = some (.file contents) →
    res.tree.get? (targetOf r source).place = some (.file contents)
  /-- Every other file keeps its bytes, unless it is in the way of a temporary file. -/
  others : ∀ place contents, t.get? place = some (.file contents) →
    (∀ source ∈ units, place ≠ (targetOf r source).place) →
    (∀ source ∈ units, place ≠ (temporaryOf r source).place) →
    res.tree.get? place = some (.file contents)
  /-- Every file that is new is at the destination of a generated unit. -/
  new : ∀ place contents, res.tree.get? place = some (.file contents) →
    (∀ old, t.get? place ≠ some (.file old)) →
    ∃ (i : Nat) (source : Path), units[i]? = some source
      ∧ res.outcomes[i]? = some (Outcome.generated source (targetOf r source))
      ∧ place = (targetOf r source).place

section Whole

variable {r : Resolved} {t : FileTree} {units : List Path} {i j : Nat} {source : Path}

theorem Generates.index_eq (hapart : Apart r units) (hnodup : units.Nodup) {k : Nat} {s : Path}
    (hi : units[i]? = some source) (hk : Generates r t units k s)
    (heq : (targetOf r source).place = (targetOf r s).place) : i = k := by
  obtain rfl := hapart.target_injective source (List.mem_of_getElem? hi) s
    (List.mem_of_getElem? hk.1) heq
  obtain ⟨hlt, -⟩ := List.getElem?_eq_some_iff.mp hi
  exact (List.getElem?_inj hlt hnodup).mp (hi.trans hk.1.symm)

/-- A unit's own file is never touched. -/
theorem source_between (hlink : t.LinkFree) (hapart : Apart r units) (hsource : source ∈ units)
    {contents : ByteArray} (hfile : t.get? source.place = some (.file contents)) (i : Nat) :
    (treeAt r t units i).get? source.place = some (.file contents) := by
  refine file_between hlink hapart (Nat.zero_le i) hfile ?_ ?_
  · intro k s _ hk heq
    exact hapart.target_ne_source s (List.mem_of_getElem? hk.1) source hsource heq.symm
  · intro s hs heq
    exact hapart.temporary_ne_source s hs source hsource heq.symm

/-- Every unit is read as it was before the run. -/
theorem entryAt?_source (hlink : t.LinkFree) (hapart : Apart r units) (hsource : source ∈ units)
    {contents : ByteArray} (hopens : t.Opens [] source.steps)
    (hfile : t.get? source.place = some (.file contents)) (i : Nat) :
    (treeAt r t units i).entryAt? source = t.entryAt? source := by
  have hkeep : t.KeepsDirectories (treeAt r t units i) :=
    keeps_between hlink hapart (Nat.zero_le i)
  refine entryAt?_congr hlink (linkFree_treeAt hlink hapart i) hopens (hopens.mono hkeep) ?_
  rw [source_between hlink hapart hsource hfile i, hfile]

/-- A generated test is still there after the run. -/
theorem generated_between (hlink : t.LinkFree) (hapart : Apart r units) (hnodup : units.Nodup)
    (hi : units[i]? = some source) {contents : ByteArray} (hij : i + 1 ≤ j)
    (hentry : (treeAt r t units (i + 1)).entryAt? (targetOf r source) = some (.file contents)) :
    (treeAt r t units j).entryAt? (targetOf r source) = some (.file contents) := by
  have hlink' := fun k => linkFree_treeAt hlink hapart k
  obtain ⟨-, -, hfile⟩ := (entryAt?_eq_some (hlink' (i + 1))).mp hentry
  refine entryAt?_mono (hlink' _) (hlink' _) (keeps_between hlink hapart hij) hentry ?_
  refine file_between hlink hapart hij hfile ?_ ?_
  · intro k s hk hgen heq
    have := hgen.index_eq hapart hnodup hi heq
    omega
  · intro s hs
    exact hapart.target_ne_temporary source (List.mem_of_getElem? hi) s hs

end Whole

/-- **A run changes what it reports and nothing else.**  In a tree of regular files and directories,
with a source root that is a directory, a run over the discovered sources comes to an end, and what
it leaves of the tree is what it reports. -/
theorem run_changes_only_what_it_reports (t : FileTree) (r : Resolved) (hplain : t.IsPlain)
    (hroot : t.isDirectory r.srcRoot = true) :
    ∃ res, run t r false = .ok res
      ∧ ChangesOnlyWhatItReports t r (discoverSources t r) res := by
  have hlink := hplain.linkFree
  have hapart := apart_discoverSources hplain hroot
  have hnodup := discoverSources_nodup hplain hroot
  have hplanned := fun s (hs : s ∈ discoverSources t r) => plannedAs_of_mem hplain hroot hs
  refine ⟨execute t r (discoverSources t r) false, ?_, ?_⟩
  · rw [run, plan, hroot]
    rfl
  generalize discoverSources t r = units at hapart hnodup hplanned ⊢
  have htree : (execute t r units false).tree = treeAt r t units units.length :=
    (treeAt_of_le (Nat.le_refl _)).symm
  have houtcomes : (execute t r units false).outcomes = outcomesOf r t units := rfl
  refine ⟨?_, ?_, ?_, ?_, ?_, ?_, ?_, ?_⟩
  all_goals simp only [htree, houtcomes]
  -- each source has an outcome
  · exact length_outcomesOf
  -- one of three
  · intro i source hi
    obtain ⟨o, ho, hstep⟩ := step_at hlink hapart hi
    rw [ho]
    rcases hstep.outcome_cases with rfl | rfl | ⟨e, rfl⟩
    · exact .inl rfl
    · exact .inr (.inl rfl)
    · exact .inr (.inr ⟨e, rfl⟩)
  -- a generated test holds what its source makes
  · intro i source hi hgen
    obtain ⟨o, ho, hstep⟩ := step_at hlink hapart hi
    have hmem := List.mem_of_getElem? hi
    obtain ⟨text, hread, hentry⟩ := hstep.of_generated (Option.some.inj (ho.symm.trans hgen))
    obtain ⟨dirs, n, stem, ext, hsource⟩ := hplanned source hmem
    obtain ⟨bytes, hbytes⟩ := hsource.isFile
    obtain ⟨contents, hcontents, htext⟩ := readText_eq_ok hread
    rw [entryAt?_source hlink hapart hmem hsource.opens hbytes i] at hcontents
    obtain ⟨hlt, -⟩ := List.getElem?_eq_some_iff.mp hi
    exact ⟨text, readText_of_entryAt? hcontents htext,
      generated_between hlink hapart hnodup hi hlt hentry⟩
  -- sources stay as they are
  · intro source hmem
    obtain ⟨dirs, n, stem, ext, hsource⟩ := hplanned source hmem
    obtain ⟨bytes, hbytes⟩ := hsource.isFile
    exact ⟨entryAt?_source hlink hapart hmem hsource.opens hbytes _, bytes, hbytes,
      source_between hlink hapart hmem hbytes _⟩
  -- what is skipped was there, or an earlier unit made a directory of it
  · intro i source hi hskip
    obtain ⟨o, ho, hstep⟩ := step_at hlink hapart hi
    obtain ⟨hpolicy, hexists⟩ := hstep.of_skipped (Option.some.inj (ho.symm.trans hskip))
    refine ⟨hpolicy, hexists, ?_⟩
    obtain ⟨e, he⟩ := Option.isSome_iff_exists.mp hexists
    obtain ⟨-, -, hget⟩ := (entryAt?_eq_some (linkFree_treeAt hlink hapart i)).mp he
    rcases entry_before hlink hapart i hget with h | rfl | ⟨k, s, hk, hgen, heq⟩
    · exact .inl h
    · exact .inr hget
    · exact absurd (hgen.index_eq hapart hnodup hi heq) (Nat.ne_of_gt hk)
  -- the target of a unit that is not generated stays
  · intro i source contents hi hnot hfile
    refine file_between hlink hapart (Nat.zero_le _) hfile ?_ ?_
    · intro k s _ hgen heq
      obtain rfl := hgen.index_eq hapart hnodup hi heq
      obtain rfl := Option.some.inj (hi.symm.trans hgen.1)
      exact hnot hgen.2
    · intro s hs
      exact hapart.target_ne_temporary source (List.mem_of_getElem? hi) s hs
  -- so does any other file
  · intro place contents hfile htarget htemporary
    refine file_between hlink hapart (Nat.zero_le _) hfile ?_ htemporary
    intro k s _ hgen
    exact htarget s (List.mem_of_getElem? hgen.1)
  -- a file that is new is a generated test
  · intro place contents hfile hold
    rcases file_new hlink hapart _ hfile with h | ⟨k, s, hgen, rfl⟩
    · exact absurd h (hold contents)
    · exact ⟨k, s, hgen.1, hgen.2, rfl⟩

/-- A project with one source and no tests. -/
theorem run_of_one_source_changes_only_what_it_reports :
    ∃ (t : FileTree) (r : Resolved), t.get? ["src".toList, "a.ts".toList]
        = some (.file "export function f() \x7b\x7d".toUTF8)
      ∧ r.srcRoot = .ofString "/src" ∧ r.outputRoot = .ofString "/out"
      ∧ discoverSources t r = [.ofString "/src/a.ts"]
      ∧ outcomesOf r t (discoverSources t r)
        = [.generated (.ofString "/src/a.ts") (.ofString "/out/a.test.ts")]
      ∧ ∃ res, run t r false = .ok res
        ∧ ChangesOnlyWhatItReports t r (discoverSources t r) res := by
  refine ⟨(FileTree.empty.put ["src".toList] .directory).put ["src".toList, "a.ts".toList]
      (.file "export function f() \x7b\x7d".toUTF8),
    ⟨.ofString "/src", .ofString "/out", none, ⟨[]⟩, .jest, false, true, none⟩, rfl, rfl, rfl,
    by decide +kernel, by decide +kernel, ?_⟩
  refine run_changes_only_what_it_reports _ _ (isPlain_of_entries ?_) (by decide +kernel)
  intro x hx
  obtain rfl | rfl : x = (["src".toList, "a.ts".toList],
      .file "export function f() \x7b\x7d".toUTF8) ∨ x = (["src".toList], .directory) := by
    simpa [put, others, FileTree.empty] using hx
  · exact ⟨by simp, by decide⟩
  · exact ⟨by simp, by decide⟩

end Scaffold

/-
Scaffold/Proofs/FileTree/Change.lean

What each operation does to a tree without links.

An operation that succeeds changes the entry at the place of its path, and a
move also takes away the one it started from; an operation that fails changes
nothing.  Two relations say what a sequence of them leaves of a tree:

* `AddsDirectories` — the same entries, and directories where nothing stood;
* `AtMostLoses place` — the same entries, but for a file at one place.

Writing a file by way of a temporary one either puts the contents in place and
leaves nothing beside them (`replaceFile_ok`), or at most loses what stood in
the way of the temporary file (`replaceFile_error`).
-/
import Scaffold.Proofs.FileTree.Lookup
import Scaffold.Run.Unit

namespace Scaffold

namespace FileTree

variable {t t' t'' : FileTree} {p : Path}

theorem ne_root_of_get? {place : Place} (h : t.get? place ≠ some .directory) : place ≠ [] := by
  rintro rfl
  exact h t.get?_root

/-! ### One operation -/

theorem writeFile_ok (hlink : t.LinkFree) {contents : ByteArray}
    (h : t.writeFile p contents = .ok t') :
    t' = t.put p.place (.file contents) ∧ t.get? p.place ≠ some .directory ∧ p.IsUsable
      ∧ t.Opens [] p.steps := by
  rw [writeFile] at h
  split at h
  · cases h
  · next place old hloc =>
    obtain ⟨hplace, hthere⟩ := locate_not_directory hlink hloc (by simp [Located.entry?])
    obtain rfl : place = p.place := hplace
    cases h
    exact ⟨rfl, hthere⟩
  · cases h
  · next place hloc =>
    obtain ⟨hplace, hthere⟩ := locate_not_directory hlink hloc (by simp [Located.entry?])
    obtain rfl : place = p.place := hplace
    cases h
    exact ⟨rfl, hthere⟩

theorem move_ok (hlink : t.LinkFree) {source target : Path} (h : t.move source target = .ok t') :
    ∃ e, t.get? source.place = some e ∧ t' = (t.erase source.place).put target.place e
      ∧ t.get? target.place ≠ some .directory ∧ target.IsUsable ∧ t.Opens [] target.steps := by
  rw [move] at h
  by_cases hslash : target.chars.getLast? = some '/'
  · -- nothing is moved to a path that ends in a slash
    rw [if_pos hslash] at h
    split at h <;> cases h
  rw [if_neg hslash] at h
  split at h
  · cases h
  · cases h
  · cases h
  · cases h
  · next place e place' e' hnotdir hsource htarget =>
    obtain ⟨-, -, hplace, hentry⟩ := locate_ok hlink hsource
    obtain ⟨hplace', hthere⟩ := locate_not_directory hlink htarget
      fun hdir => hnotdir (Option.some.inj hdir)
    obtain rfl : place = source.place := hplace
    obtain rfl : place' = target.place := hplace'
    cases h
    exact ⟨e, hentry, rfl, hthere⟩
  · next place e place' hsource htarget =>
    obtain ⟨-, -, hplace, hentry⟩ := locate_ok hlink hsource
    obtain ⟨hplace', hthere⟩ := locate_not_directory hlink htarget (by simp [Located.entry?])
    obtain rfl : place = source.place := hplace
    obtain rfl : place' = target.place := hplace'
    cases h
    exact ⟨e, hentry, rfl, hthere⟩

theorem makeDirectory_ok (hlink : t.LinkFree) (h : t.makeDirectory p = .ok t') :
    t' = t.put p.place .directory ∧ t.get? p.place = none := by
  rw [makeDirectory] at h
  split at h
  · cases h
  · cases h
  · next place hloc =>
    obtain ⟨-, -, hplace, hentry⟩ := locate_ok hlink hloc
    obtain rfl : place = p.place := hplace
    cases h
    exact ⟨rfl, hentry⟩

theorem removeFile_ok (hlink : t.LinkFree) (h : t.removeFile p = .ok t') :
    t' = t.erase p.place ∧ t.get? p.place ≠ some .directory := by
  rw [removeFile] at h
  split at h
  · cases h
  · cases h
  · cases h
  · next place e hnotdir hloc =>
    obtain ⟨hplace, hthere, -⟩ := locate_not_directory hlink hloc
      fun hdir => hnotdir (Option.some.inj hdir)
    obtain rfl : place = p.place := hplace
    cases h
    exact ⟨rfl, hthere⟩

theorem removeFile_of_opens (hlink : t.LinkFree) (hp : p.IsUsable) (hopens : t.Opens [] p.steps)
    {contents : ByteArray} (h : t.get? p.place = some (.file contents)) :
    t.removeFile p = .ok (t.erase p.place) := by
  rw [removeFile, locate_of_opens hlink (by decide) hp hopens h]

/-! ### Making directories -/

/-- The same tree, but for directories where nothing stood. -/
def AddsDirectories (t t' : FileTree) : Prop :=
  ∀ place, t'.get? place = t.get? place
    ∨ t.get? place = none ∧ t'.get? place = some .directory

theorem AddsDirectories.refl (t : FileTree) : t.AddsDirectories t := fun _ => .inl rfl

theorem AddsDirectories.trans (h : t.AddsDirectories t') (h' : t'.AddsDirectories t'') :
    t.AddsDirectories t'' := by
  intro place
  rcases h place with h | ⟨h, hdir⟩
  · rw [← h]
    exact h' place
  · rcases h' place with h' | ⟨h', -⟩
    · exact .inr ⟨h, h'.trans hdir⟩
    · rw [hdir] at h'
      cases h'

theorem AddsDirectories.linkFree (h : t.AddsDirectories t') (hlink : t.LinkFree) :
    t'.LinkFree := by
  intro place target htarget
  rcases h place with h | ⟨-, h⟩
  · exact hlink place target (h.symm.trans htarget)
  · rw [h] at htarget
    cases htarget

theorem AddsDirectories.keeps (h : t.AddsDirectories t') : t.KeepsDirectories t' := by
  intro place hdir
  rcases h place with h | ⟨-, h⟩
  · exact h.trans hdir
  · exact h

theorem makeDirectory_adds (hlink : t.LinkFree) (h : t.makeDirectory p = .ok t') :
    t.AddsDirectories t' := by
  obtain ⟨rfl, hnone⟩ := makeDirectory_ok hlink h
  have hdir : t.get? p.place ≠ some .directory := by simp [hnone]
  intro q
  rw [get?_put _ _ _ _ (ne_root_of_get? hdir)]
  split_ifs with hq
  · exact .inr ⟨hq ▸ hnone, rfl⟩
  · exact .inl rfl

theorem ensureDirectory_adds (hlink : t.LinkFree) (p : Path) :
    t.AddsDirectories (t.ensureDirectory p).1 := by
  rw [ensureDirectory]
  split
  · next t' h => exact makeDirectory_adds hlink h
  · exact .refl t

theorem makeDirectoriesUpTo_adds (n : Nat) (hlink : t.LinkFree) (p : Path) :
    t.AddsDirectories (makeDirectoriesUpTo n t p).1 := by
  induction n generalizing p with
  | zero => exact ensureDirectory_adds hlink p
  | succ n ih =>
    rw [makeDirectoriesUpTo]
    split_ifs
    · -- it is there already
      exact .refl t
    · split
      · next above _ _ =>
        have habove := ih above
        split
        · next t' hmade =>
          rw [hmade] at habove
          exact habove.trans (ensureDirectory_adds (habove.linkFree hlink) p)
        · next t' e hmade =>
          -- what is above cannot be made
          rw [hmade] at habove
          exact habove
      · exact ensureDirectory_adds hlink p

/-- **Making directories only adds directories**, also where it fails. -/
theorem makeDirectories_adds (hlink : t.LinkFree) (p : Path) :
    t.AddsDirectories (t.makeDirectories p).1 :=
  makeDirectoriesUpTo_adds _ hlink p

/-! ### Replacing a file -/

/-- The same tree, but that a file at one place may be gone. -/
def AtMostLoses (t t' : FileTree) (place : Place) : Prop :=
  ∀ q, t'.get? q = t.get? q
    ∨ q = place ∧ t'.get? q = none ∧ t.get? q ≠ some .directory

theorem AtMostLoses.linkFree {place : Place} (h : t.AtMostLoses t' place) (hlink : t.LinkFree) :
    t'.LinkFree := by
  intro q target htarget
  rcases h q with h | ⟨-, h, -⟩
  · exact hlink q target (h.symm.trans htarget)
  · rw [h] at htarget
    cases htarget

theorem AtMostLoses.keeps {place : Place} (h : t.AtMostLoses t' place) : t.KeepsDirectories t' := by
  intro q hdir
  rcases h q with h | ⟨-, -, h⟩
  · exact h.trans hdir
  · exact absurd hdir h

theorem erase_atMostLoses {place : Place} (h : t.get? place ≠ some .directory) :
    t.AtMostLoses (t.erase place) place := by
  intro q
  rw [get?_erase _ _ _ (ne_root_of_get? h)]
  split_ifs with hq
  · exact .inr ⟨hq, rfl, hq ▸ h⟩
  · exact .inl rfl

theorem put_linkFree {place : Place} (hplace : place ≠ []) (hlink : t.LinkFree)
    {contents : ByteArray} : (t.put place (.file contents)).LinkFree := by
  intro q target
  rw [get?_put _ _ _ _ hplace]
  split_ifs
  · simp
  · exact hlink q target

theorem put_keeps {place : Place} (h : t.get? place ≠ some .directory) {e : Entry} :
    t.KeepsDirectories (t.put place e) := by
  intro q hdir
  rw [get?_put _ _ _ _ (ne_root_of_get? h), if_neg]
  · exact hdir
  · rintro rfl
    exact h hdir

end FileTree

open FileTree

section Replace

variable {t t' : FileTree} {p : Path} {contents : ByteArray}

/-- Where writing fails, at most a file in the way of the temporary one is lost. -/
theorem replaceFile_error (hlink : t.LinkFree) {e : UnitError}
    (h : replaceFile t p contents = (t', .error e)) :
    t.AtMostLoses t' (temporaryPath p).place ∧ ∃ cause, e = .write p cause := by
  rw [replaceFile] at h
  split at h
  · -- the temporary file was not written
    obtain ⟨htree, herr⟩ := Prod.mk.inj h
    refine ⟨?_, _, (Except.error.inj herr).symm⟩
    subst htree
    rcases hremove : t.removeFile (temporaryPath p) with cause | t₁
    · simp only [hremove]
      exact fun _ => .inl rfl
    · obtain ⟨rfl, hdir⟩ := removeFile_ok hlink hremove
      simp only [hremove]
      exact erase_atMostLoses hdir
  · next t₁ hwrite =>
    obtain ⟨rfl, hdir, hp, hopens⟩ := writeFile_ok hlink hwrite
    have hplace := ne_root_of_get? hdir
    have hremove := removeFile_of_opens (put_linkFree hplace hlink) hp (hopens.mono (put_keeps hdir))
      (show (t.put (temporaryPath p).place (.file contents)).get? (temporaryPath p).place
          = some (.file contents) by rw [get?_put _ _ _ _ hplace, if_pos rfl])
    split at h
    · obtain ⟨htree, herr⟩ := Prod.mk.inj h
      refine ⟨?_, _, (Except.error.inj herr).symm⟩
      subst htree
      simp only [hremove]
      intro q
      rw [get?_erase _ _ _ hplace, get?_put _ _ _ _ hplace]
      split_ifs with hq
      · exact .inr ⟨hq, rfl, hq ▸ hdir⟩
      · exact .inl rfl
    · cases h

/-- Where writing succeeds, the contents are in place and no temporary file is left. -/
theorem replaceFile_ok (hlink : t.LinkFree) (hne : p.place ≠ (temporaryPath p).place)
    (h : replaceFile t p contents = (t', .ok ())) :
    (∀ q, t'.get? q = if q = p.place then some (.file contents)
        else if q = (temporaryPath p).place then none else t.get? q)
      ∧ t.get? p.place ≠ some .directory ∧ t.get? (temporaryPath p).place ≠ some .directory
      ∧ t'.entryAt? p = some (.file contents) := by
  rw [replaceFile] at h
  split at h
  · cases h
  · next t₁ hwrite =>
    obtain ⟨rfl, hdir, -, -⟩ := writeFile_ok hlink hwrite
    have hplace := ne_root_of_get? hdir
    split at h
    · cases h
    · next t₂ hmove =>
      obtain ⟨rfl, -⟩ := Prod.mk.inj h
      have hlink₁ : (t.put (temporaryPath p).place (.file contents)).LinkFree :=
        put_linkFree hplace hlink
      obtain ⟨e, he, rfl, hdir', hp, hopens⟩ := move_ok hlink₁ hmove
      rw [get?_put _ _ _ _ hplace, if_pos rfl] at he
      obtain rfl := Option.some.inj he
      rw [get?_put _ _ _ _ hplace, if_neg hne] at hdir'
      have hplace' := ne_root_of_get? hdir'
      have hview : ∀ q, (((t.put (temporaryPath p).place (.file contents)).erase
          (temporaryPath p).place).put p.place (.file contents)).get? q
            = if q = p.place then some (.file contents)
              else if q = (temporaryPath p).place then none else t.get? q := by
        intro q
        rw [get?_put _ _ _ _ hplace', get?_erase _ _ _ hplace, get?_put _ _ _ _ hplace]
        split_ifs <;> rfl
      refine ⟨hview, hdir', hdir, ?_⟩
      -- the directories on the way to `p` are still there
      have hlink₂ : (((t.put (temporaryPath p).place (.file contents)).erase
          (temporaryPath p).place).put p.place (.file contents)).LinkFree := by
        intro q target
        rw [hview]
        split_ifs
        · simp
        · simp
        · exact hlink q target
      refine (entryAt?_eq_some hlink₂).mpr ⟨hp, hopens.mono ?_, by rw [hview, if_pos rfl]⟩
      intro q hq
      rw [get?_put _ _ _ _ hplace] at hq
      by_cases htemporary : q = (temporaryPath p).place
      · rw [if_pos htemporary] at hq
        cases hq
      · rw [if_neg htemporary] at hq
        have hq' : q ≠ p.place := by
          rintro rfl
          exact hdir' hq
        rw [hview, if_neg hq', if_neg htemporary]
        exact hq

end Replace

end Scaffold

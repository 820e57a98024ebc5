/-
Scaffold/Proofs/FileTree/Lookup.lean

Looking paths up in a tree without links.

Without links the place a path leads to is decided by its text
(`Path.place`).  The tree decides only whether the path can be followed: every
step needs a directory to start from (`Opens`), and what stands at the place is
what the look-up ends at.  So a look-up succeeds exactly when

* the path is one the system accepts (`Path.IsUsable`),
* the tree opens its steps, and
* something stands at its place (`entryAt?_eq_some`).

Opening steps needs directories only, so a change that keeps directories keeps
every path open (`Opens.mono`).
-/
import Mathlib.Tactic.Common
import Scaffold.FileTree.Change
import Scaffold.Proofs.Path.Segments

namespace Scaffold

open Text

/-! ### Places -/

/-- The place one step leads to. -/
def stepFrom (here : Place) (step : List Char) : Place :=
  if step = ['.'] ∨ step = [] then here
  else if step = ['.', '.'] then here.dropLast
  else here ++ [step]

/-- The place several steps lead to. -/
def placeFrom (here : Place) (steps : List (List Char)) : Place := steps.foldl stepFrom here

/-- The place a path leads to where no links are on the way. -/
def Path.place (p : Path) : Place := placeFrom [] p.steps

@[simp] theorem placeFrom_nil (here : Place) : placeFrom here [] = here := rfl

@[simp] theorem placeFrom_cons (here : Place) (s : List Char) (steps : List (List Char)) :
    placeFrom here (s :: steps) = placeFrom (stepFrom here s) steps := rfl

theorem placeFrom_append (here : Place) (xs ys : List (List Char)) :
    placeFrom here (xs ++ ys) = placeFrom (placeFrom here xs) ys := List.foldl_append

theorem stepFrom_name {here : Place} {n : List Char} (h : Path.IsName n) :
    stepFrom here n = here ++ [n] := by
  rw [stepFrom, if_neg (by simp [h.1.1, h.2.1]), if_neg h.2.2]

theorem placeFrom_names {here : Place} {names : List (List Char)} (h : ∀ n ∈ names, Path.IsName n) :
    placeFrom here names = here ++ names := by
  induction names generalizing here with
  | nil => simp
  | cons n names ih =>
    rw [placeFrom_cons, stepFrom_name (h n List.mem_cons_self),
      ih (fun m hm => h m (List.mem_cons_of_mem _ hm)), List.append_assoc]
    rfl

/-- What the system asks of a path, whatever the tree. -/
structure Path.IsUsable (p : Path) : Prop where
  noNul : p.chars.contains (Char.ofNat 0) = false
  nonempty : p.chars ≠ []
  short : byteLength p.chars < FileTree.maxPath
  /-- No name is too long. -/
  names : ∀ s ∈ p.steps, byteLength s ≤ FileTree.maxName

namespace Located

/-- The place a look-up ends at. -/
def place : Located → Place
  | entry place _ => place
  | free place => place

/-- What a look-up ends at. -/
def entry? : Located → Option Entry
  | entry _ e => some e
  | free _ => none

end Located

namespace FileTree

/-- A tree in which nothing is a link. -/
def LinkFree (t : FileTree) : Prop := ∀ place target, t.get? place ≠ some (.link target)

/-- Whether every one of some steps starts from a directory. -/
def Opens (t : FileTree) : Place → List (List Char) → Prop
  | _, [] => True
  | here, step :: rest => t.get? here = some .directory ∧ t.Opens (stepFrom here step) rest

theorem opens_append {t : FileTree} {here : Place} {xs ys : List (List Char)} :
    t.Opens here (xs ++ ys) ↔ t.Opens here xs ∧ t.Opens (placeFrom here xs) ys := by
  induction xs generalizing here with
  | nil => simp [Opens]
  | cons x xs ih => simp only [List.cons_append, Opens, ih, placeFrom_cons, and_assoc]

/-! ### Following steps -/

section Follow

variable {t : FileTree} {purpose : Purpose}
  {expand : Place → Path → List (List Char) → Except IoError Located}

/-- One step: it goes on behind the step, or ends at a free place. -/
theorem follow_cons_ok (hlink : t.LinkFree) {here : Place} {step : List Char}
    {rest : List (List Char)} {loc : Located}
    (h : t.follow purpose expand here (step :: rest) = .ok loc) :
    t.get? here = some .directory ∧ byteLength step ≤ maxName
      ∧ (t.follow purpose expand (stepFrom here step) rest = .ok loc
        ∨ rest = [] ∧ loc = .free (stepFrom here step) ∧ t.get? (stepFrom here step) = none) := by
  rw [follow] at h
  split at h
  · next hdir =>
    refine ⟨hdir, ?_⟩
    rw [stepFrom]
    by_cases hstay : step = ['.'] ∨ step = []
    · -- `.` and the empty step stay
      rw [if_pos hstay] at h ⊢
      exact ⟨by rcases hstay with rfl | rfl <;> decide, .inl h⟩
    rw [if_neg hstay] at h ⊢
    by_cases hup : step = ['.', '.']
    · -- `..` goes up
      rw [if_pos hup] at h ⊢
      exact ⟨by rw [hup]; decide, .inl h⟩
    rw [if_neg hup] at h ⊢
    by_cases hslash : purpose = .writing ∧ rest = [[]]
    · -- no file is made at a path that ends in a slash
      rw [if_pos hslash] at h
      cases h
    rw [if_neg hslash] at h
    by_cases hlong : maxName < byteLength step
    · -- the name is too long
      rw [if_pos hlong] at h
      cases h
    rw [if_neg hlong] at h
    refine ⟨Nat.le_of_not_lt hlong, ?_⟩
    simp only at h
    split at h
    · next hnone =>
      -- only the last step may lead to nothing
      split_ifs at h with hrest
      cases h
      exact .inr ⟨by simpa using hrest, rfl, hnone⟩
    · next target htarget => exact absurd htarget (hlink _ _)
    · exact .inl h
  · cases h
  · cases h

/-- Where following steps ends, and what it went through. -/
theorem follow_ok (hlink : t.LinkFree) {here : Place} {steps : List (List Char)} {loc : Located}
    (h : t.follow purpose expand here steps = .ok loc) :
    (∀ s ∈ steps, byteLength s ≤ maxName) ∧ t.Opens here steps ∧ loc.place = placeFrom here steps
      ∧ t.get? loc.place = loc.entry? := by
  induction steps generalizing here with
  | nil =>
    rw [follow] at h
    split at h
    · next e he =>
      cases h
      exact ⟨by simp, trivial, rfl, he⟩
    · cases h
  | cons step rest ih =>
    obtain ⟨hdir, hshort, hrest | ⟨rfl, rfl, hnone⟩⟩ := follow_cons_ok hlink h
    · -- the other steps are followed
      obtain ⟨hnames, hopens, hplace, hentry⟩ := ih hrest
      exact ⟨List.forall_mem_cons.mpr ⟨hshort, hnames⟩, ⟨hdir, hopens⟩, hplace, hentry⟩
    · -- the last step leads to nothing
      exact ⟨by simpa using hshort, ⟨hdir, trivial⟩, rfl, hnone⟩

/-- What the tree opens can be followed. -/
theorem follow_of_opens (hlink : t.LinkFree) (hpurpose : purpose ≠ .writing) {here : Place}
    {steps : List (List Char)} {e : Entry} (hnames : ∀ s ∈ steps, byteLength s ≤ maxName)
    (hopens : t.Opens here steps) (he : t.get? (placeFrom here steps) = some e) :
    t.follow purpose expand here steps = .ok (.entry (placeFrom here steps) e) := by
  induction steps generalizing here with
  | nil =>
    rw [follow]
    rw [placeFrom_nil] at he
    rw [he]
    rfl
  | cons step rest ih =>
    obtain ⟨hdir, hopens⟩ := hopens
    rw [placeFrom_cons] at he ⊢
    have hrest := ih (fun s hs => hnames s (List.mem_cons_of_mem _ hs)) hopens he
    have hlong : ¬ maxName < byteLength step := Nat.not_lt.mpr (hnames step List.mem_cons_self)
    have hslash : ¬ (purpose = .writing ∧ rest = [[]]) := fun h => hpurpose h.1
    rw [follow, hdir]
    simp only
    by_cases hstay : step = ['.'] ∨ step = []
    · rw [if_pos hstay, ← hrest, stepFrom, if_pos hstay]
    · by_cases hup : step = ['.', '.']
      · rw [if_neg hstay, if_pos hup, ← hrest, stepFrom, if_neg hstay, if_pos hup]
      · have hnext : stepFrom here step = here ++ [step] := by
          rw [stepFrom, if_neg hstay, if_neg hup]
        rw [if_neg hstay, if_neg hup, if_neg hslash, if_neg hlong]
        rw [hnext] at hrest hopens he ⊢
        -- something stands at the next place: the end of the path, or a directory on the way
        obtain ⟨e', he'⟩ : ∃ e', t.get? (here ++ [step]) = some e' := by
          cases rest with
          | nil => exact ⟨e, he⟩
          | cons step' rest => exact ⟨_, hopens.1⟩
        rw [he']
        cases e' with
        | link target => exact absurd he' (hlink _ _)
        | file contents => exact hrest
        | directory => exact hrest

end Follow

/-! ### Looking up a path -/

theorem followLinks_eq (t : FileTree) (purpose : Purpose) (links : Nat) (here : Place)
    (steps : List (List Char)) :
    ∃ expand, t.followLinks purpose links here steps = t.follow purpose expand here steps := by
  cases links with
  | zero => exact ⟨_, rfl⟩
  | succ links => exact ⟨_, rfl⟩

section Locate

variable {t : FileTree} {p : Path} {purpose : Purpose}

theorem locate_ok (hlink : t.LinkFree) {loc : Located} (h : t.locate purpose p = .ok loc) :
    p.IsUsable ∧ t.Opens [] p.steps ∧ loc.place = p.place ∧ t.get? loc.place = loc.entry? := by
  rw [locate] at h
  split_ifs at h with hnul hempty hlong
  obtain ⟨expand, hfollow⟩ := t.followLinks_eq purpose maxLinks [] p.steps
  rw [hfollow] at h
  obtain ⟨hnames, hopens, hplace, hentry⟩ := follow_ok hlink h
  refine ⟨⟨by simpa using hnul, by simpa using hempty, Nat.lt_of_not_le hlong, hnames⟩, hopens,
    hplace, hentry⟩

/-- A path that does not lead to a directory leads to a place where there is none. -/
theorem locate_not_directory (hlink : t.LinkFree) {loc : Located} (h : t.locate purpose p = .ok loc)
    (hdir : loc.entry? ≠ some .directory) :
    loc.place = p.place ∧ t.get? p.place ≠ some .directory ∧ p.IsUsable ∧ t.Opens [] p.steps := by
  obtain ⟨hp, hopens, hplace, hentry⟩ := locate_ok hlink h
  exact ⟨hplace, hplace ▸ hentry ▸ hdir, hp, hopens⟩

theorem locate_of_opens (hlink : t.LinkFree) (hpurpose : purpose ≠ .writing) {e : Entry}
    (hp : p.IsUsable) (hopens : t.Opens [] p.steps) (he : t.get? p.place = some e) :
    t.locate purpose p = .ok (.entry p.place e) := by
  obtain ⟨expand, hfollow⟩ := t.followLinks_eq purpose maxLinks [] p.steps
  rw [locate, hp.noNul, if_neg Bool.false_ne_true, if_neg (by simpa using hp.nonempty),
    if_neg (Nat.not_le.mpr hp.short), hfollow]
  exact follow_of_opens hlink hpurpose hp.names hopens he

/-- **When a path leads to something.** -/
theorem entryAt?_eq_some (hlink : t.LinkFree) {e : Entry} :
    t.entryAt? p = some e ↔ p.IsUsable ∧ t.Opens [] p.steps ∧ t.get? p.place = some e := by
  constructor
  · intro h
    rw [entryAt?] at h
    split at h
    · next place e' hloc =>
      obtain rfl := Option.some.inj h
      obtain ⟨hp, hopens, hplace, hentry⟩ := locate_ok hlink hloc
      exact ⟨hp, hopens, hplace ▸ hentry⟩
    · cases h
  · rintro ⟨hp, hopens, he⟩
    rw [entryAt?, locate_of_opens hlink (by decide) hp hopens he]

theorem readText_eq_ok {text : String} (h : t.readText p = .ok text) :
    ∃ contents, t.entryAt? p = some (.file contents) ∧ String.fromUTF8? contents = some text := by
  rw [readText] at h
  split at h
  · cases h
  · next place contents hloc =>
    split at h
    · next s hs =>
      cases h
      exact ⟨contents, by rw [entryAt?, hloc], hs⟩
    · cases h
  · cases h
  · cases h

theorem readText_of_entryAt? {contents : ByteArray} {text : String}
    (h : t.entryAt? p = some (.file contents)) (htext : String.fromUTF8? contents = some text) :
    t.readText p = .ok text := by
  rw [entryAt?] at h
  split at h
  · next place e hloc =>
    obtain rfl := Option.some.inj h
    rw [readText, hloc]
    simp only [htext]
  · cases h

theorem isDirectory_iff : t.isDirectory p = true ↔ t.entryAt? p = some .directory := by
  rw [isDirectory]
  rcases t.entryAt? p with - | e
  · simp
  · cases e <;> simp [Entry.isDirectory]

theorem any_isFile_iff {place : Place} :
    (t.get? place).any Entry.isFile = true ↔ ∃ contents, t.get? place = some (.file contents) := by
  rcases t.get? place with - | ⟨contents | - | target⟩ <;> simp [Entry.isFile]

end Locate

/-! ### Directories that stay -/

/-- A change that keeps all directories. -/
def KeepsDirectories (t t' : FileTree) : Prop :=
  ∀ place, t.get? place = some .directory → t'.get? place = some .directory

theorem KeepsDirectories.refl (t : FileTree) : t.KeepsDirectories t := fun _ h => h

theorem KeepsDirectories.trans {t t' t'' : FileTree} (h : t.KeepsDirectories t')
    (h' : t'.KeepsDirectories t'') : t.KeepsDirectories t'' := fun place hp => h' place (h place hp)

theorem Opens.mono {t t' : FileTree} (hkeep : t.KeepsDirectories t') {here : Place}
    {steps : List (List Char)} (h : t.Opens here steps) : t'.Opens here steps := by
  induction steps generalizing here with
  | nil => trivial
  | cons step rest ih => exact ⟨hkeep here h.1, ih h.2⟩

/-- A path that leads somewhere leads there as long as directories and the entry stay. -/
theorem entryAt?_mono {t t' : FileTree} (hlink : t.LinkFree) (hlink' : t'.LinkFree)
    (hkeep : t.KeepsDirectories t') {p : Path} {e e' : Entry} (h : t.entryAt? p = some e)
    (he : t'.get? p.place = some e') : t'.entryAt? p = some e' := by
  obtain ⟨hp, hopens, -⟩ := (entryAt?_eq_some hlink).mp h
  exact (entryAt?_eq_some hlink').mpr ⟨hp, hopens.mono hkeep, he⟩

/-- A path that both trees open leads to the same where the entries are the same. -/
theorem entryAt?_congr {t t' : FileTree} (hlink : t.LinkFree) (hlink' : t'.LinkFree) {p : Path}
    (hopens : t.Opens [] p.steps) (hopens' : t'.Opens [] p.steps)
    (he : t'.get? p.place = t.get? p.place) : t'.entryAt? p = t.entryAt? p := by
  apply Option.ext
  intro e
  rw [entryAt?_eq_some hlink', entryAt?_eq_some hlink, he]
  exact and_congr_right fun _ => and_congr_left' (iff_of_true hopens' hopens)

/-- Steps that both trees open are followed alike where the entries at their end are the same. -/
theorem follow_congr {t t' : FileTree} (hlink : t.LinkFree) {purpose : Purpose}
    {expand expand' : Place → Path → List (List Char) → Except IoError Located} {here : Place}
    {steps : List (List Char)} (hopens : t.Opens here steps)
    (hopens' : t'.Opens here steps)
    (he : t'.get? (placeFrom here steps) = t.get? (placeFrom here steps)) :
    t'.follow purpose expand' here steps = t.follow purpose expand here steps := by
  induction steps generalizing here with
  | nil =>
    rw [placeFrom_nil] at he
    rw [follow, follow, he]
  | cons step rest ih =>
    obtain ⟨hdir, hopens⟩ := hopens
    obtain ⟨hdir', hopens'⟩ := hopens'
    rw [placeFrom_cons] at he
    have hrest := ih hopens hopens' he
    rw [follow, follow, hdir, hdir']
    simp only
    by_cases hstay : step = ['.'] ∨ step = []
    · rw [stepFrom, if_pos hstay] at hrest
      rw [if_pos hstay, if_pos hstay, hrest]
    · by_cases hup : step = ['.', '.']
      · rw [stepFrom, if_neg hstay, if_pos hup] at hrest
        rw [if_neg hstay, if_pos hup, if_neg hstay, if_pos hup, hrest]
      · have hnext : stepFrom here step = here ++ [step] := by
          rw [stepFrom, if_neg hstay, if_neg hup]
        rw [hnext] at hrest hopens hopens' he
        rw [if_neg hstay, if_neg hup, if_neg hstay, if_neg hup]
        -- what stands at the next place is the end of the path, or a directory in both trees
        have hsame : t'.get? (here ++ [step]) = t.get? (here ++ [step]) := by
          cases rest with
          | nil => exact he
          | cons step' rest => rw [hopens.1, hopens'.1]
        rw [hsame]
        rcases hget : t.get? (here ++ [step]) with - | ⟨contents | - | target⟩
        · rfl
        · rw [hrest]
        · rw [hrest]
        · exact absurd hget (hlink _ _)

theorem readText_congr {t t' : FileTree} (hlink : t.LinkFree) {p : Path}
    (hopens : t.Opens [] p.steps) (hopens' : t'.Opens [] p.steps)
    (he : t'.get? p.place = t.get? p.place) : t'.readText p = t.readText p := by
  have hlocate : t'.locate .target p = t.locate .target p := by
    obtain ⟨expand, hfollow⟩ := t.followLinks_eq .target maxLinks [] p.steps
    obtain ⟨expand', hfollow'⟩ := t'.followLinks_eq .target maxLinks [] p.steps
    rw [locate, locate, hfollow, hfollow', follow_congr hlink hopens hopens' he]
  rw [readText, readText, hlocate]

end FileTree

end Scaffold

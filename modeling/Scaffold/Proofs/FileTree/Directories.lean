/-
Scaffold/Proofs/FileTree/Directories.lean

What making directories does, exactly.

In a tree without links in which everything stands in a directory, a path in
normal form is followed name by name until something is in the way: a name
that is too long, or a file.  `passage` says how far that is and what is in the
way, whether or not the directories are there yet; `descent` says what a
look-up of the same names finds.

Making the directories of a path fails for what is in the way, if anything is
(`obstacle`), and leaves directories on the whole way to it (`Made`):
`makeDirectories_path`, by induction over the names from the last one back, as
the operation goes up until it meets a directory.
-/
import Mathlib.Data.List.Induction
import Mathlib.Data.List.Infix
import Scaffold.Proofs.FileTree.Change
import Scaffold.Proofs.Path.Normal

namespace Scaffold

open Text Scaffold.Path

/-! ### What the system asks of a path -/

/-- What is wrong with a path, whatever the tree. -/
def Path.fault (p : Path) : Option IoError :=
  if p.chars.contains (Char.ofNat 0) then some .nulInPath
  else if p.chars.isEmpty then some .notFound
  else if FileTree.maxPath ≤ byteLength p.chars then some .nameTooLong
  else none

theorem Path.fault_eq_none {p : Path} : p.fault = none ↔
    p.chars.contains (Char.ofNat 0) = false ∧ p.chars ≠ []
      ∧ byteLength p.chars < FileTree.maxPath := by
  rw [Path.fault]
  split_ifs with h1 h2 h3
  · exact iff_of_false (by simp) fun h => Bool.false_ne_true (h.1.symm.trans h1)
  · exact iff_of_false (by simp) fun h => h.2.1 (by simpa using h2)
  · exact iff_of_false (by simp) fun h => absurd h.2.2 (Nat.not_lt.mpr h3)
  · exact iff_of_true rfl ⟨Bool.eq_false_iff.mpr h1, by simpa using h2, Nat.lt_of_not_le h3⟩

/-- A path that is the beginning of an accepted one is accepted, if it is not empty. -/
theorem Path.fault_of_append {p q : Path} {rest : List Char} (h : q.chars = p.chars ++ rest)
    (hne : p.chars ≠ []) (hq : q.fault = none) : p.fault = none := by
  obtain ⟨hnul, -, hshort⟩ := Path.fault_eq_none.mp hq
  rw [h] at hnul hshort
  refine Path.fault_eq_none.mpr ⟨?_, hne, ?_⟩
  · have hnone : Char.ofNat 0 ∉ p.chars ++ rest := by simpa using hnul
    simpa using fun hmem => hnone (List.mem_append_left _ hmem)
  · rw [byteLength_append] at hshort
    exact Nat.lt_of_le_of_lt (Nat.le_add_right _ _) hshort

namespace FileTree

variable {t t' t'' : FileTree}

/-! ### Trees in which everything stands in a directory -/

/-- A tree in which everything stands in a directory. -/
def IsClosed (t : FileTree) : Prop :=
  ∀ place n e, t.get? (place ++ [n]) = some e → t.get? place = some .directory

theorem IsClosed.above (h : t.IsClosed) {q below : Place} {e : Entry}
    (he : t.get? (q ++ below) = some e) (hne : below ≠ []) : t.get? q = some .directory := by
  -- from the last name back: what holds a directory is a directory
  induction below using List.reverseRecOn generalizing e with
  | nil => exact absurd rfl hne
  | append_singleton init n ih =>
    rw [← List.append_assoc] at he
    have hdir := h _ _ _ he
    by_cases hinit : init = []
    · rwa [hinit, List.append_nil] at hdir
    · exact ih hdir hinit

/-- Below nothing there is nothing. -/
theorem IsClosed.none_below (h : t.IsClosed) {q : Place} (hnone : t.get? q = none)
    (below : Place) : t.get? (q ++ below) = none := by
  rcases hget : t.get? (q ++ below) with - | e
  · rfl
  · by_cases hbelow : below = []
    · rw [hbelow, List.append_nil, hnone] at hget
      cases hget
    · rw [h.above hget hbelow] at hnone
      cases hnone

/-- All directories above a directory are there. -/
theorem IsClosed.directory_on_way (h : t.IsClosed) {q place : Place}
    (hplace : t.get? place = some .directory) (hq : q <+: place) :
    t.get? q = some .directory := by
  obtain ⟨below, rfl⟩ := hq
  by_cases hbelow : below = []
  · rwa [hbelow, List.append_nil] at hplace
  · exact h.above hplace hbelow

/-- A tree stays so where something is put in a directory. -/
theorem put_isClosed (hclosed : t.IsClosed) {dir : Place} {n : List Char} {e : Entry}
    (hdir : t.get? dir = some .directory) (hnone : t.get? (dir ++ [n]) = none) :
    (t.put (dir ++ [n]) e).IsClosed := by
  have hview := fun q => get?_put t (dir ++ [n]) q e (by simp)
  intro above m e' he
  rw [hview] at he ⊢
  by_cases hnew : above ++ [m] = dir ++ [n]
  · obtain ⟨rfl, -⟩ := List.append_inj' hnew rfl
    rw [if_neg (by simp), hdir]
  · rw [if_neg hnew] at he
    have habove := hclosed _ _ _ he
    rw [if_neg, habove]
    rintro rfl
    rw [hnone] at habove
    cases habove

/-- The way to what is there can be opened. -/
theorem opens_of_closed (hclosed : t.IsClosed) {here : Place} {names : List (List Char)}
    (hnames : ∀ n ∈ names, IsName n) (hthere : (t.get? (here ++ names)).isSome) :
    t.Opens here names := by
  obtain ⟨e, he⟩ := Option.isSome_iff_exists.mp hthere
  induction names generalizing here with
  | nil => trivial
  | cons n names ih =>
    refine ⟨hclosed.above he (by simp), ?_⟩
    rw [stepFrom_name (hnames n List.mem_cons_self)]
    have hsplit : here ++ n :: names = here ++ [n] ++ names := by simp
    rw [hsplit] at hthere he
    exact ih (fun m hm => hnames m (List.mem_cons_of_mem _ hm)) hthere he

/-! ### How far directories can be made -/

/-- How far names lead from a place until a name is too long or a file is in the way, and which of
the two it is.  What is not there is no obstacle. -/
def passage (t : FileTree) : Place → List (List Char) → Place × Option IoError
  | here, [] => (here, none)
  | here, n :: rest =>
    if maxName < byteLength n then (here, some .nameTooLong)
    else if (t.get? (here ++ [n])).any Entry.isFile then
      (here, some (if rest.isEmpty then .alreadyExists else .notDirectory))
    else t.passage (here ++ [n]) rest

/-- The passage depends on where there are files. -/
theorem passage_congr {here : Place} {names : List (List Char)}
    (h : ∀ q, q <+: here ++ names → (t'.get? q).any Entry.isFile = (t.get? q).any Entry.isFile) :
    t'.passage here names = t.passage here names := by
  induction names generalizing here with
  | nil => rfl
  | cons n rest ih =>
    have hnext : here ++ [n] <+: here ++ n :: rest := ⟨rest, by simp⟩
    have hrest := @ih (here ++ [n]) (by simpa using h)
    rw [passage, passage, h _ hnext, hrest]

/-- Where nothing stands only a name can be in the way. -/
theorem passage_of_none (hclosed : t.IsClosed) {here : Place} {names : List (List Char)}
    (hnone : t.get? here = none) {e : IoError} (h : (t.passage here names).2 = some e) :
    e = .nameTooLong := by
  induction names generalizing here with
  | nil => cases h
  | cons n rest ih =>
    have hnext := hclosed.none_below hnone [n]
    rw [passage, hnext, Option.any_none, if_neg Bool.false_ne_true] at h
    by_cases hlong : maxName < byteLength n
    · rw [if_pos hlong] at h
      exact (Option.some.inj h).symm
    · rw [if_neg hlong] at h
      exact ih hnext h

theorem passage_clear {here : Place} {names : List (List Char)}
    (h : (t.passage here names).2 = none) : (t.passage here names).1 = here ++ names := by
  induction names generalizing here with
  | nil => simp [passage]
  | cons n rest ih =>
    rw [passage] at h ⊢
    by_cases hlong : maxName < byteLength n
    · -- a name that is too long stops the passage
      rw [if_pos hlong] at h
      cases h
    · rw [if_neg hlong] at h ⊢
      by_cases hfile : (t.get? (here ++ [n])).any Entry.isFile = true
      · -- so does a file
        rw [if_pos hfile] at h
        cases h
      · rw [if_neg hfile] at h ⊢
        rw [ih h, List.append_assoc]
        rfl

/-- The passage along one more name. -/
theorem passage_concat (here : Place) (init : List (List Char)) (n : List Char) :
    t.passage here (init ++ [n])
      = match t.passage here init with
        | (reach, none) => t.passage reach [n]
        | (reach, some .alreadyExists) => (reach, some .notDirectory)
        | (reach, some e) => (reach, some e) := by
  induction init generalizing here with
  | nil => rfl
  | cons m init ih =>
    rw [List.cons_append, passage, passage.eq_2 t here m init]
    by_cases hlong : maxName < byteLength m
    · rw [if_pos hlong, if_pos hlong]
    · rw [if_neg hlong, if_neg hlong]
      by_cases hfile : (t.get? (here ++ [m])).any Entry.isFile = true
      · rw [if_pos hfile, if_pos hfile]
        -- a file at the end of `init` is one on the way now
        rcases init with - | ⟨m', init⟩ <;> rfl
      · rw [if_neg hfile, if_neg hfile]
        exact ih _

/-! ### Looking names up -/

section Descent

variable {here : Place} {names : List (List Char)}

/-- What a look-up of some names finds, and how far directories can be made along them. -/
inductive Descent (t : FileTree) (here : Place) (names : List (List Char)) : Prop
  /-- A directory on the way is missing. -/
  | missing (init : List (List Char)) (n : List Char) (hnames : names = init ++ [n])
      (habove : t.get? (here ++ init) = none)
      (hpassage : ∀ e, (t.passage here names).2 = some e → e = .nameTooLong)
      (hfollow : ∀ purpose expand, t.follow purpose expand here names = .error .notFound)
  /-- A name is too long, or a file is on the way. -/
  | blocked (e : IoError) (he : e ≠ .notFound) (hpassage : (t.passage here names).2 = some e)
      (hreach : t.get? (t.passage here names).1 = some .directory)
      (hfollow : ∀ purpose expand, t.follow purpose expand here names = .error e)
  /-- The names lead to a file. -/
  | file (contents : ByteArray) (hpassage : (t.passage here names).2 = some .alreadyExists)
      (hreach : t.get? (t.passage here names).1 = some .directory)
      (hfollow : ∀ purpose expand, t.follow purpose expand here names
        = .ok (.entry (here ++ names) (.file contents)))
  /-- The names lead to a directory. -/
  | directory (hpassage : t.passage here names = (here ++ names, none))
      (hget : t.get? (here ++ names) = some .directory)
      (hfollow : ∀ purpose expand, t.follow purpose expand here names
        = .ok (.entry (here ++ names) .directory))
  /-- Only the last of the names is free. -/
  | free (hpassage : t.passage here names = (here ++ names, none))
      (hnone : t.get? (here ++ names) = none)
      (habove : ∀ q, q <+: here ++ names → q ≠ here ++ names → t.get? q = some .directory)
      (hfollow : ∀ purpose expand, t.follow purpose expand here names
        = .ok (.free (here ++ names)))

/-- One name of a look-up. -/
theorem follow_name {purpose : Purpose}
    {expand : Place → Path → List (List Char) → Except IoError Located} {n : List Char}
    {rest : List (List Char)} (hhere : t.get? here = some .directory) (hn : IsName n)
    (hrest : rest ≠ [[]]) :
    t.follow purpose expand here (n :: rest)
      = if maxName < byteLength n then .error .nameTooLong
        else
          match t.get? (here ++ [n]) with
          | none => if rest.isEmpty then .ok (.free (here ++ [n])) else .error .notFound
          | some (.link target) =>
            if rest.isEmpty && purpose == .itself then .ok (.entry (here ++ [n]) (.link target))
            else expand here target rest
          | some _ => t.follow purpose expand (here ++ [n]) rest := by
  rw [follow, hhere]
  simp only
  refine (if_neg (by simp [hn.1.1, hn.2.1])).trans ((if_neg hn.2.2).trans
    ((if_neg fun h => hrest h.2).trans ?_))
  rcases t.get? (here ++ [n]) with - | ⟨contents | - | target⟩ <;> rfl

section Step

variable {n : List Char} {rest : List (List Char)} (hhere : t.get? here = some .directory)
  (hn : IsName n) (hrest : rest ≠ [[]]) (hshort : ¬ maxName < byteLength n)

include hhere hn hrest hshort

/-- What is there and is not a link is gone through to the names behind it. -/
theorem follow_past {e : Entry} (hget : t.get? (here ++ [n]) = some e)
    (hlink : ∀ target, e ≠ .link target) (purpose : Purpose)
    (expand : Place → Path → List (List Char) → Except IoError Located) :
    t.follow purpose expand here (n :: rest) = t.follow purpose expand (here ++ [n]) rest := by
  rw [follow_name hhere hn hrest, if_neg hshort, hget]
  cases e with
  | file | directory => rfl
  | link target => exact absurd rfl (hlink target)

/-- The first name leads nowhere. -/
theorem Descent.of_none (hclosed : t.IsClosed) (hget : t.get? (here ++ [n]) = none) :
    t.Descent here (n :: rest) := by
  have hpassage : t.passage here (n :: rest) = t.passage (here ++ [n]) rest := by
    rw [passage, if_neg hshort, hget]
    rfl
  rcases rest with - | ⟨m, rest⟩
  · -- the last name: its place is free
    refine .free hpassage hget ?_ ?_
    · rintro q hq hne
      exact hclosed.directory_on_way hhere ((List.prefix_concat_iff.mp hq).resolve_left hne)
    · intro purpose expand
      rw [follow_name hhere hn hrest, if_neg hshort, hget]
      rfl
  · -- names behind it: there is no directory for the last one
    obtain ⟨init, l, hlast⟩ := (List.eq_nil_or_concat (m :: rest)).resolve_left (by simp)
    rw [List.concat_eq_append] at hlast
    have habove : t.get? (here ++ n :: init) = none := by
      rw [← List.singleton_append, ← List.append_assoc]
      exact hclosed.none_below hget init
    refine .missing (n :: init) l (by rw [hlast]; rfl) habove ?_ ?_
    · intro e he
      rw [hpassage] at he
      exact passage_of_none hclosed hget he
    · intro purpose expand
      rw [follow_name hhere hn hrest, if_neg hshort, hget]
      rfl

/-- The first name leads to a file. -/
theorem Descent.of_file {contents : ByteArray} (hget : t.get? (here ++ [n]) = some (.file contents)) :
    t.Descent here (n :: rest) := by
  have hpassage : t.passage here (n :: rest)
      = (here, some (if rest.isEmpty then .alreadyExists else .notDirectory)) := by
    rw [passage, if_neg hshort, hget]
    rfl
  have hfollow := follow_past hhere hn hrest hshort hget (by simp)
  rcases rest with - | ⟨m, rest⟩
  · refine .file contents (by rw [hpassage]; rfl) (by rw [hpassage]; exact hhere) ?_
    intro purpose expand
    rw [hfollow, follow, hget]
  · refine .blocked .notDirectory (by decide) (by rw [hpassage]; rfl)
      (by rw [hpassage]; exact hhere) ?_
    intro purpose expand
    rw [hfollow, follow, hget]

/-- The first name leads to a directory. -/
theorem Descent.of_directory (hget : t.get? (here ++ [n]) = some .directory)
    (h : t.Descent (here ++ [n]) rest) : t.Descent here (n :: rest) := by
  have hplace : here ++ n :: rest = here ++ [n] ++ rest := by simp
  have hpassage : t.passage here (n :: rest) = t.passage (here ++ [n]) rest := by
    rw [passage, if_neg hshort, hget]
    rfl
  have hfollow := follow_past hhere hn hrest hshort hget (by simp)
  cases h with
  | missing init l hlast habove hpass hfol =>
    refine .missing (n :: init) l (by rw [hlast]; rfl) ?_ (hpassage ▸ hpass)
      (fun p x => (hfollow p x).trans (hfol p x))
    rwa [List.append_assoc] at habove
  | blocked e he hpass hreach hfol =>
    exact .blocked e he (hpassage ▸ hpass) (hpassage ▸ hreach)
      (fun p x => (hfollow p x).trans (hfol p x))
  | file contents hpass hreach hfol =>
    exact .file contents (hpassage ▸ hpass) (hpassage ▸ hreach)
      (fun p x => (hfollow p x).trans (hplace ▸ hfol p x))
  | directory hpass hdir hfol =>
    exact .directory (by rw [hpassage, hpass, hplace]) (hplace ▸ hdir)
      (fun p x => (hfollow p x).trans (hplace ▸ hfol p x))
  | free hpass hnone habove hfol =>
    exact .free (by rw [hpassage, hpass, hplace]) (hplace ▸ hnone) (hplace ▸ habove)
      (fun p x => (hfollow p x).trans (hplace ▸ hfol p x))

end Step

/-- **Names are followed in one of the five ways.** -/
theorem descent (hlink : t.LinkFree) (hclosed : t.IsClosed) (hnames : ∀ n ∈ names, IsName n)
    (hhere : t.get? here = some .directory) : t.Descent here names := by
  induction names generalizing here with
  | nil =>
    refine .directory (by simp [passage]) (by rwa [List.append_nil]) ?_
    intro purpose expand
    rw [follow, hhere, List.append_nil]
  | cons n rest ih =>
    obtain ⟨hn, hnames⟩ := List.forall_mem_cons.mp hnames
    -- an empty rest would be a slash at the end, and names are not empty
    have hrest : rest ≠ [[]] := by
      rintro rfl
      exact (hnames [] List.mem_cons_self).1.1 rfl
    by_cases hlong : maxName < byteLength n
    · refine .blocked .nameTooLong (by decide) (by rw [passage, if_pos hlong])
        (by rw [passage, if_pos hlong]; exact hhere) ?_
      intro purpose expand
      rw [follow_name hhere hn hrest, if_pos hlong]
    · rcases hget : t.get? (here ++ [n]) with - | ⟨contents | - | target⟩
      · exact .of_none hhere hn hrest hlong hclosed hget
      · exact .of_file hhere hn hrest hlong hget
      · exact .of_directory hhere hn hrest hlong hget (ih hnames hget)
      · exact absurd hget (hlink _ _)

end Descent

/-! ### Looking a path up -/

section Normal

variable {purpose : Purpose} {expand : Place → Path → List (List Char) → Except IoError Located}

/-- At the root, `..` stays. -/
theorem follow_ups (k : Nat) (names : List (List Char)) :
    t.follow purpose expand [] (List.replicate k ['.', '.'] ++ names)
      = t.follow purpose expand [] names := by
  induction k with
  | zero => rfl
  | succ k ih =>
    rw [List.replicate_succ, List.cons_append, follow, get?_root]
    exact ih

theorem place_path (g : NormalForm) : g.path.place = g.names := by
  by_cases hsegs : g.segments = []
  · obtain ⟨-, hnames⟩ := List.append_eq_nil_iff.mp hsegs
    rw [hnames, NormalForm.path, hsegs]
    cases g.rooted <;> rfl
  · have hups : ∀ k, placeFrom [] (List.replicate k ['.', '.']) = [] := by
      intro k
      induction k with
      | zero => rfl
      | succ k ih => exact ih
    rw [Path.place, NormalForm.path, steps_ofSegments hsegs g.isSegment_segments,
      NormalForm.segments, placeFrom_append, hups, placeFrom_names g.isName]
    rfl

theorem follow_path (g : NormalForm) (hne : g.path.chars ≠ []) :
    t.follow purpose expand [] g.path.steps = t.follow purpose expand [] g.names := by
  by_cases hsegs : g.segments = []
  · obtain ⟨-, hnames⟩ := List.append_eq_nil_iff.mp hsegs
    rw [NormalForm.path, hsegs] at hne ⊢
    rcases hrooted : g.rooted with - | -
    · rw [hrooted] at hne
      exact absurd rfl hne
    · -- the root is written with a slash at its end
      rw [hnames, show (ofSegments true []).steps = [[]] from rfl, follow, get?_root]
      rfl
  · rw [NormalForm.path, steps_ofSegments hsegs g.isSegment_segments, NormalForm.segments,
      follow_ups]

/-- A path in normal form is followed name by name, unless something is wrong with it. -/
theorem locate_path (t : FileTree) (purpose : Purpose) (g : NormalForm) :
    ∃ expand, t.locate purpose g.path
      = match g.path.fault with
        | some e => .error e
        | none => t.follow purpose expand [] g.names := by
  obtain ⟨expand, hfollow⟩ := t.followLinks_eq purpose maxLinks [] g.path.steps
  refine ⟨expand, ?_⟩
  rw [locate, Path.fault, hfollow]
  split_ifs with hnul hempty hlong
  · rfl
  · rfl
  · rfl
  · exact follow_path g (by simpa using hempty)

/-- Directories on the way are passed. -/
theorem follow_through (hclosed : t.IsClosed) {here : Place} {names rest : List (List Char)}
    (hnames : ∀ n ∈ names, IsName n) (hrest : rest ≠ [[]])
    (hclear : (t.passage here names).2 = none) (hdir : t.get? (here ++ names) = some .directory) :
    t.follow purpose expand here (names ++ rest)
      = t.follow purpose expand (here ++ names) rest := by
  induction names generalizing here with
  | nil => rw [List.nil_append, List.append_nil]
  | cons n names ih =>
    obtain ⟨hn, hnames⟩ := List.forall_mem_cons.mp hnames
    have hsplit : here ++ n :: names = here ++ [n] ++ names := by simp
    rw [hsplit] at hdir ⊢
    have hhere := hclosed.directory_on_way hdir
      ((List.prefix_append here [n]).trans (List.prefix_append _ _))
    have hnext := hclosed.directory_on_way hdir (List.prefix_append (here ++ [n]) names)
    have hslash : names ++ rest ≠ [[]] := by
      rcases names with - | ⟨m, names⟩
      · exact hrest
      · intro h
        exact (hnames m List.mem_cons_self).1.1 (List.cons.inj h).1
    rw [passage, hnext] at hclear
    rw [List.cons_append, follow_name hhere hn hslash, hnext]
    by_cases hlong : maxName < byteLength n
    · rw [if_pos hlong] at hclear
      cases hclear
    · rw [if_neg hlong] at hclear
      rw [if_neg hlong]
      exact ih hnames hclear hdir

/-- A path to something in a directory is followed to what is there. -/
theorem locate_child (hlink : t.LinkFree) (hclosed : t.IsClosed) {g g' : NormalForm}
    {n : List Char} (hnames : g'.names = g.names ++ [n]) (hclear : (t.passage [] g.names).2 = none)
    (hdir : t.get? g.names = some .directory) (purpose : Purpose) :
    t.locate purpose g'.path
      = match g'.path.fault with
        | some e => .error e
        | none =>
          if maxName < byteLength n then .error .nameTooLong
          else
            match t.get? g'.names with
            | none => .ok (.free g'.names)
            | some e => .ok (.entry g'.names e) := by
  obtain ⟨expand, hlocate⟩ := t.locate_path purpose g'
  have hn : IsName n := g'.isName n (by rw [hnames]; simp)
  rw [hlocate, hnames, follow_through hclosed g.isName (by simpa using hn.1.1) hclear hdir,
    List.nil_append, follow_name hdir hn (by simp)]
  rcases hget : t.get? (g.names ++ [n]) with - | ⟨contents | - | target⟩
  · -- nothing is there
    rfl
  · -- a file
    rw [follow, hget]
  · -- a directory
    rw [follow, hget]
  · -- there are no links
    exact absurd hget (hlink _ _)

end Normal

/-! ### Making directories -/

/-- What is in the way of the directories of a path. -/
def obstacle (t : FileTree) (p : Path) : Option IoError :=
  if p.chars.isEmpty then none
  else
    match p.fault with
    | some e => some e
    | none => (t.passage [] p.place).2

/-- How far the directories of a path can be made. -/
def reach (t : FileTree) (p : Path) : Place :=
  match p.fault with
  | some _ => []
  | none => (t.passage [] p.place).1

/-- The same tree, but for directories on the whole way to a place. -/
structure Made (t t' : FileTree) (place : Place) : Prop where
  view : ∀ q, t'.get? q = if t.get? q = none ∧ q <+: place then some .directory else t.get? q
  way : ∀ q, q <+: place → t'.get? q = some .directory

theorem Made.of_directory (hclosed : t.IsClosed) {place : Place}
    (h : t.get? place = some .directory) : t.Made t place := by
  have hway : ∀ q, q <+: place → t.get? q = some .directory :=
    fun q hq => hclosed.directory_on_way h hq
  refine ⟨?_, hway⟩
  intro q
  rw [if_neg]
  rintro ⟨hnone, hlead⟩
  rw [hway q hlead] at hnone
  cases hnone

theorem Made.trans {a b : Place} (h : t.Made t' a) (h' : t'.Made t'' b) (hab : a <+: b) :
    t.Made t'' b := by
  refine ⟨?_, h'.way⟩
  intro q
  rw [h'.view q, h.view q]
  by_cases hq : t.get? q = none ∧ q <+: a
  · rw [if_pos hq, if_neg (by simp), if_pos ⟨hq.1, hq.2.trans hab⟩]
  · rw [if_neg hq]

/-- A directory is made in a directory. -/
theorem Made.put {place : Place} (hnone : t.get? place = none)
    (habove : ∀ q, q <+: place → q ≠ place → t.get? q = some .directory) :
    t.Made (t.put place .directory) place := by
  have hview := fun q => get?_put t place q .directory (ne_root_of_get? (by rw [hnone]; simp))
  constructor
  · intro q
    rw [hview]
    by_cases hq : q = place
    · -- the place of the new directory
      rw [if_pos hq, if_pos ⟨hq ▸ hnone, hq ▸ List.prefix_rfl⟩]
    · -- any other place
      rw [if_neg hq, if_neg]
      rintro ⟨hfree, hlead⟩
      rw [habove q hlead hq] at hfree
      cases hfree
  · intro q hlead
    rw [hview]
    split_ifs with hq
    · rfl
    · exact habove q hlead hq

theorem Made.adds {place : Place} (h : t.Made t' place) : t.AddsDirectories t' := by
  intro q
  rw [h.view q]
  by_cases hq : t.get? q = none ∧ q <+: place
  · rw [if_pos hq]
    exact .inr ⟨hq.1, rfl⟩
  · rw [if_neg hq]
    exact .inl rfl

/-- What is made stands in directories. -/
theorem Made.isClosed (hclosed : t.IsClosed) {place : Place} (h : t.Made t' place) :
    t'.IsClosed := by
  intro above n e he
  rw [h.view] at he
  by_cases hnew : t.get? (above ++ [n]) = none ∧ above ++ [n] <+: place
  · exact h.way _ ((List.prefix_append _ _).trans hnew.2)
  · rw [if_neg hnew] at he
    exact h.adds.keeps _ (hclosed _ _ _ he)

/-- Files stay where they are. -/
theorem AddsDirectories.any_isFile (h : t.AddsDirectories t') (q : Place) :
    (t'.get? q).any Entry.isFile = (t.get? q).any Entry.isFile := by
  rcases h q with h | ⟨hnone, hdir⟩
  · rw [h]
  · rw [hnone, hdir]
    rfl

theorem prefix_passage (here : Place) (names : List (List Char)) :
    here <+: (t.passage here names).1 := by
  induction names generalizing here with
  | nil => exact List.prefix_rfl
  | cons n rest ih =>
    rw [passage]
    by_cases hlong : maxName < byteLength n
    · rw [if_pos hlong]
    · rw [if_neg hlong]
      by_cases hfile : (t.get? (here ++ [n])).any Entry.isFile = true
      · rw [if_pos hfile]
      · rw [if_neg hfile]
        exact (List.prefix_append _ _).trans (ih _)

/-- The passage goes no further than the names. -/
theorem passage_isPrefix (here : Place) (names : List (List Char)) :
    (t.passage here names).1 <+: here ++ names := by
  induction names generalizing here with
  | nil => simp [passage]
  | cons n rest ih =>
    rw [passage]
    by_cases hlong : maxName < byteLength n
    · rw [if_pos hlong]
      exact List.prefix_append _ _
    · rw [if_neg hlong]
      by_cases hfile : (t.get? (here ++ [n])).any Entry.isFile = true
      · rw [if_pos hfile]
        exact List.prefix_append _ _
      · rw [if_neg hfile]
        have := ih (here ++ [n])
        rwa [List.append_assoc] at this

/-- What an operation reports that fails with the given error, if any. -/
def reported (e : Option IoError) : Except IoError Unit :=
  match e with
  | none => .ok ()
  | some e => .error e

/-- What making the directories of a path has to do. -/
def MakesDirectories (t : FileTree) (p : Path) (result : FileTree × Except IoError Unit) : Prop :=
  result.2 = reported (t.obstacle p) ∧ t.Made result.1 (t.reach p)

section Make

variable {g : NormalForm}

theorem obstacle_path (hfault : g.path.fault = none) :
    t.obstacle g.path = (t.passage [] g.names).2 := by
  rw [obstacle, if_neg (by simpa using (Path.fault_eq_none.mp hfault).2.1), hfault, place_path]

theorem reach_path (hfault : g.path.fault = none) :
    t.reach g.path = (t.passage [] g.names).1 := by
  rw [reach, hfault, place_path]

/-- The way to a directory that can be made is clear. -/
theorem clear_of_obstacle (h : t.obstacle g.path = none) :
    (t.passage [] g.names).2 = none ∧ t.reach g.path = g.names := by
  by_cases hempty : g.path.chars = []
  · have hsegs : g.segments = [] := by
      by_contra hsegs
      exact g.chars_path_ne_nil hsegs hempty
    obtain ⟨-, hnames⟩ := List.append_eq_nil_iff.mp hsegs
    rw [hnames]
    refine ⟨rfl, ?_⟩
    rw [reach, Path.fault, hempty]
    rfl
  · rcases hfault : g.path.fault with - | e
    · rw [obstacle_path hfault] at h
      rw [reach_path hfault]
      exact ⟨h, passage_clear h⟩
    · rw [obstacle, if_neg (by simpa using hempty), hfault] at h
      cases h

/-- Directories are made on the way to a path, and no further. -/
theorem reach_isPrefix (t : FileTree) (g : NormalForm) : t.reach g.path <+: g.names := by
  rcases hfault : g.path.fault with - | e
  · rw [reach_path hfault]
    exact passage_isPrefix [] g.names
  · rw [reach, hfault]
    exact List.nil_prefix

theorem makeDirectory_path (t : FileTree) (g : NormalForm) (hfault : g.path.fault = none) :
    ∃ expand, t.makeDirectory g.path
      = match t.follow .itself expand [] g.names with
        | .error e => .error e
        | .ok (.entry _ _) => .error .alreadyExists
        | .ok (.free place) => .ok (t.put place .directory) := by
  obtain ⟨expand, hlocate⟩ := t.locate_path .itself g
  rw [hfault] at hlocate
  refine ⟨expand, ?_⟩
  rcases hfollow : t.follow .itself expand [] g.names with e | ⟨place, e⟩ | place <;>
    simp only [makeDirectory, hlocate, hfollow]

/-- Where a look-up does not end at a directory there is none. -/
theorem isDirectory_path (t : FileTree) (g : NormalForm) (hfault : g.path.fault = none) :
    ∃ expand, t.isDirectory g.path
      = match t.follow .target expand [] g.names with
        | .ok (.entry _ e) => e.isDirectory
        | _ => false := by
  obtain ⟨expand, hlocate⟩ := t.locate_path .target g
  rw [hfault] at hlocate
  refine ⟨expand, ?_⟩
  rw [isDirectory, entryAt?, hlocate]
  simp only
  split <;> simp_all

/-- One directory is made where nothing on the way to it is missing. -/
theorem ensureDirectory_path (hlink : t.LinkFree) (hclosed : t.IsClosed)
    (hne : g.path.chars ≠ []) (hthere : t.makeDirectory g.path ≠ .error .notFound) :
    t.MakesDirectories g.path (t.ensureDirectory g.path) := by
  rcases hfault : g.path.fault with - | e
  · -- both look-ups follow the same names, so one descent answers them
    obtain ⟨expand, hmake⟩ := makeDirectory_path t g hfault
    obtain ⟨expand', hdirectory⟩ := isDirectory_path t g hfault
    rw [MakesDirectories, obstacle_path hfault, reach_path hfault, ensureDirectory]
    cases descent hlink hclosed g.isName t.get?_root with
    | missing init n hnames habove hpassage hfollow =>
      rw [hmake, hfollow] at hthere
      exact absurd rfl hthere
    | blocked e he hpassage hreach hfollow =>
      rw [hmake, hfollow, hdirectory, hfollow, hpassage]
      exact ⟨rfl, .of_directory hclosed hreach⟩
    | file contents hpassage hreach hfollow =>
      rw [hmake, hfollow, hdirectory, hfollow, hpassage]
      exact ⟨rfl, .of_directory hclosed hreach⟩
    | directory hpassage hget hfollow =>
      rw [hmake, hfollow, hdirectory, hfollow, hpassage]
      exact ⟨rfl, .of_directory hclosed hget⟩
    | free hpassage hnone habove hfollow =>
      rw [hmake, hfollow, hpassage]
      exact ⟨rfl, .put hnone habove⟩
  · have hlocate : ∀ purpose, t.locate purpose g.path = .error e := by
      intro purpose
      obtain ⟨expand, hlocate⟩ := t.locate_path purpose g
      rw [hlocate, hfault]
    have hdirectory : t.isDirectory g.path = false := by
      rw [isDirectory, entryAt?, hlocate]
      rfl
    rw [MakesDirectories, ensureDirectory, makeDirectory, hlocate, hdirectory, obstacle,
      if_neg (by simpa using hne), reach, hfault]
    exact ⟨rfl, .of_directory hclosed t.get?_root⟩

/-- A directory is not found where the one above it is missing. -/
theorem missing_of_notFound (hlink : t.LinkFree) (hclosed : t.IsClosed) (hne : g.path.chars ≠ [])
    (h : t.makeDirectory g.path = .error .notFound) :
    g.path.fault = none ∧ ∃ init n, g.names = init ++ [n] ∧ t.get? init = none
      ∧ ∀ e, (t.passage [] g.names).2 = some e → e = .nameTooLong := by
  rcases hfault : g.path.fault with - | e
  · obtain ⟨expand, hmake⟩ := makeDirectory_path t g hfault
    rw [hmake] at h
    -- of the ways a descent ends only a missing directory comes to this error
    cases descent hlink hclosed g.isName t.get?_root with
    | missing init n hnames habove hpassage hfollow =>
      exact ⟨rfl, init, n, hnames, habove, hpassage⟩
    | blocked e he hpassage hreach hfollow =>
      rw [hfollow] at h
      exact absurd (Except.error.inj h) he
    | file contents hpassage hreach hfollow =>
      rw [hfollow] at h
      cases h
    | directory hpassage hget hfollow =>
      rw [hfollow] at h
      cases h
    | free hpassage hnone habove hfollow =>
      rw [hfollow] at h
      cases h
  · obtain ⟨expand, hlocate⟩ := t.locate_path .itself g
    rw [makeDirectory, hlocate, hfault] at h
    obtain rfl := Except.error.inj h
    rw [Path.fault] at hfault
    split_ifs at hfault with hnul hempty hlong
    · cases hfault
    · exact absurd (by simpa using hempty) hne
    · cases hfault

/-- The directories above a path are made on the way to it. -/
theorem MakesDirectories.below (hlink : t.LinkFree) (hclosed : t.IsClosed) {g' : NormalForm}
    {n : List Char} (hnames : g.names = g'.names ++ [n]) (hfault : g.path.fault = none)
    (hfault' : g'.path.fault = none)
    (hpassage : ∀ e, (t.passage [] g.names).2 = some e → e = .nameTooLong)
    (result : FileTree × Except IoError Unit) :
    t.MakesDirectories g'.path result → t.MakesDirectories g.path
      (match result with
        | (t', .ok ()) => t'.ensureDirectory g.path
        | (t', .error e) => (t', .error e)) := by
  obtain ⟨t', outcome⟩ := result
  rintro ⟨hresult, hmade⟩
  rw [obstacle_path hfault'] at hresult
  rw [reach_path hfault'] at hmade
  have hconcat := passage_concat (t := t) [] g'.names n
  rw [← hnames] at hconcat
  rcases hway : t.passage [] g'.names with ⟨place, - | e⟩
  · -- the directories above are there now, and one more is made
    rw [hway] at hresult hmade hconcat
    obtain rfl : place = g'.names := by
      have := passage_clear (congrArg Prod.snd hway)
      rwa [hway] at this
    obtain rfl : outcome = .ok () := hresult
    have hsame : t'.passage [] g.names = t.passage [] g.names :=
      passage_congr fun q _ => hmade.adds.any_isFile q
    have hclosed' := hmade.isClosed hclosed
    have hthere : t'.makeDirectory g.path ≠ .error .notFound := by
      intro h
      obtain ⟨-, init, m, hinit, habove, -⟩ := missing_of_notFound (hmade.adds.linkFree hlink)
        hclosed' (Path.fault_eq_none.mp hfault).2.1 h
      obtain ⟨rfl, -⟩ := List.append_inj' (hnames.symm.trans hinit) rfl
      rw [hmade.way _ List.prefix_rfl] at habove
      cases habove
    obtain ⟨hresult', hmade'⟩ := ensureDirectory_path (hmade.adds.linkFree hlink) hclosed'
      (Path.fault_eq_none.mp hfault).2.1 hthere
    rw [obstacle_path hfault, hsame] at hresult'
    rw [reach_path hfault, hsame] at hmade'
    refine ⟨?_, ?_⟩
    · rw [obstacle_path hfault]
      exact hresult'
    · rw [reach_path hfault]
      refine hmade.trans hmade' ?_
      rw [hconcat]
      exact prefix_passage _ _
  · -- what is in the way above is in the way
    rw [hway] at hresult hmade hconcat
    obtain rfl : outcome = .error e := hresult
    have hsame : t.passage [] g.names = (place, some e) := by
      cases e with
      | alreadyExists => cases hpassage .notDirectory (congrArg Prod.snd hconcat)
      | _ => exact hconcat
    refine ⟨?_, ?_⟩
    · rw [obstacle_path hfault, hsame]
      rfl
    · rw [reach_path hfault, hsame]
      exact hmade

/-- **Making directories does what it has to do.** -/
theorem makeDirectoriesUpTo_path (hlink : t.LinkFree) (hclosed : t.IsClosed) {fuel : Nat}
    (hfuel : g.names.length < fuel) :
    t.MakesDirectories g.path (makeDirectoriesUpTo fuel t g.path) := by
  -- each round goes up one name, and the root is never missing
  induction fuel generalizing g with
  | zero => cases hfuel
  | succ fuel ih =>
    rw [makeDirectoriesUpTo]
    by_cases hempty : g.path.chars = []
    · rw [if_pos (by simpa using hempty), MakesDirectories, obstacle,
        if_pos (by simpa using hempty)]
      refine ⟨rfl, .of_directory hclosed ?_⟩
      rw [reach, Path.fault, hempty]
      rfl
    · rw [if_neg (by simpa using hempty)]
      by_cases hthere : t.makeDirectory g.path = .error .notFound
      · obtain ⟨hfault, init, n, hnames, hnone, hpassage⟩ :=
          missing_of_notFound hlink hclosed hempty hthere
        have hinit : init ≠ [] := by
          rintro rfl
          cases hnone
        -- the directories above first, then this one
        obtain ⟨g', rfl, hparent, hne, rest, hchars⟩ := g.exists_above hnames hinit
        rw [hthere, hparent]
        have habove : t.MakesDirectories g'.path (makeDirectoriesUpTo fuel t g'.path) := by
          refine ih ?_
          rw [hnames, List.length_append, List.length_singleton] at hfuel
          exact Nat.lt_of_succ_lt_succ hfuel
        exact MakesDirectories.below hlink hclosed hnames hfault
          (Path.fault_of_append hchars hne hfault) hpassage _ habove
      · have hensure := ensureDirectory_path hlink hclosed hempty hthere
        split
        · next heq _ => exact absurd heq hthere
        · exact hensure

theorem makeDirectories_path (hlink : t.LinkFree) (hclosed : t.IsClosed) (g : NormalForm) :
    t.MakesDirectories g.path (t.makeDirectories g.path) := by
  -- the path has at least a character for each of its names
  refine makeDirectoriesUpTo_path hlink hclosed (Nat.lt_succ_of_le ?_)
  refine Nat.le_trans ?_ (Nat.le_trans
    (length_le_slashed fun s hs => (g.isSegment_segments s hs).1) ?_)
  · rw [NormalForm.segments, List.length_append]
    exact Nat.le_add_left _ _
  · rw [NormalForm.path, ofSegments, List.length_append]
    exact Nat.le_add_left _ _

end Make

end FileTree

end Scaffold

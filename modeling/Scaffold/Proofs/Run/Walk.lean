/-
Scaffold/Proofs/Run/Walk.lean

What a walk finds, exactly.

A file is found if every directory on the way to it is entered, and its own
name is text (`LeadsTo`); the rest is out of the question, whatever stands there.
A walk goes deep enough for every such file, since each step of the way is an
entry of its own (`LeadsTo.length_le`), so it finds just those
(`mem_filesBelow_iff`), and each of them once (`walk_nodup`).

Where everything stands in a directory, the way to a file is told by its place
alone (`leadsTo_iff`).
-/
import Mathlib.Data.List.Induction
import Mathlib.Data.List.Perm.Subperm
import Scaffold.Proofs.FileTree.Listing
import Scaffold.Run.Discovery

namespace Scaffold

variable {l : Listing} {here : List FileName} {names : List (List Char)} {depth : Nat}

/-- Names that lead from a place to a file, under directories that are entered. -/
inductive LeadsTo (l : Listing) : List FileName → List (List Char) → Prop
  | file {here : List FileName} {name : List Char} {contents : ByteArray}
    (mem : (here ++ [.text name], .file contents) ∈ l.entries) : LeadsTo l here [name]
  | directory {here : List FileName} {name : List Char} {names : List (List Char)}
    (mem : (here ++ [.text name], .directory) ∈ l.entries)
    (entered : isSkippedDirectory name = false) (below : LeadsTo l (here ++ [.text name]) names) :
    LeadsTo l here (name :: names)

/-! ### A step of a walk -/

section Step

variable {enter : FileName → List (List (List Char))} {name : FileName} {e : Entry}

theorem mem_foundUnder : names ∈ foundUnder enter (name, e)
    ↔ ∃ text, name = .text text
      ∧ ((∃ contents, e = .file contents) ∧ names = [text]
        ∨ e = .directory ∧ isSkippedDirectory text = false
          ∧ ∃ rest ∈ enter (.text text), names = text :: rest) := by
  cases name with
  | stray bytes notText => simp [foundUnder]
  | text text =>
    cases e with
    | file contents => simp [foundUnder]
    | link target => simp [foundUnder]
    | directory =>
      cases hskipped : isSkippedDirectory text <;> simp [foundUnder, hskipped, @eq_comm _ names]

/-- What is found under a name begins with it. -/
theorem head?_of_mem_foundUnder (h : names ∈ foundUnder enter (name, e)) :
    names.head?.map FileName.text = some name := by
  obtain ⟨text, rfl, ⟨-, rfl⟩ | ⟨-, -, rest, -, rfl⟩⟩ := mem_foundUnder.mp h
  · rfl
  · rfl

theorem foundUnder_nodup (h : (enter name).Nodup) : (foundUnder enter (name, e)).Nodup := by
  cases name with
  | stray bytes notText => exact List.nodup_nil
  | text text =>
    cases e with
    | file contents => exact List.nodup_singleton _
    | link target => exact List.nodup_nil
    | directory =>
      rw [foundUnder]
      split_ifs
      · exact List.nodup_nil
      · exact h.map List.cons_injective

end Step

theorem mem_walk_succ : names ∈ walk l (depth + 1) here
    ↔ (∃ name contents, (here ++ [.text name], .file contents) ∈ l.entries ∧ names = [name])
      ∨ ∃ name, (here ++ [.text name], .directory) ∈ l.entries ∧ isSkippedDirectory name = false
        ∧ ∃ rest ∈ walk l depth (here ++ [.text name]), names = name :: rest := by
  rw [walk, List.mem_flatMap]
  constructor
  · rintro ⟨⟨name, e⟩, hchild, hmem⟩
    have hentry := Listing.mem_children.mp hchild
    obtain ⟨text, rfl, ⟨⟨contents, rfl⟩, rfl⟩ | ⟨rfl, hentered, hrest⟩⟩ := mem_foundUnder.mp hmem
    · exact .inl ⟨text, contents, hentry, rfl⟩
    · exact .inr ⟨text, hentry, hentered, hrest⟩
  · rintro (⟨name, contents, hentry, rfl⟩ | ⟨name, hentry, hentered, hrest⟩)
    · exact ⟨_, Listing.mem_children.mpr hentry,
        mem_foundUnder.mpr ⟨name, rfl, .inl ⟨⟨contents, rfl⟩, rfl⟩⟩⟩
    · exact ⟨_, Listing.mem_children.mpr hentry,
        mem_foundUnder.mpr ⟨name, rfl, .inr ⟨rfl, hentered, hrest⟩⟩⟩

/-! ### A whole walk -/

/-- **What a walk finds**: the files it is led to within its depth. -/
theorem mem_walk_iff : names ∈ walk l depth here ↔ names.length ≤ depth ∧ LeadsTo l here names := by
  induction depth generalizing here names with
  | zero =>
    refine iff_of_false (by simp [walk]) ?_
    rintro ⟨hlength, hleads⟩
    cases hleads <;> simp at hlength
  | succ depth ih =>
    rw [mem_walk_succ]
    constructor
    · -- what a walk finds is led to
      rintro (⟨name, contents, hentry, rfl⟩ | ⟨name, hentry, hentered, rest, hrest, rfl⟩)
      · exact ⟨by simp, .file hentry⟩
      · obtain ⟨hlength, hleads⟩ := ih.mp hrest
        exact ⟨Nat.succ_le_succ hlength, .directory hentry hentered hleads⟩
    · -- what is led to in few enough steps is found
      rintro ⟨hlength, hleads⟩
      cases hleads with
      | file hentry => exact .inl ⟨_, _, hentry, rfl⟩
      | directory hentry hentered hbelow =>
        exact .inr ⟨_, hentry, hentered, _, ih.mpr ⟨Nat.le_of_succ_le_succ hlength, hbelow⟩, rfl⟩

/-- **A walk finds nothing twice.** -/
theorem walk_nodup (l : Listing) (depth : Nat) (here : List FileName) :
    (walk l depth here).Nodup := by
  induction depth generalizing here with
  | zero => exact List.nodup_nil
  | succ depth ih =>
    rw [walk, List.nodup_flatMap]
    refine ⟨fun x _ => foundUnder_nodup (ih _), ?_⟩
    -- what is found under different names differs in its first name
    refine (List.pairwise_map.mp (l.children_nodup here)).imp ?_
    rintro ⟨name, e⟩ ⟨name', e'⟩ hne names hmem hmem'
    have h := head?_of_mem_foundUnder hmem
    rw [head?_of_mem_foundUnder hmem'] at h
    exact hne (Option.some.inj h).symm

/-! ### Depth -/

namespace LeadsTo

/-- Each step of the way to a file is an entry. -/
theorem mem_of_lt (h : LeadsTo l here names) {k : Nat} (hk : k < names.length) :
    here ++ (names.take (k + 1)).map .text ∈ l.entries.map Prod.fst := by
  induction h generalizing k with
  | file mem =>
    obtain rfl : k = 0 := Nat.lt_one_iff.mp hk
    exact List.mem_map_of_mem mem
  | directory mem entered below ih =>
    cases k with
    | zero => exact List.mem_map_of_mem mem
    | succ k =>
      have h := ih (Nat.lt_of_succ_lt_succ hk)
      rwa [List.append_assoc] at h

/-- The way to a file is no longer than there are entries. -/
theorem length_le (h : LeadsTo l here names) : names.length ≤ l.entries.length := by
  let way := (List.range names.length).map fun k =>
    here ++ (names.take (k + 1)).map FileName.text
  have hnodup : way.Nodup := by
    refine List.Nodup.map_on ?_ List.nodup_range
    intro j hj k hk hjk
    rw [List.mem_range] at hj hk
    have := congrArg List.length hjk
    simp only [List.length_append, List.length_map, List.length_take] at this
    omega
  have hsub : way ⊆ l.entries.map Prod.fst := by
    intro place hplace
    obtain ⟨k, hk, rfl⟩ := List.mem_map.mp hplace
    exact h.mem_of_lt (List.mem_range.mp hk)
  have hle := (hnodup.subperm hsub).length_le
  rwa [List.length_map, List.length_range, List.length_map] at hle

end LeadsTo

/-- **What is found below a place**: all the files it leads to. -/
theorem mem_filesBelow_iff : names ∈ filesBelow l here ↔ LeadsTo l here names := by
  rw [filesBelow, mem_walk_iff]
  exact ⟨And.right, fun h => ⟨Nat.le_succ_of_le h.length_le, h⟩⟩

/-! ### Listings in which everything stands in a directory -/

namespace Listing

/-- Everything stands in a directory. -/
def IsClosed (l : Listing) : Prop :=
  ∀ place name e, (place ++ [name], e) ∈ l.entries → place = [] ∨ (place, .directory) ∈ l.entries

theorem IsClosed.above (hclosed : l.IsClosed) {place more : List FileName} {e : Entry}
    (h : (place ++ more, e) ∈ l.entries) (hmore : more ≠ []) :
    place = [] ∨ (place, .directory) ∈ l.entries := by
  induction more using List.reverseRecOn generalizing e with
  | nil => exact absurd rfl hmore
  | append_singleton front name ih =>
    rw [← List.append_assoc] at h
    rcases hclosed _ _ _ h with hnil | hdir
    · exact .inl (List.append_eq_nil_iff.mp hnil).1
    · by_cases hfront : front = []
      · subst hfront
        exact .inr (by rwa [List.append_nil] at hdir)
      · exact ih hdir hfront

end Listing

/-- The way to a file in words: no directory on it is skipped. -/
theorem leadsTo_iff (hclosed : l.IsClosed) : LeadsTo l here names
    ↔ names ≠ [] ∧ (∀ d ∈ names.dropLast, isSkippedDirectory d = false)
      ∧ ∃ contents, (here ++ names.map .text, .file contents) ∈ l.entries := by
  constructor
  · -- each directory on the way is entered
    intro h
    induction h with
    | file mem => exact ⟨by simp, by simp, _, mem⟩
    | directory mem entered below ih =>
      obtain ⟨hne, hdirs, contents, hfile⟩ := ih
      refine ⟨by simp, ?_, contents, by rwa [List.append_assoc] at hfile⟩
      rw [List.dropLast_cons_of_ne_nil hne]
      exact List.forall_mem_cons.mpr ⟨entered, hdirs⟩
  · -- a closed listing has every directory on the way
    rintro ⟨hne, hdirs, contents, hfile⟩
    induction names generalizing here with
    | nil => exact absurd rfl hne
    | cons name rest ih =>
      by_cases hrest : rest = []
      · subst hrest
        exact .file hfile
      · rw [List.dropLast_cons_of_ne_nil hrest] at hdirs
        obtain ⟨hname, hdirs⟩ := List.forall_mem_cons.mp hdirs
        have hsplit : here ++ (name :: rest).map FileName.text
            = here ++ [.text name] ++ rest.map .text := by simp
        rw [hsplit] at hfile
        have hdir := (hclosed.above hfile (by simpa using hrest)).resolve_left (by simp)
        exact .directory hdir hname (ih hrest hdirs hfile)

end Scaffold

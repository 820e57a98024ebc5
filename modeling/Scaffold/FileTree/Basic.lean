/-
Scaffold/FileTree/Basic.lean

A file system as a value.

A `FileTree` says what stands at each place: a regular file with its bytes, a
directory, or a symbolic link.  A place is the list of names that lead to it
from the root, which is always a directory.  No place occurs twice; apart from
that the order of the entries says nothing, it is the order in which
directories happen to list what is in them.

Names are text here, as paths are.  What stands under other names is in no tree:
no path leads there, and a walk over directories, which comes across it
(`Listing`), passes it by.  It is taken for granted that directories can be
listed, that what stands in a place can be looked at, and that nobody else
changes the tree.

The view of a tree is `get?`, and every change of one is a `put` or an
`erase`; `get?_put` and `get?_erase` say what they do to the view.
-/
import Scaffold.Path.Basic

namespace Scaffold

/-- Where something stands: the names from the root down. -/
abbrev Place := List (List Char)

/-- What stands at a place. -/
inductive Entry where
  | file (contents : ByteArray)
  | directory
  | link (target : Path)

namespace Entry

instance : DecidableEq Entry
  | file a, file b =>
    decidable_of_iff (a.data = b.data)
      ⟨fun h => congrArg file (ByteArray.ext h), fun h => congrArg ByteArray.data (file.inj h)⟩
  | directory, directory => isTrue rfl
  | link p, link q => decidable_of_iff (p = q) ⟨congrArg link, link.inj⟩
  | file _, directory | file _, link _ | directory, file _ | directory, link _ | link _, file _
  | link _, directory => isFalse nofun

def isFile : Entry → Bool
  | file _ => true
  | _ => false

def isDirectory : Entry → Bool
  | directory => true
  | _ => false

end Entry

/-- What stands at each place of a file system. -/
structure FileTree where
  entries : List (Place × Entry)
  nodup : (entries.map Prod.fst).Nodup

namespace FileTree

def empty : FileTree := ⟨[], List.nodup_nil⟩

/-- What stands at a place. -/
def get? (t : FileTree) (place : Place) : Option Entry :=
  if place = [] then some .directory
  else (t.entries.find? (fun e => decide (e.1 = place))).map (·.2)

/-- The entries at other places. -/
def others (t : FileTree) (place : Place) : List (Place × Entry) :=
  t.entries.filter (fun e => decide (e.1 ≠ place))

theorem others_nodup (t : FileTree) (place : Place) :
    ((t.others place).map Prod.fst).Nodup :=
  t.nodup.sublist (List.filter_sublist.map _)

/-- The tree without what stands at a place. -/
def erase (t : FileTree) (place : Place) : FileTree := ⟨t.others place, t.others_nodup place⟩

theorem not_mem_others (t : FileTree) (place : Place) :
    place ∉ (t.others place).map Prod.fst := by
  intro h
  obtain ⟨e, he, rfl⟩ := List.mem_map.mp h
  simp [others] at he

/-- The tree with an entry put in a place. -/
def put (t : FileTree) (place : Place) (e : Entry) : FileTree :=
  ⟨(place, e) :: t.others place,
    List.nodup_cons.mpr ⟨t.not_mem_others place, t.others_nodup place⟩⟩

/-! ### The view of a change -/

@[simp] theorem get?_root (t : FileTree) : t.get? [] = some .directory := rfl

theorem find?_others (t : FileTree) (place place' : Place) (h : place' ≠ place) :
    (t.others place).find? (fun e => decide (e.1 = place'))
      = t.entries.find? (fun e => decide (e.1 = place')) := by
  rw [others, List.find?_filter]
  congr 1
  funext e
  by_cases he : e.1 = place' <;> simp [he, h]

/-- What stands where after an entry was put in a place. -/
theorem get?_put (t : FileTree) (place place' : Place) (e : Entry) (hp : place ≠ []) :
    (t.put place e).get? place' = if place' = place then some e else t.get? place' := by
  by_cases h : place' = place
  · subst h; simp [get?, put, hp]
  · by_cases h' : place' = []
    · subst h'; simp [Ne.symm hp]
    · simp [get?, put, h, h', Ne.symm h, find?_others]

/-- What stands where after a place was emptied. -/
theorem get?_erase (t : FileTree) (place place' : Place) (hp : place ≠ []) :
    (t.erase place).get? place' = if place' = place then none else t.get? place' := by
  by_cases h : place' = place
  · subst h
    simp [get?, erase, hp, others, List.find?_eq_none]
  · by_cases h' : place' = []
    · subst h'; simp [Ne.symm hp]
    · simp [get?, erase, h, h', find?_others]

/-- The tree without a place and everything below it. -/
def eraseAll (t : FileTree) (place : Place) : FileTree :=
  ⟨t.entries.filter (fun e => !place.isPrefixOf e.1),
    t.nodup.sublist (List.filter_sublist.map _)⟩

end FileTree

end Scaffold

/-
Scaffold/Proofs/FileTree/Listing.lean

What a tree holds, and what a walk over it is shown.

What stands at a place is what the entries say (`get?_of_mem`, `mem_of_get?`),
and a tree as it is listed has the same entries (`mem_listing`).  In a listing,
the children of a place are the entries one name below it, each name once
(`mem_children`, `children_nodup`).
-/
import Mathlib.Data.List.Nodup
import Scaffold.FileTree.Listing

namespace Scaffold

/-! ### Trees -/

namespace FileTree

variable {t : FileTree} {place : Place} {e : Entry}

theorem get?_of_mem (h : (place, e) ∈ t.entries) (hplace : place ≠ []) :
    t.get? place = some e := by
  rw [get?, if_neg hplace]
  have hnodup := t.nodup
  generalize t.entries = entries at h hnodup
  induction entries with
  | nil => cases h
  | cons x entries ih =>
    rw [List.map_cons, List.nodup_cons] at hnodup
    rcases List.mem_cons.mp h with rfl | h
    · -- the entry found first
      rw [List.find?_cons_of_pos (by simp)]
      rfl
    · -- no other entry has its place
      rw [List.find?_cons_of_neg, ih h hnodup.2]
      simp only [decide_eq_true_eq]
      rintro hx
      exact hnodup.1 (hx ▸ List.mem_map_of_mem h)

theorem mem_of_get? (h : t.get? place = some e) :
    place = [] ∧ e = .directory ∨ (place, e) ∈ t.entries := by
  rw [get?] at h
  split_ifs at h with hplace
  · exact .inl ⟨hplace, (Option.some.inj h).symm⟩
  · obtain ⟨x, hx, rfl⟩ := Option.map_eq_some_iff.mp h
    have hfound := List.find?_some hx
    simp only [decide_eq_true_eq] at hfound
    exact .inr (hfound ▸ List.mem_of_find?_eq_some hx)

theorem mem_listing : (place.map .text, e) ∈ t.listing.entries ↔ (place, e) ∈ t.entries := by
  rw [listing, List.mem_map]
  constructor
  · rintro ⟨⟨place', e'⟩, hmem, heq⟩
    obtain ⟨hplace, rfl⟩ := Prod.mk.inj heq
    exact List.map_injective_iff.mpr (fun _ _ => FileName.text.inj) hplace ▸ hmem
  · exact fun h => ⟨_, h, rfl⟩

/-- Everything that is listed stands under text. -/
theorem exists_of_mem_listing {names : List FileName} (h : (names, e) ∈ t.listing.entries) :
    ∃ place, names = place.map .text ∧ (place, e) ∈ t.entries := by
  obtain ⟨⟨place, e'⟩, hmem, heq⟩ := List.mem_map.mp h
  obtain ⟨rfl, rfl⟩ := Prod.mk.inj heq
  exact ⟨place, rfl, hmem⟩

/-- Below the root of a tree, what it has at a place is what it lists there. -/
theorem mem_listing_iff_get? (hplace : place ≠ []) :
    (place.map .text, e) ∈ t.listing.entries ↔ t.get? place = some e := by
  rw [mem_listing]
  exact ⟨fun h => get?_of_mem h hplace, fun h => (mem_of_get? h).resolve_left fun h => hplace h.1⟩

end FileTree

/-! ### Listings -/

namespace Listing

variable {l : Listing} {here : List FileName} {name : FileName} {e : Entry}

theorem eq_of_mem {place : List FileName} {e' : Entry} (h : (place, e) ∈ l.entries)
    (h' : (place, e') ∈ l.entries) : e = e' :=
  (Prod.mk.inj (List.inj_on_of_nodup_map l.nodup h h' rfl)).2

theorem childOf_eq_some {x : List FileName × Entry} :
    childOf here x = some (name, e) ↔ x = (here ++ [name], e) := by
  obtain ⟨place, e'⟩ := x
  rw [childOf]
  rcases List.eq_nil_or_concat place with rfl | ⟨front, last, rfl⟩
  · simp
  · simp only [List.concat_eq_append, List.getLast?_concat, List.dropLast_concat]
    split_ifs with hfront
    · simp [hfront]
    · simp [hfront]

theorem mem_children : (name, e) ∈ l.children here ↔ (here ++ [name], e) ∈ l.entries := by
  simp only [children, List.mem_filterMap, childOf_eq_some, exists_eq_right]

theorem children_nodup (l : Listing) (here : List FileName) :
    ((l.children here).map Prod.fst).Nodup := by
  refine List.Nodup.map_on ?_ ?_
  · -- at a place there is one entry
    rintro ⟨name, e⟩ h ⟨name', e'⟩ h' rfl
    rw [eq_of_mem (mem_children.mp h) (mem_children.mp h')]
  · refine (List.Nodup.of_map _ l.nodup).filterMap fun x y child h h' => ?_
    rw [childOf_eq_some.mp h, childOf_eq_some.mp h']

end Listing

end Scaffold

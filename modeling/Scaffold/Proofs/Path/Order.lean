/-
Scaffold/Proofs/Path/Order.lean

The order of paths.

Paths are ordered by the keys of their parts, list by list (`le_iff`).
Different parts have different keys (`sortKey_injective`), so what is sorted by
a path shows the same paths in the same order whatever the order it came in
(`map_parts_mergeSort`), and what has one path keeps its order
(`filter_parts_mergeSort`).
-/
import Mathlib.Data.List.Lex
import Mathlib.Data.Nat.Basic
import Scaffold.Path.Basic

namespace Scaffold

namespace Path

theorem sortKey_injective : Function.Injective Part.sortKey := by
  intro a b h
  cases a with
  | name cs =>
    cases b with
    | name ds =>
      have htexts : cs.map Char.toNat = ds.map Char.toNat := (List.cons.inj h).2
      have hchars : Function.Injective Char.toNat := fun c d hcd => Char.toNat_inj.mp hcd
      rw [List.map_injective_iff.mpr hchars htexts]
    | _ => cases h
  | _ =>
    cases b with
    | name ds => cases h
    | _ => first | rfl | cases h

/-- Paths stand in the order of the keys of their parts. -/
theorem le_iff (a b : Path) :
    a.le b = true ↔ a.parts.map Part.sortKey ≤ b.parts.map Part.sortKey := by
  have hnat : Nat.blt = fun m n => decide (m < n) := by
    funext m n
    rw [Bool.eq_iff_iff, Nat.blt_eq, decide_eq_true_eq]
  have hkey : (List.lex · · Nat.blt) = fun x y : List Nat => decide (x < y) := by
    funext x y
    rw [Bool.eq_iff_iff, hnat, List.lex_eq_true_iff_lt, decide_eq_true_eq]
  rw [le, hkey, Bool.not_eq_true', Bool.eq_false_iff, Ne, List.lex_eq_true_iff_lt]
  exact not_lt

protected theorem le_trans (a b c : Path) (hab : a.le b = true) (hbc : b.le c = true) :
    a.le c = true := by
  rw [le_iff] at hab hbc ⊢
  exact le_trans hab hbc

protected theorem le_total (a b : Path) : (a.le b || b.le a) = true := by
  rw [Bool.or_eq_true, le_iff, le_iff]
  exact le_total _ _

/-- **Sorting by paths shows them in one order**, whatever the order before. -/
theorem map_parts_mergeSort {α : Type} (path : α → Path) {xs ys : List α} (h : xs.Perm ys) :
    (xs.mergeSort fun a b => (path a).le (path b)).map (fun a => (path a).parts)
      = (ys.mergeSort fun a b => (path a).le (path b)).map (fun a => (path a).parts) := by
  let R : List Part → List Part → Prop :=
    fun ps qs => ps.map Part.sortKey ≤ qs.map Part.sortKey
  have hanti : ∀ ps qs, R ps qs → R qs ps → ps = qs := fun ps qs h h' =>
    List.map_injective_iff.mpr sortKey_injective (le_antisymm h h')
  have hsorted : ∀ zs : List α,
      ((zs.mergeSort fun a b => (path a).le (path b)).map fun a => (path a).parts).Pairwise R := by
    intro zs
    rw [List.pairwise_map]
    refine List.Pairwise.imp (fun hab => (le_iff _ _).mp hab) (List.pairwise_mergeSort
      (fun a b c => Path.le_trans (path a) (path b) (path c))
      (fun a b => Path.le_total (path a) (path b)) zs)
  refine List.Perm.eq_of_pairwise (fun ps qs _ _ => hanti ps qs) (hsorted xs) (hsorted ys) ?_
  exact (((List.mergeSort_perm _ _).trans h).trans (List.mergeSort_perm _ _).symm).map _

/-- **Sorting by paths leaves what has one path in its order.** -/
theorem filter_parts_mergeSort {α : Type} (path : α → Path) (xs : List α) (p : Path) :
    (xs.mergeSort fun a b => (path a).le (path b)).filter (fun a => (path a).parts = p.parts)
      = xs.filter fun a => (path a).parts = p.parts := by
  have hkept : (xs.filter fun a => (path a).parts = p.parts).Sublist
      (xs.mergeSort fun a b => (path a).le (path b)) := by
    apply List.sublist_mergeSort (fun a b c => Path.le_trans (path a) (path b) (path c))
      (fun a b => Path.le_total (path a) (path b))
    · -- none of them has to be moved for another
      apply List.pairwise_of_forall_mem_list
      intro a ha b hb
      have ha := of_decide_eq_true (List.mem_filter.mp ha).2
      have hb := of_decide_eq_true (List.mem_filter.mp hb).2
      rw [le_iff, ha, hb]
    · exact List.filter_sublist
  have hsub := hkept.filter fun a => (path a).parts = p.parts
  rw [List.filter_filter] at hsub
  simp only [Bool.and_self] at hsub
  apply (hsub.eq_of_length _).symm
  exact (((List.mergeSort_perm _ _).filter _).length_eq).symm

end Path

end Scaffold

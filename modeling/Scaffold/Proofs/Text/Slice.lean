/-
Scaffold/Proofs/Text/Slice.lean

Cutting a text that is put together from parts.

Offsets count bytes, so a cut is where one expects it only at the beginning of
a character.  The lemmas say what a cut of `s ++ t` is in terms of the parts,
and how a slice of a part is a slice of the whole (`slice_within`).
-/
import Mathlib.Tactic.Common
import Scaffold.Text.Basic

namespace Scaffold

namespace Text

/-! ### Lengths -/

theorem byteLength_pos_of_ne_nil {cs : List Char} (h : cs ≠ []) : 0 < byteLength cs := by
  obtain ⟨c, cs, rfl⟩ := List.exists_cons_of_ne_nil h
  rw [byteLength_cons]
  exact Nat.lt_of_lt_of_le c.utf8Size_pos (Nat.le_add_right _ _)

@[simp] theorem byteLength_eq_zero {cs : List Char} : byteLength cs = 0 ↔ cs = [] := by
  constructor
  · intro h
    by_contra hne
    exact absurd h (Nat.ne_of_gt (byteLength_pos_of_ne_nil hne))
  · rintro rfl
    rfl

/-- Of two beginnings of one text, the shorter is a beginning of the longer. -/
theorem eq_append_of_byteLength_le {s t u v : List Char} (h : s ++ t = u ++ v)
    (hle : byteLength s ≤ byteLength u) : ∃ w, u = s ++ w ∧ t = w ++ v := by
  rcases List.append_eq_append_iff.mp h with ⟨w, hu, ht⟩ | ⟨w, hs, hv⟩
  · exact ⟨w, hu, ht⟩
  · have hw : w = [] := by
      rw [hs, byteLength_append] at hle
      exact byteLength_eq_zero.mp (by omega)
    subst hw
    exact ⟨[], by simpa using hs.symm, by simpa using hv.symm⟩

/-! ### Cuts -/

theorem dropBytes_append_add (s t : List Char) (n : Nat) :
    dropBytes (byteLength s + n) (s ++ t) = dropBytes n t := by
  induction s with
  | nil => simp
  | cons c s ih =>
    obtain ⟨k, hk⟩ : ∃ k, c.utf8Size + byteLength s + n = k + 1 :=
      Nat.exists_eq_succ_of_ne_zero (by have := c.utf8Size_pos; omega)
    rw [byteLength_cons, List.cons_append, hk, dropBytes, ← hk, ← ih]
    exact congrArg (dropBytes · _) (by omega)

theorem takeBytes_append_add (s t : List Char) (n : Nat) :
    takeBytes (byteLength s + n) (s ++ t) = s ++ takeBytes n t := by
  induction s with
  | nil => simp
  | cons c s ih =>
    rw [byteLength_cons, List.cons_append, takeBytes, if_pos (by omega), List.cons_append, ← ih]
    exact congrArg (c :: takeBytes · _) (by omega)

@[simp] theorem takeBytes_zero (cs : List Char) : takeBytes 0 cs = [] := by
  simpa using takeBytes_append [] cs

@[simp] theorem takeBytes_byteLength (cs : List Char) : takeBytes (byteLength cs) cs = cs := by
  simpa using takeBytes_append cs []

/-- What comes later does not change a cut that ends before it. -/
theorem takeBytes_append_left {s : List Char} (t : List Char) {n : Nat} (h : n ≤ byteLength s) :
    takeBytes n (s ++ t) = takeBytes n s := by
  induction s generalizing n with
  | nil =>
    obtain rfl : n = 0 := by simpa using h
    simp
  | cons c s ih =>
    rw [byteLength_cons] at h
    rw [List.cons_append, takeBytes, takeBytes]
    split_ifs with hc
    · rw [ih (by omega)]
    · rfl

/-! ### Slices -/

/-- A slice of the second of two texts. -/
theorem slice_append_add (s t : List Char) (m n : Nat) :
    slice (byteLength s + m) (byteLength s + n) (s ++ t) = slice m n t := by
  rw [slice, slice, dropBytes_append_add, Nat.add_sub_add_left]

/-- A slice from the seam of two texts on is cut from the second one. -/
theorem slice_append (s t : List Char) (n : Nat) :
    slice (byteLength s) (byteLength s + n) (s ++ t) = takeBytes n t := by
  rw [slice, dropBytes_append, Nat.add_sub_cancel_left]

theorem slice_of_append (s t u : List Char) :
    slice (byteLength s) (byteLength s + byteLength t) (s ++ (t ++ u)) = t := by
  rw [slice_append, takeBytes_append]

/-- A slice of a part, from the beginning of a character on, is the same slice of the whole. -/
theorem slice_within (front u v back : List Char) {n : Nat} (h : n ≤ byteLength (u ++ v)) :
    slice (byteLength front + byteLength u) (byteLength front + n) (front ++ (u ++ v ++ back))
      = slice (byteLength u) n (u ++ v) := by
  rw [byteLength_append] at h
  rw [slice, slice, dropBytes_append_add, List.append_assoc, dropBytes_append, dropBytes_append,
    takeBytes_append_left _ (by omega)]
  exact congrArg (takeBytes · v) (by omega)

end Text

end Scaffold

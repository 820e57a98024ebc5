/-
Scaffold/Proofs/Text/Pieces.lean

What is cut out of a text stands in it.

A slice, a piece between separators and a trimmed text are parts of the text
they are taken from, so what is made of these by cutting again still stands in
the source (`<:+:`).

* `slice_behind` — a slice stands behind every offset in front of it;
* `isInfix_of_mem_splitWhere`, `isInfix_of_mem_words` — so do pieces and words;
* `trim_isInfix`, `trim_trim` — a trimmed text is a part, and stays as it is.
-/
import Mathlib.Data.List.TakeWhile
import Scaffold.Parameter
import Scaffold.Proofs.Text.Slice

namespace Scaffold

namespace Text

variable {cs u v : List Char}

/-! ### Cuts -/

theorem takeBytes_isPrefix (n : Nat) (cs : List Char) : takeBytes n cs <+: cs := by
  induction cs generalizing n with
  | nil => exact List.prefix_rfl
  | cons c cs ih =>
    rw [takeBytes]
    split_ifs
    · exact (List.prefix_cons_inj c).mpr (ih _)
    · exact List.nil_prefix

theorem dropBytes_isSuffix (n : Nat) (cs : List Char) : dropBytes n cs <:+ cs := by
  induction cs generalizing n with
  | nil => exact List.suffix_rfl
  | cons c cs ih =>
    cases n with
    | zero => exact List.suffix_rfl
    | succ n => exact (ih _).trans (List.suffix_cons c cs)

/-- What stands behind a text stands behind every offset in it. -/
theorem isSuffix_dropBytes {n : Nat} (h : n ≤ byteLength u) (v : List Char) :
    v <:+ dropBytes n (u ++ v) := by
  induction u generalizing n with
  | nil =>
    obtain rfl : n = 0 := Nat.le_zero.mp h
    exact (dropBytes_zero v).symm ▸ List.suffix_rfl
  | cons c u ih =>
    rw [byteLength_cons] at h
    cases n with
    | zero =>
      rw [dropBytes_zero]
      exact List.suffix_append _ _
    | succ n =>
      rw [List.cons_append, dropBytes]
      exact ih (by omega)

/-- **A slice stands behind every offset in front of it.** -/
theorem slice_behind {start stop n : Nat} (hcs : cs = u ++ v)
    (hstart : start = byteLength u) (hn : n ≤ start) :
    slice start stop cs <:+: dropBytes n cs := by
  rw [hcs, slice, hstart, dropBytes_append]
  exact (takeBytes_isPrefix _ v).isInfix.trans (isSuffix_dropBytes (hstart ▸ hn) v).isInfix

/-! ### Pieces -/

/-- Pieces of a text, the first of which the text begins with. -/
def ArePieces (pieces : List (List Char)) (cs : List Char) : Prop :=
  (∀ p ∈ pieces.head?, p <+: cs) ∧ ∀ p ∈ pieces, p <:+: cs

theorem arePieces_nil : ArePieces [[]] [] := by simp [ArePieces]

/-- A piece ends in front of a character. -/
theorem ArePieces.separate {pieces : List (List Char)} (h : ArePieces pieces cs) (c : Char) :
    ArePieces ([] :: pieces) (c :: cs) := by
  refine ⟨by simp, fun p hp => ?_⟩
  rcases List.mem_cons.mp hp with rfl | hp
  · exact List.nil_infix
  · exact (h.2 p hp).trans (List.suffix_cons c cs).isInfix

/-- A character belongs to the piece behind it. -/
theorem ArePieces.glue {pieces : List (List Char)} (c : Char) : ArePieces pieces cs →
    ArePieces (match pieces with
      | [] => [[c]]
      | piece :: pieces => (c :: piece) :: pieces) (c :: cs) := by
  intro h
  cases pieces with
  | nil => simp [ArePieces, List.infix_cons_iff]
  | cons piece pieces =>
    have hfirst : c :: piece <+: c :: cs := (List.prefix_cons_inj c).mpr (h.1 piece rfl)
    refine ⟨by simpa using hfirst, fun p hp => ?_⟩
    rcases List.mem_cons.mp hp with rfl | hp
    · exact hfirst.isInfix
    · exact (h.2 p (List.mem_cons_of_mem _ hp)).trans (List.suffix_cons c cs).isInfix

theorem arePieces_splitWhere (sep : Char → Bool) (cs : List Char) :
    ArePieces (splitWhere sep cs) cs := by
  induction cs with
  | nil => exact arePieces_nil
  | cons c cs ih =>
    rw [splitWhere]
    split_ifs
    · exact ih.separate c
    · exact ih.glue c

theorem isInfix_of_mem_splitWhere {sep : Char → Bool} {p : List Char} (h : p ∈ splitWhere sep cs) :
    p <:+: cs :=
  (arePieces_splitWhere sep cs).2 p h

/-- The pieces of a text have no separator in them. -/
theorem of_mem_splitWhere {sep : Char → Bool} {cs piece : List Char}
    (h : piece ∈ splitWhere sep cs) : ∀ c ∈ piece, sep c = false := by
  induction cs generalizing piece with
  | nil =>
    rw [splitWhere, List.mem_singleton] at h
    simp [h]
  | cons c cs ih =>
    rw [splitWhere] at h
    split_ifs at h with hc
    · rcases List.mem_cons.mp h with rfl | h
      · simp
      · exact ih h
    · rcases hrest : splitWhere sep cs with - | ⟨first, others⟩
      · rw [hrest, List.mem_singleton] at h
        subst h
        simpa using hc
      · rw [hrest] at h ih
        rcases List.mem_cons.mp h with rfl | h
        · intro d hd
          rcases List.mem_cons.mp hd with rfl | hd
          · simpa using hc
          · exact ih List.mem_cons_self d hd
        · exact ih (List.mem_cons_of_mem _ h)

/-- A word of a text stands in it, and is not empty. -/
theorem isInfix_of_mem_words {w : List Char} (h : w ∈ words cs) : w ≠ [] ∧ w <:+: cs := by
  obtain ⟨hmem, hne⟩ := List.mem_filter.mp h
  exact ⟨by simpa using hne, isInfix_of_mem_splitWhere hmem⟩

/-! ### Trimming -/

section Trim

variable {p : Char → Bool}

theorem dropEndWhile_isPrefix (p : Char → Bool) (cs : List Char) : dropEndWhile p cs <+: cs := by
  induction cs with
  | nil => exact List.nil_prefix
  | cons c cs ih =>
    rw [dropEndWhile]
    split
    · split_ifs
      · exact List.nil_prefix
      · exact (List.prefix_cons_inj c).mpr List.nil_prefix
    · exact (List.prefix_cons_inj c).mpr ih

theorem exists_dropped (p : Char → Bool) (cs : List Char) :
    ∃ v, cs = dropEndWhile p cs ++ v ∧ ∀ c ∈ v, p c = true := by
  induction cs with
  | nil => exact ⟨[], rfl, by simp⟩
  | cons c cs ih =>
    obtain ⟨v, hcs, hv⟩ := ih
    rw [dropEndWhile]
    rcases hkept : dropEndWhile p cs with - | ⟨d, kept⟩
    · rw [hkept, List.nil_append] at hcs
      by_cases hc : p c = true
      · exact ⟨c :: v, by simp [hc, hcs], List.forall_mem_cons.mpr ⟨hc, hv⟩⟩
      · exact ⟨v, by simp [hc, hcs], hv⟩
    · exact ⟨v, by rw [hkept] at hcs; exact congrArg (c :: ·) hcs, hv⟩

theorem dropEndWhile_idem (p : Char → Bool) (cs : List Char) :
    dropEndWhile p (dropEndWhile p cs) = dropEndWhile p cs := by
  induction cs with
  | nil => rfl
  | cons c cs ih =>
    rw [dropEndWhile]
    rcases hkept : dropEndWhile p cs with - | ⟨d, kept⟩
    · by_cases hc : p c = true
      · simp [hc, dropEndWhile]
      · simp [hc, dropEndWhile]
    · rw [hkept] at ih
      simp only
      rw [dropEndWhile, ih]

/-- What is dropped at the end of a text is in its last part, if that is not dropped as a whole. -/
theorem dropEndWhile_append {w : List Char} (h : dropEndWhile p w ≠ []) (u : List Char) :
    dropEndWhile p (u ++ w) = u ++ dropEndWhile p w := by
  induction u with
  | nil => rfl
  | cons c u ih =>
    have hne : u ++ dropEndWhile p w ≠ [] := by simp [h]
    rw [List.cons_append, dropEndWhile, ih]
    split
    · next hnil => exact absurd hnil hne
    · rfl

theorem dropEndWhile_append_of_nil {w : List Char} (h : dropEndWhile p w = []) (u : List Char) :
    dropEndWhile p (u ++ w) = dropEndWhile p u := by
  induction u with
  | nil => exact h
  | cons c u ih => rw [List.cons_append, dropEndWhile, dropEndWhile, ih]

theorem dropEndWhile_eq_self {w : List Char} (h : ∀ c ∈ w, p c = false) : dropEndWhile p w = w := by
  obtain ⟨v, hw, hv⟩ := exists_dropped p w
  have hnil : v = [] := List.eq_nil_iff_forall_not_mem.mpr fun c hc => by
    have hpc := h c (by rw [hw]; exact List.mem_append_right _ hc)
    rw [hv c hc] at hpc
    cases hpc
  rw [hnil, List.append_nil] at hw
  exact hw.symm

/-- A text of which nothing is dropped stays in front of another. -/
theorem dropEndWhile_append_right {w : List Char} (h : ∀ c ∈ w, p c = false) (v : List Char) :
    dropEndWhile p (w ++ v) = w ++ dropEndWhile p v := by
  by_cases hv : dropEndWhile p v = []
  · rw [dropEndWhile_append_of_nil hv, hv, List.append_nil, dropEndWhile_eq_self h]
  · exact dropEndWhile_append hv w

theorem trim_isInfix (cs : List Char) : trim cs <:+: cs :=
  (dropEndWhile_isPrefix isBlank _).isInfix.trans (List.dropWhile_suffix isBlank).isInfix

/-- Around a trimmed text are blanks. -/
theorem exists_blanks_trim (cs : List Char) :
    ∃ u v, cs = u ++ (trim cs ++ v) ∧ (∀ c ∈ u, isBlank c = true) ∧ ∀ c ∈ v, isBlank c = true := by
  obtain ⟨v, hv, hblank⟩ := exists_dropped isBlank (trimStart cs)
  refine ⟨cs.takeWhile isBlank, v, ?_, fun c hc => List.mem_takeWhile_imp hc, hblank⟩
  calc cs = cs.takeWhile isBlank ++ trimStart cs := List.takeWhile_append_dropWhile.symm
    _ = cs.takeWhile isBlank ++ (trim cs ++ v) := congrArg _ hv

/-- A trimmed text stays as it is. -/
theorem trim_trim (cs : List Char) : trim (trim cs) = trim cs := by
  have hstart : trimStart (trim cs) = trim cs := by
    rcases htrim : trim cs with - | ⟨c, rest⟩
    · rfl
    · -- it begins as the text without the blanks it begins with
      obtain ⟨behind, hbehind⟩ := dropEndWhile_isPrefix isBlank (trimStart cs)
      have hhead : (trimStart cs).head? = some c := by
        rw [← hbehind, List.head?_append]
        change (trim cs).head?.or _ = _
        rw [htrim]
        rfl
      have hblank := List.head?_dropWhile_not isBlank cs
      rw [show cs.dropWhile isBlank = trimStart cs from rfl, hhead] at hblank
      rw [trimStart, List.dropWhile_cons_of_neg]
      simpa using hblank
  rw [trim, hstart]
  exact dropEndWhile_idem isBlank _

end Trim

end Text

open Text

/-! ### Parameters -/

theorem arePieces_splitAtCommas (depth : Nat) (cs : List Char) :
    ArePieces (splitAtCommas depth cs) cs := by
  induction cs generalizing depth with
  | nil => exact arePieces_nil
  | cons c cs ih =>
    rw [splitAtCommas]
    split_ifs
    · exact (ih 0).separate c
    · exact (ih _).glue c

/-- **A raw parameter is a trimmed part of the list it is from**, and not empty. -/
theorem isInfix_of_mem_splitParameters {raw : List Char} {p : String} (h : p ∈ splitParameters raw) :
    p.toList ≠ [] ∧ trim p.toList = p.toList ∧ p.toList <:+: raw := by
  obtain ⟨cs, hmem, rfl⟩ := List.mem_map.mp h
  obtain ⟨htrimmed, hne⟩ := List.mem_filter.mp hmem
  obtain ⟨piece, hpiece, rfl⟩ := List.mem_map.mp htrimmed
  rw [String.toList_ofList]
  exact ⟨by simpa using hne, trim_trim piece,
    (trim_isInfix piece).trans ((arePieces_splitAtCommas 0 raw).2 piece hpiece)⟩

end Scaffold

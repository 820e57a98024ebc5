/-
Scaffold/Proofs/Path/Segments.lean

Paths that are written plainly.

Every path the library builds is segments with single slashes between them,
from the root or not: `Path.ofSegments rooted segs`, no segment being empty or
cut by a slash.  On such paths the operations that cut and join text are
operations on the list of segments:

* `pieces_slashed` — the pieces are the segments again;
* `join_ofSegments` — joining appends;
* `parent_ofSegments`, `fileName_ofSegments`, `withFileName_ofSegments` — the
  last segment taken away, read, and changed;
* `steps_ofSegments` — the steps of a look-up.
-/
import Mathlib.Tactic.Common
import Scaffold.FileTree.Lookup

namespace Scaffold

open Text

namespace Path

/-! ### Pieces -/

theorem pieces_ne_nil (cs : List Char) : pieces cs ≠ [] := by
  cases cs with
  | nil => simp [pieces, splitWhere]
  | cons c cs =>
    rw [pieces, splitWhere]
    split_ifs
    · simp
    · split <;> simp

theorem pieces_cons_of_ne {c : Char} {cs s : List Char} {ss : List (List Char)} (hc : c ≠ '/')
    (h : pieces cs = s :: ss) : pieces (c :: cs) = (c :: s) :: ss := by
  rw [pieces, splitWhere, if_neg (by simpa using hc), ← pieces, h]

theorem pieces_slash_cons (cs : List Char) : pieces ('/' :: cs) = [] :: pieces cs := rfl

/-- A slash parts a text into the pieces in front of it and those behind it. -/
theorem pieces_append_slash (cs ds : List Char) :
    pieces (cs ++ '/' :: ds) = pieces cs ++ pieces ds := by
  induction cs with
  | nil => exact pieces_slash_cons ds
  | cons c cs ih =>
    rw [List.cons_append]
    by_cases hc : c = '/'
    · subst hc
      rw [pieces_slash_cons, pieces_slash_cons, ih, List.cons_append]
    · obtain ⟨s, ss, hs⟩ := List.exists_cons_of_ne_nil (pieces_ne_nil cs)
      rw [pieces_cons_of_ne hc hs, pieces_cons_of_ne hc (by rw [ih, hs, List.cons_append])]
      rfl

theorem pieces_of_no_slash {s : List Char} (h : '/' ∉ s) : pieces s = [s] := by
  induction s with
  | nil => rfl
  | cons c s ih =>
    rw [List.mem_cons, not_or] at h
    exact pieces_cons_of_ne (fun hc => h.1 hc.symm) (ih h.2)

theorem slashed_singleton (s : List Char) : slashed [s] = s := by simp [slashed]

theorem slashed_cons {s : List Char} {ss : List (List Char)} (h : ss ≠ []) :
    slashed (s :: ss) = s ++ '/' :: slashed ss := by
  obtain ⟨t, ss, rfl⟩ := List.exists_cons_of_ne_nil h
  simp [slashed, List.intercalate]

theorem slashed_append {xs ys : List (List Char)} (hx : xs ≠ []) (hy : ys ≠ []) :
    slashed (xs ++ ys) = slashed xs ++ '/' :: slashed ys := by
  induction xs with
  | nil => exact absurd rfl hx
  | cons x xs ih =>
    by_cases hxs : xs = []
    · subst hxs
      rw [List.singleton_append, slashed_cons hy, slashed_singleton]
    · rw [List.cons_append, slashed_cons (by simp [hxs]), slashed_cons hxs, ih hxs]
      simp

theorem slashed_ne_nil {segs : List (List Char)} (hne : segs ≠ []) (h : ∀ s ∈ segs, s ≠ []) :
    slashed segs ≠ [] := by
  obtain ⟨s, segs, rfl⟩ := List.exists_cons_of_ne_nil hne
  have hs := h s List.mem_cons_self
  by_cases hsegs : segs = []
  · rw [hsegs, slashed_singleton]
    exact hs
  · rw [slashed_cons hsegs]
    exact List.append_ne_nil_of_left_ne_nil hs _

theorem length_le_slashed {segs : List (List Char)} (h : ∀ s ∈ segs, s ≠ []) :
    segs.length ≤ (slashed segs).length := by
  induction segs with
  | nil => exact Nat.zero_le _
  | cons s segs ih =>
    have hs := List.length_pos_iff.mpr (h s List.mem_cons_self)
    have hrest := ih fun x hx => h x (List.mem_cons_of_mem _ hx)
    by_cases hsegs : segs = []
    · rw [hsegs, slashed_singleton]
      exact hs
    · rw [slashed_cons hsegs, List.length_append, List.length_cons, List.length_cons]
      omega

/-- The pieces of pieces with slashes between are these pieces. -/
theorem pieces_slashed {ss : List (List Char)} (hne : ss ≠ []) (h : ∀ s ∈ ss, '/' ∉ s) :
    pieces (slashed ss) = ss := by
  induction ss with
  | nil => exact absurd rfl hne
  | cons s ss ih =>
    have hs := pieces_of_no_slash (h s List.mem_cons_self)
    by_cases hss : ss = []
    · subst hss
      rw [slashed_singleton, hs]
    · rw [slashed_cons hss, pieces_append_slash, hs,
        ih hss (fun t ht => h t (List.mem_cons_of_mem _ ht)), List.singleton_append]

theorem no_slash_of_mem_pieces {cs s : List Char} (h : s ∈ pieces cs) : '/' ∉ s := by
  induction cs generalizing s with
  | nil =>
    obtain rfl : s = [] := by simpa [pieces, splitWhere] using h
    simp
  | cons c cs ih =>
    by_cases hc : c = '/'
    · -- a piece begins behind the slash
      subst hc
      rw [pieces_slash_cons, List.mem_cons] at h
      rcases h with rfl | h
      · simp
      · exact ih h
    · -- the character belongs to the first piece
      obtain ⟨t, ts, ht⟩ := List.exists_cons_of_ne_nil (pieces_ne_nil cs)
      rw [pieces_cons_of_ne hc ht, List.mem_cons] at h
      rcases h with rfl | h
      · rw [List.mem_cons, not_or]
        exact ⟨fun h => hc h.symm, ih (by rw [ht]; exact List.mem_cons_self)⟩
      · exact ih (by rw [ht]; exact List.mem_cons_of_mem _ h)

/-! ### Segments -/

/-- A piece that is not empty and not cut by a slash. -/
def IsSegment (s : List Char) : Prop := s ≠ [] ∧ '/' ∉ s

/-- A segment that is the name of something: neither `.` nor `..`. -/
def IsName (s : List Char) : Prop := IsSegment s ∧ s ≠ ['.'] ∧ s ≠ ['.', '.']

instance (s : List Char) : Decidable (IsSegment s) := inferInstanceAs (Decidable (_ ∧ _))

instance (s : List Char) : Decidable (IsName s) := inferInstanceAs (Decidable (_ ∧ _))

/-- A segment that is read. -/
def IsStep (s : List Char) : Prop := IsSegment s ∧ s ≠ ['.']

theorem IsName.isStep {s : List Char} (h : IsName s) : IsStep s := ⟨h.1, h.2.1⟩

theorem isStep_up : IsStep ['.', '.'] := by
  refine ⟨⟨?_, ?_⟩, ?_⟩ <;> decide

theorem IsStep.not_idle {s : List Char} (h : IsStep s) : isIdle s = false := by
  simp [isIdle, h.1.1, h.2]

/-- The path of some segments, from the root or not. -/
def ofSegments (rooted : Bool) (segs : List (List Char)) : Path :=
  ⟨(if rooted then ['/'] else []) ++ slashed segs⟩

/-- The pieces of a path from the root begin with an empty one. -/
def lead (rooted : Bool) : List (List Char) := if rooted then [[]] else []

theorem chars_ofSegments (b : Bool) {segs : List (List Char)} (h : segs ≠ []) :
    (ofSegments b segs).chars = slashed (lead b ++ segs) := by
  cases b with
  | false => rfl
  | true =>
    show '/' :: slashed segs = slashed ([] :: segs)
    rw [slashed_cons h]
    rfl

section Segments

variable {b : Bool} {segs : List (List Char)}

theorem pieces_ofSegments (hne : segs ≠ []) (h : ∀ s ∈ segs, IsSegment s) :
    pieces (ofSegments b segs).chars = lead b ++ segs := by
  rw [chars_ofSegments b hne, pieces_slashed (by simp [hne])]
  intro s hs
  rcases List.mem_append.mp hs with hs | hs
  · cases b with
    | false => cases hs
    | true =>
      obtain rfl := List.mem_singleton.mp hs
      simp
  · exact (h s hs).2

theorem isAbsolute_ofSegments (h : ∀ s ∈ segs, IsSegment s) :
    (ofSegments b segs).isAbsolute = b := by
  cases b with
  | true => rfl
  | false =>
    cases segs with
    | nil => rfl
    | cons s segs =>
      obtain ⟨hs, hslash⟩ := h s List.mem_cons_self
      obtain ⟨c, cs, rfl⟩ := List.exists_cons_of_ne_nil hs
      have hc : c ≠ '/' := by
        rintro rfl
        exact hslash List.mem_cons_self
      have hhead : (slashed ((c :: cs) :: segs)).head? = some c := by
        by_cases hsegs : segs = []
        · rw [hsegs, slashed_singleton]
          rfl
        · rw [slashed_cons hsegs]
          rfl
      show ((slashed ((c :: cs) :: segs)).head? == some '/') = false
      rw [hhead]
      simpa using hc

/-- A path of segments does not end in a slash. -/
theorem getLast?_ofSegments (hne : segs ≠ []) (h : ∀ s ∈ segs, IsSegment s) :
    (ofSegments b segs).chars.getLast? ≠ some '/' := by
  obtain ⟨init, s, rfl⟩ := List.eq_nil_or_concat segs |>.resolve_left hne
  obtain ⟨hs, hslash⟩ := h s (by simp)
  have hlast : s.getLast? ≠ some '/' := fun hs => hslash (List.mem_of_getLast? hs)
  have hchars : ∃ front, (ofSegments b (init ++ [s])).chars = front ++ s := by
    by_cases hinit : init = []
    · subst hinit
      exact ⟨if b then ['/'] else [], by rw [List.nil_append, ofSegments, slashed_singleton]⟩
    · refine ⟨(if b then ['/'] else []) ++ (slashed init ++ ['/']), ?_⟩
      rw [ofSegments, slashed_append hinit (by simp), slashed_singleton]
      simp
  obtain ⟨front, hfront⟩ := hchars
  rw [List.concat_eq_append, hfront, List.getLast?_append]
  rw [List.getLast?_eq_some_getLast hs] at hlast ⊢
  exact hlast

/-- The names and dots a path is written with. -/
def named (p : Path) : List (List Char) := (pieces p.chars).filter (fun s => !s.isEmpty)

theorem steps_eq (p : Path) :
    p.steps = if p.chars.getLast? = some '/' then p.named ++ [[]] else p.named := rfl

theorem named_ofSegments (hne : segs ≠ []) (h : ∀ s ∈ segs, IsSegment s) :
    (ofSegments b segs).named = segs := by
  have hsegs : segs.filter (fun s => !s.isEmpty) = segs := by
    rw [List.filter_eq_self]
    intro s hs
    simpa using (h s hs).1
  rw [named, pieces_ofSegments hne h, List.filter_append, hsegs]
  cases b <;> rfl

theorem steps_ofSegments (hne : segs ≠ []) (h : ∀ s ∈ segs, IsSegment s) :
    (ofSegments b segs).steps = segs := by
  rw [steps_eq, if_neg (getLast?_ofSegments hne h), named_ofSegments hne h]

theorem join_ofSegments {segs' : List (List Char)} (h : ∀ s ∈ segs, IsSegment s) (hne : segs' ≠ [])
    (h' : ∀ s ∈ segs', IsSegment s) :
    (ofSegments b segs).join (ofSegments false segs') = ofSegments b (segs ++ segs') := by
  rw [join, isAbsolute_ofSegments h', if_neg Bool.false_ne_true]
  by_cases hsegs : segs = []
  · -- nothing stands in front
    subst hsegs
    cases b <;> rfl
  · have hchars : (ofSegments b segs).chars ≠ [] := by
      intro hnil
      have := pieces_ofSegments (b := b) hsegs h
      rw [hnil] at this
      obtain ⟨s, segs, rfl⟩ := List.exists_cons_of_ne_nil hsegs
      have hs := (h s List.mem_cons_self).1
      cases b with
      | false => exact hs (List.cons.inj this).1.symm
      | true => cases (List.cons.inj this).2
    rw [if_neg]
    · refine congrArg Path.mk ?_
      show _ ++ '/' :: slashed segs' = _ ++ slashed (segs ++ segs')
      rw [slashed_append hsegs hne, ofSegments, List.append_assoc]
    · have := getLast?_ofSegments (b := b) hsegs h
      simp [hchars, this]

/-! ### The last segment -/

theorem splitLast_slashed {first : List Char} {mid : List (List Char)} {s : List Char}
    (hmid : ∀ t ∈ first :: mid, '/' ∉ t) (hs : IsStep s) :
    splitLast ⟨slashed (first :: (mid ++ [s]))⟩ = some (slashed (first :: mid) ++ ['/'], s) := by
  have hpieces : pieces (slashed (first :: (mid ++ [s]))) = first :: (mid ++ [s]) := by
    refine pieces_slashed (by simp) ?_
    intro t ht
    rw [← List.cons_append, List.mem_append] at ht
    rcases ht with ht | ht
    · exact hmid t ht
    · obtain rfl := List.mem_singleton.mp ht
      exact hs.1.2
  rw [splitLast, hpieces]
  simp only [List.reverse_append, List.reverse_singleton, List.singleton_append,
    List.dropWhile_cons, hs.not_idle, Bool.false_eq_true, if_false, List.reverse_reverse]

theorem dropIdleEnd_slash {first : List Char} {mid : List (List Char)}
    (hslash : ∀ t ∈ first :: mid, '/' ∉ t) (hmid : ∀ t ∈ mid, IsStep t) :
    dropIdleEnd (slashed (first :: mid) ++ ['/'])
      = if mid = [] ∧ first = [] then ['/'] else slashed (first :: mid) := by
  have hpieces : pieces (slashed (first :: mid) ++ ['/']) = first :: (mid ++ [[]]) := by
    rw [pieces_append_slash, pieces_slashed (by simp) hslash]
    rfl
  have hkept : ((mid ++ [[]]).reverse.dropWhile isIdle).reverse = mid := by
    rw [List.reverse_append, List.reverse_singleton, List.singleton_append, List.dropWhile_cons,
      if_pos (show isIdle [] = true from rfl)]
    rcases hrev : mid.reverse with - | ⟨t, ts⟩
    · -- no piece is left
      rw [List.reverse_eq_nil_iff.mp hrev]
      rfl
    · -- the last piece is a step, which is kept
      have ht : t ∈ mid := by
        rw [← List.mem_reverse, hrev]
        exact List.mem_cons_self
      rw [List.dropWhile_cons, if_neg (by simp [(hmid t ht).not_idle]), ← hrev,
        List.reverse_reverse]
  rw [dropIdleEnd, hpieces]
  simp only [hkept]
  cases mid <;> cases first <;> simp

/-- What the last segment of a path is cut from. -/
def frontText (b : Bool) (segs : List (List Char)) : List Char :=
  if segs = [] then (if b then ['/'] else []) else slashed (lead b ++ segs) ++ ['/']

theorem splitLast_ofSegments {s : List Char} (h : ∀ t ∈ segs, IsStep t) (hs : IsStep s) :
    (ofSegments b (segs ++ [s])).splitLast = some (frontText b segs, s) := by
  have hchars : ofSegments b (segs ++ [s]) = ⟨slashed (lead b ++ (segs ++ [s]))⟩ :=
    congrArg Path.mk (chars_ofSegments b (by simp))
  have hslash : ∀ t ∈ lead b ++ segs, '/' ∉ t := by
    intro t ht
    rcases List.mem_append.mp ht with ht | ht
    · cases b with
      | false => cases ht
      | true =>
        obtain rfl := List.mem_singleton.mp ht
        simp
    · exact (h t ht).1.2
  rw [hchars, ← List.append_assoc]
  rcases hfront : lead b ++ segs with - | ⟨first, mid⟩
  · -- the path is `s` alone
    obtain ⟨hb, rfl⟩ := List.append_eq_nil_iff.mp hfront
    obtain rfl : b = false := by cases b <;> simp_all [lead]
    rw [List.nil_append, slashed_singleton, splitLast, pieces_of_no_slash hs.1.2]
    have hne : s.isEmpty = false := by simpa using hs.1.1
    simp [hne, frontText]
  · rw [hfront] at hslash
    rw [List.cons_append, splitLast_slashed hslash hs, frontText]
    by_cases hsegs : segs = []
    · subst hsegs
      cases b with
      | false => cases hfront
      | true =>
        obtain ⟨rfl, rfl⟩ := List.cons.inj hfront
        rfl
    · rw [if_neg hsegs, hfront]

theorem parent_ofSegments {s : List Char} (h : ∀ t ∈ segs, IsStep t) (hs : IsStep s) :
    (ofSegments b (segs ++ [s])).parent = some (ofSegments b segs) := by
  rw [parent, splitLast_ofSegments h hs]
  refine congrArg some (congrArg Path.mk ?_)
  show dropIdleEnd (frontText b segs) = (ofSegments b segs).chars
  by_cases hsegs : segs = []
  · -- nothing is above
    subst hsegs
    cases b <;> rfl
  · rw [frontText, if_neg hsegs, chars_ofSegments b hsegs]
    obtain ⟨t, ts, rfl⟩ := List.exists_cons_of_ne_nil hsegs
    have hslash : ∀ x ∈ t :: ts, '/' ∉ x := fun x hx => (h x hx).1.2
    have ht := (h t List.mem_cons_self).1.1
    cases b with
    | true =>
      show dropIdleEnd (slashed ([] :: (t :: ts)) ++ ['/']) = slashed ([] :: (t :: ts))
      rw [dropIdleEnd_slash _ h, if_neg (by simp)]
      intro x hx
      rcases List.mem_cons.mp hx with rfl | hx
      · simp
      · exact hslash x hx
    | false =>
      show dropIdleEnd (slashed (t :: ts) ++ ['/']) = slashed (t :: ts)
      rw [dropIdleEnd_slash hslash (fun x hx => h x (List.mem_cons_of_mem _ hx)),
        if_neg (by simp [ht])]

theorem fileName_ofSegments {s : List Char} (h : ∀ t ∈ segs, IsStep t) (hs : IsName s) :
    (ofSegments b (segs ++ [s])).fileName = some s := by
  rw [fileName, splitLast_ofSegments h hs.isStep]
  simp [hs.2.1, hs.2.2]

theorem withFileName_ofSegments {s s' : List Char} (h : ∀ t ∈ segs, IsStep t) (hs : IsName s)
    (hs' : IsSegment s') :
    (ofSegments b (segs ++ [s])).withFileName s' = ofSegments b (segs ++ [s']) := by
  have hself : (⟨s'⟩ : Path) = ofSegments false [s'] := by
    rw [ofSegments, slashed_singleton]
    rfl
  rw [withFileName, fileName_ofSegments h hs, parent_ofSegments h hs.isStep, hself]
  exact join_ofSegments (fun t ht => (h t ht).1) (by simp) (by simpa using hs')

end Segments

end Path

end Scaffold

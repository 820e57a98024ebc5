/-
Scaffold/Proofs/Text/Boundary.lean

Cuts that check where they cut.

`slice` takes any two offsets: an offset inside a character, past the end of
the text or before the other one still gives some text.  Here a cut is refused
unless its offsets are in order, in the text and between characters (`slice?`),
and a look at the single bytes unless its offsets are in order and in the text
(`bytes?`); a difference is refused when it is negative (`difference?`).

* `slice?_isSome_iff` — what a cut asks of its offsets;
* `slice?_of_eq` — a cut around a part of a text is not refused, nor are those in and behind a pair
  of parentheses (`slices_around`);
* `Span.Marks` — the span of a part of a text.
-/
import Mathlib.Tactic.Common
import Scaffold.CodeMap
import Scaffold.Proofs.Text.Slice

namespace Scaffold

namespace Text

/-! ### Boundaries -/

/-- Whether an offset lies between two characters of a text, or at one of its ends. -/
def isBoundary : Nat → List Char → Bool
  | 0, _ => true
  | _ + 1, [] => false
  | n + 1, c :: cs => decide (c.utf8Size ≤ n + 1) && isBoundary (n + 1 - c.utf8Size) cs

/-- A boundary has a text before and a text after it. -/
theorem isBoundary_iff {n : Nat} {cs : List Char} :
    isBoundary n cs = true ↔ ∃ u v, cs = u ++ v ∧ n = byteLength u := by
  induction cs generalizing n with
  | nil =>
    cases n with
    | zero => exact iff_of_true rfl ⟨[], [], rfl, rfl⟩
    | succ n => simp [isBoundary]
  | cons c cs ih =>
    cases n with
    | zero => exact iff_of_true rfl ⟨[], c :: cs, rfl, rfl⟩
    | succ n =>
      rw [isBoundary, Bool.and_eq_true, decide_eq_true_eq, ih]
      constructor
      · rintro ⟨hle, u, v, rfl, hu⟩
        exact ⟨c :: u, v, rfl, by rw [byteLength_cons, ← hu]; omega⟩
      · rintro ⟨u, v, hcs, hu⟩
        cases u with
        | nil => simp at hu
        | cons d u =>
          obtain ⟨rfl, rfl⟩ := List.cons.inj hcs
          rw [byteLength_cons] at hu
          exact ⟨by omega, u, v, rfl, by omega⟩

/-! ### Checked cuts -/

/-- The text from byte `start` up to byte `stop`; nothing when these are out of order, past the end
of the text or inside a character. -/
def slice? (start stop : Nat) (cs : List Char) : Option (List Char) :=
  if start ≤ stop ∧ stop ≤ byteLength cs ∧ isBoundary start cs ∧ isBoundary stop cs then
    some (slice start stop cs)
  else none

/-- The text from byte `start` up to byte `stop`, to be looked at byte by byte; nothing when these
are out of order or past the end of the text. -/
def bytes? (start stop : Nat) (cs : List Char) : Option (List Char) :=
  if start ≤ stop ∧ stop ≤ byteLength cs then some (slice start stop cs) else none

/-- The difference of two offsets; nothing when it is negative. -/
def difference? (m n : Nat) : Option Nat := if n ≤ m then some (m - n) else none

/-- **What a cut asks of its offsets.** -/
theorem slice?_isSome_iff {start stop : Nat} {cs : List Char} :
    (slice? start stop cs).isSome ↔ start ≤ stop ∧ stop ≤ byteLength cs
      ∧ (∃ u v, cs = u ++ v ∧ start = byteLength u) ∧ ∃ u v, cs = u ++ v ∧ stop = byteLength u := by
  simp only [← isBoundary_iff, slice?]
  split_ifs with h <;> simpa using h

/-- An offset inside a character is refused. -/
example : slice? 0 1 ['é'] = none := by decide

section Parts

variable {cs u w v : List Char} {start stop : Nat}

/-- **A cut around a part of a text gives that part.** -/
theorem slice?_of_eq (hcs : cs = u ++ (w ++ v)) (hstart : start = byteLength u)
    (hstop : stop = byteLength u + byteLength w) : slice? start stop cs = some w := by
  subst hcs hstart hstop
  have hu : isBoundary (byteLength u) (u ++ (w ++ v)) = true :=
    isBoundary_iff.mpr ⟨u, w ++ v, rfl, rfl⟩
  have hw : isBoundary (byteLength u + byteLength w) (u ++ (w ++ v)) = true :=
    isBoundary_iff.mpr ⟨u ++ w, v, (List.append_assoc u w v).symm, (byteLength_append u w).symm⟩
  have hstop : byteLength u + byteLength w ≤ byteLength (u ++ (w ++ v)) := by
    rw [byteLength_append, byteLength_append]
    omega
  rw [slice?, if_pos ⟨Nat.le_add_right _ _, hstop, hu, hw⟩, slice_of_append]

/-- A part of a text can be looked at byte by byte. -/
theorem bytes?_of_eq (hcs : cs = u ++ (w ++ v)) (hstart : start = byteLength u)
    (hstop : stop = byteLength u + byteLength w) : bytes? start stop cs = some w := by
  subst hcs hstart hstop
  have hstop : byteLength u + byteLength w ≤ byteLength (u ++ (w ++ v)) := by
    rw [byteLength_append, byteLength_append]
    omega
  rw [bytes?, if_pos ⟨Nat.le_add_right _ _, hstop⟩, slice_of_append]

/-- What a checked cut gives is what the cut without checks gives. -/
theorem slice_eq_of_slice? (h : slice? start stop cs = some w) : slice start stop cs = w := by
  rw [slice?] at h
  split_ifs at h
  exact Option.some.inj h

/-- **The texts in and behind a pair of parentheses can be cut out.** -/
theorem slices_around {x y : List Char} (hcs : cs = x ++ ('(' :: w ++ ')' :: y ++ v)) :
    slice? (byteLength x + 1) (byteLength x + byteLength ('(' :: w)) cs = some w
      ∧ slice? (byteLength x + byteLength ('(' :: w) + 1)
          (byteLength x + byteLength ('(' :: w ++ ')' :: y)) cs = some y := by
  have hopened : byteLength (x ++ ['(']) = byteLength x + 1 := byteLength_append _ _
  have hclosed : byteLength (x ++ '(' :: w ++ [')'])
      = byteLength x + byteLength ('(' :: w) + 1 := by
    rw [byteLength_append, byteLength_append]
    rfl
  constructor
  · refine slice?_of_eq (v := ')' :: y ++ v) ?_ hopened.symm ?_
    · rw [hcs]
      simp
    · rw [hopened, byteLength_cons, Nat.add_assoc]
      rfl
  · refine slice?_of_eq (v := v) ?_ hclosed.symm ?_
    · rw [hcs]
      simp
    · rw [hclosed, byteLength_append, Nat.add_assoc, Nat.add_assoc]
      rfl

end Parts

theorem difference?_of_le {m n : Nat} (h : n ≤ m) : difference? m n = some (m - n) := if_pos h

end Text

open Text

/-- A span of a text from one boundary to another, with the part between. -/
def Span.Marks (s : Span) (cs part : List Char) : Prop :=
  ∃ u v, cs = u ++ (part ++ v) ∧ s = ⟨byteLength u, byteLength u + byteLength part⟩

variable {s : Span} {cs part : List Char}

/-- **The cut along the span of a part gives the part.** -/
theorem Span.Marks.slice?_eq (h : s.Marks cs part) : slice? s.start s.stop cs = some part := by
  obtain ⟨u, v, hcs, rfl⟩ := h
  exact slice?_of_eq hcs rfl rfl

end Scaffold

/-
Scaffold/Proofs/Extraction/Parentheses.lean

Two readings of the parentheses in code.

The parenthesis that closes another is found with a counter that starts there
and stops when it is back at zero (`closingParen`).  For a range of text the
depth behind every parenthesis is recorded, never below zero, and then looked
up (`parenDepths`, `parenDepthAt`).  Both go from character to character, and
what a character can be to either of them is said once (`ParenAt`):

* `closingParen_eq_find?` — while a parenthesis is open, the counter stops at
  the first depth of zero that is recorded from there on;
* `exists_nests_of_closingParen` — what it has gone over is balanced;
* `staysAboveUntil_of_closingParen` — where `d` more are open in front, all
  recorded depths are above `d` until the counter stops, so none is cut off at
  zero;
* `exists_depthFrom_append` — behind a part of a range, only the depth it
  leaves counts.

`closingIn_agrees_with_depths` puts them together for a parenthesis in a range
of a text (`ClosesIn`).
-/
import Scaffold.Proofs.Extraction.Body
import Scaffold.Proofs.Scan.Matching
import Scaffold.Proofs.Text.Brackets

namespace Scaffold

open Text Scan

section Characters

variable {map : CodeMap} {offset depth k n : Nat} {c : Char} {cs : List Char}

/-! ### Characters -/

/-- What a character is among parentheses: one in code, or of no account. -/
inductive ParenAt (map : CodeMap) (offset : Nat) : Char → Prop
  | opens (h : map.isCode offset = true) : ParenAt map offset '('
  | closes (h : map.isCode offset = true) : ParenAt map offset ')'
  | passes (c : Char) (h : map.isCode offset = true → c ≠ '(' ∧ c ≠ ')') : ParenAt map offset c

theorem parenAt (map : CodeMap) (offset : Nat) (c : Char) : ParenAt map offset c := by
  by_cases hcode : map.isCode offset = true
  · by_cases hopen : c = '('
    · exact hopen ▸ .opens hcode
    · by_cases hclose : c = ')'
      · exact hclose ▸ .closes hcode
      · exact .passes c fun _ => ⟨hopen, hclose⟩
  · exact .passes c fun h => absurd h hcode

theorem parenDepths_opens (h : map.isCode offset = true) :
    parenDepths map offset depth ('(' :: cs)
      = (offset, depth + 1) :: parenDepths map (offset + 1) (depth + 1) cs := by
  rw [parenDepths, if_pos ⟨rfl, h⟩]
  rfl

theorem parenDepths_closes (h : map.isCode offset = true) :
    parenDepths map offset depth (')' :: cs)
      = (offset, depth - 1) :: parenDepths map (offset + 1) (depth - 1) cs := by
  rw [parenDepths, if_neg (fun hc => absurd hc.1 (by decide)), if_pos ⟨rfl, h⟩]
  rfl

theorem parenDepths_passes (h : map.isCode offset = true → c ≠ '(' ∧ c ≠ ')') :
    parenDepths map offset depth (c :: cs) = parenDepths map (offset + c.utf8Size) depth cs := by
  rw [parenDepths, if_neg (fun hc => (h hc.2).1 hc.1), if_neg (fun hc => (h hc.2).2 hc.1)]

theorem closingParen_opens (h : map.isCode offset = true) :
    closingParen map offset depth ('(' :: cs) = closingParen map (offset + 1) (depth + 1) cs := by
  rw [closingParen, h]
  rfl

theorem closingParen_closes_last (h : map.isCode offset = true) :
    closingParen map offset 1 (')' :: cs) = some offset := by
  rw [closingParen, h]
  rfl

theorem closingParen_closes_inner (h : map.isCode offset = true) :
    closingParen map offset (k + 2) (')' :: cs) = closingParen map (offset + 1) (k + 1) cs := by
  rw [closingParen, h]
  rfl

theorem closingParen_passes (h : map.isCode offset = true → c ≠ '(' ∧ c ≠ ')') :
    closingParen map offset depth (c :: cs)
      = closingParen map (offset + c.utf8Size) depth cs := by
  by_cases hcode : map.isCode offset = true
  · rw [closingParen, hcode, if_neg (h hcode).1, if_neg (h hcode).2, ite_self]
  · rw [closingParen, if_pos (by simpa using hcode)]

/-! ### The counter and the records -/

/-- **The counter stops at the first depth of zero.** -/
theorem closingParen_eq_find? :
    closingParen map offset (k + 1) cs
      = ((parenDepths map offset (k + 1) cs).find? fun e => e.2 == 0).map (·.1) := by
  induction cs generalizing offset k with
  | nil => rfl
  | cons c cs ih =>
    cases parenAt map offset c with
    | opens h =>
      rw [closingParen_opens h, parenDepths_opens h, List.find?_cons_of_neg (by simp), ih]
    | closes h =>
      rw [parenDepths_closes h]
      cases k with
      | zero =>
        rw [closingParen_closes_last h, List.find?_cons_of_pos (by simp)]
        rfl
      | succ k =>
        rw [closingParen_closes_inner h, List.find?_cons_of_neg (by simp), ih]
        rfl
    | passes _ h => rw [closingParen_passes h, parenDepths_passes h, ih]

/-- The parentheses of a text. -/
def parenPairs : List (Char × Char) := [('(', ')')]

theorem nests_parenPairs_passes {awaited : List Char} (h : c ≠ '(' ∧ c ≠ ')') :
    nests parenPairs awaited (c :: cs) = nests parenPairs awaited cs := by
  simp [nests, parenPairs, h.1, h.2.symm]

/-- **What the counter has gone over is balanced**, but for the `k` that were open besides the one it
stops for. -/
theorem exists_nests_of_closingParen (h : closingParen map offset (k + 1) cs = some n) :
    ∃ w y, cs = w ++ ')' :: y ∧ n = offset + byteLength w
      ∧ nests parenPairs (List.replicate k ')') (codeChars map offset w) = true := by
  induction cs generalizing offset k with
  | nil => cases h
  | cons c cs ih =>
    cases parenAt map offset c with
    | opens hcode =>
      rw [closingParen_opens hcode] at h
      obtain ⟨w, y, rfl, rfl, hnests⟩ := ih h
      refine ⟨'(' :: w, y, rfl, Nat.add_assoc _ _ _, ?_⟩
      rw [codeChars, if_pos hcode]
      -- one more is awaited behind it
      show nests parenPairs (List.replicate (k + 1) ')') _ = true
      exact hnests
    | closes hcode =>
      cases k with
      | zero =>
        rw [closingParen_closes_last hcode] at h
        obtain rfl := Option.some.inj h
        exact ⟨[], cs, rfl, rfl, rfl⟩
      | succ k =>
        rw [closingParen_closes_inner hcode] at h
        obtain ⟨w, y, rfl, rfl, hnests⟩ := ih h
        refine ⟨')' :: w, y, rfl, Nat.add_assoc _ _ _, ?_⟩
        rw [codeChars, if_pos hcode]
        show nests parenPairs (List.replicate k ')') _ = true
        exact hnests
    | passes _ hpass =>
      rw [closingParen_passes hpass] at h
      obtain ⟨w, y, rfl, rfl, hnests⟩ := ih h
      refine ⟨c :: w, y, rfl, Nat.add_assoc _ _ _, ?_⟩
      rw [codeChars]
      split_ifs with hcode
      · rw [nests_parenPairs_passes (hpass hcode), hnests]
      · exact hnests

theorem le_closingParen (h : closingParen map offset (k + 1) cs = some n) : offset ≤ n := by
  obtain ⟨w, -, -, rfl, -⟩ := exists_nests_of_closingParen h
  exact Nat.le_add_right _ _

/-! ### Depths from a depth on -/

/-- The depth just before an offset, `depth` being that in front of all recorded ones. -/
def depthFrom (depth : Nat) (depths : List (Nat × Nat)) (offset : Nat) : Nat :=
  match (depths.takeWhile (fun d => decide (d.1 < offset))).getLast? with
  | some d => d.2
  | none => depth

theorem depthFrom_cons (depth : Nat) (d : Nat × Nat) (depths : List (Nat × Nat)) (n : Nat) :
    depthFrom depth (d :: depths) n = if d.1 < n then depthFrom d.2 depths n else depth := by
  unfold depthFrom
  by_cases h : d.1 < n
  · rw [List.takeWhile_cons_of_pos (by simpa using h), if_pos h, List.getLast?_cons]
    rcases (depths.takeWhile _).getLast? with - | e <;> rfl
  · rw [List.takeWhile_cons_of_neg (by simpa using h), if_neg h]
    rfl

/-- Nothing of a text has been recorded where it begins. -/
theorem depthFrom_of_le (h : n ≤ offset) :
    depthFrom depth (parenDepths map offset depth cs) n = depth := by
  rcases hdepths : parenDepths map offset depth cs with - | ⟨d, depths⟩
  · rfl
  · have hle := le_of_mem_parenDepths (hdepths ▸ List.mem_cons_self)
    rw [depthFrom_cons, if_neg (by omega)]

/-- Until the counter stops the depth stays above `d`, and then it is `d`. -/
def StaysAboveUntil (n d depth : Nat) (depths : List (Nat × Nat)) : Prop :=
  (∀ m ≤ n, d < depthFrom depth depths m) ∧ depthFrom depth depths (n + 1) = d

/-- One more record in front. -/
theorem StaysAboveUntil.cons {d : Nat} {p : Nat × Nat} {depths : List (Nat × Nat)}
    (h : StaysAboveUntil n d p.2 depths) (hn : p.1 ≤ n) (hdepth : d < depth) :
    StaysAboveUntil n d depth (p :: depths) := by
  obtain ⟨habove, hthen⟩ := h
  refine ⟨fun m hm => ?_, ?_⟩
  · rw [depthFrom_cons]
    split_ifs
    · exact habove m hm
    · exact hdepth
  · rw [depthFrom_cons, if_pos (Nat.lt_succ_of_le hn)]
    exact hthen

/-- **Until the counter stops, every recorded depth is above `d`**, where `d` more are open than the
counter knows of. -/
theorem staysAboveUntil_of_closingParen (d : Nat)
    (h : closingParen map offset (k + 1) cs = some n) :
    StaysAboveUntil n d (d + k + 1) (parenDepths map offset (d + k + 1) cs) := by
  induction cs generalizing offset k with
  | nil => cases h
  | cons c cs ih =>
    cases parenAt map offset c with
    | opens hcode =>
      rw [closingParen_opens hcode] at h
      have hle := le_closingParen h
      rw [parenDepths_opens hcode]
      exact StaysAboveUntil.cons (ih h) (by omega) (by omega)
    | closes hcode =>
      rw [parenDepths_closes hcode]
      cases k with
      | zero =>
        rw [closingParen_closes_last hcode] at h
        obtain rfl := Option.some.inj h
        -- the record made here is the first one at `d`
        refine ⟨fun m hm => ?_, ?_⟩
        · rw [depthFrom_cons, if_neg (Nat.not_lt_of_le hm)]
          exact Nat.lt_succ_self d
        · rw [depthFrom_cons, if_pos (Nat.lt_succ_self offset), depthFrom_of_le (Nat.le_refl _)]
          rfl
      | succ k =>
        rw [closingParen_closes_inner hcode] at h
        have hle := le_closingParen h
        exact StaysAboveUntil.cons (ih h) (by omega) (by omega)
    | passes _ hpass =>
      rw [closingParen_passes hpass] at h
      rw [parenDepths_passes hpass]
      exact ih h

/-- **Behind a part of a text only the depth it leaves counts.** -/
theorem exists_depthFrom_append (u v : List Char) :
    ∃ e, ∀ m, offset + byteLength u ≤ m →
      depthFrom depth (parenDepths map offset depth (u ++ v)) m
        = depthFrom e (parenDepths map (offset + byteLength u) e v) m := by
  induction u generalizing offset depth with
  | nil => exact ⟨depth, fun _ _ => rfl⟩
  | cons c u ih =>
    have hlen : offset + byteLength (c :: u) = offset + c.utf8Size + byteLength u :=
      (Nat.add_assoc _ _ _).symm
    have hpos := c.utf8Size_pos
    rw [hlen, List.cons_append]
    cases parenAt map offset c with
    | opens hcode =>
      obtain ⟨e, he⟩ := @ih (offset + 1) (depth + 1)
      refine ⟨e, fun m hm => ?_⟩
      rw [parenDepths_opens hcode, depthFrom_cons, if_pos (show offset < m by omega)]
      exact he m hm
    | closes hcode =>
      obtain ⟨e, he⟩ := @ih (offset + 1) (depth - 1)
      refine ⟨e, fun m hm => ?_⟩
      rw [parenDepths_closes hcode, depthFrom_cons, if_pos (show offset < m by omega)]
      exact he m hm
    | passes _ hpass =>
      obtain ⟨e, he⟩ := @ih (offset + c.utf8Size) depth
      refine ⟨e, fun m hm => ?_⟩
      rw [parenDepths_passes hpass]
      exact he m hm

end Characters

/-! ### Ranges -/

/-- The first offset from `n` on that is not inside a character. -/
def nextBoundary (n : Nat) (cs : List Char) : Nat := byteLength cs - byteLength (dropBytes n cs)

/-- The parenthesis depths in a range of bytes.  What a range has of a character it cuts is of no
account, since a parenthesis is a single byte. -/
def depthsIn (cs : List Char) (start stop : Nat) : List (Nat × Nat) :=
  parenDepths (.ofText cs) (nextBoundary start cs) 0 (slice (nextBoundary start cs) stop cs)

/-- The offset of the parenthesis that closes the one at `opening`, no further than `stop`. -/
def closingIn (cs : List Char) (opening stop : Nat) : Option Nat :=
  closingParen (.ofText cs) opening 0 (slice opening stop cs)

/-- A recorded depth is zero behind an offset. -/
def FallsToZero (depths : List (Nat × Nat)) (opening n : Nat) : Prop :=
  opening < n ∧ (n, 0) ∈ depths

/-- A parenthesis in a range of a text is closed at `closing`. -/
structure ClosesIn (cs : List Char) (start opening stop closing : Nat) : Prop where
  closes : CodeAt cs closing ')'
  /-- There the depth counted from the parenthesis falls to zero, -/
  zero : FallsToZero (depthsIn cs opening stop) opening closing
  /-- and nowhere before. -/
  first : ∀ n, FallsToZero (depthsIn cs opening stop) opening n → closing ≤ n
  /-- The parentheses between are balanced. -/
  balanced : nests parenPairs []
    (codeChars (.ofText cs) (opening + 1) (slice (opening + 1) closing cs)) = true
  /-- Everything between is deeper in the range than the parenthesis. -/
  deeper : ∀ n, opening < n → n ≤ closing →
    parenDepthAt (depthsIn cs start stop) opening < parenDepthAt (depthsIn cs start stop) n
  /-- Behind the closing one the depth is that in front of the opening one. -/
  restored : parenDepthAt (depthsIn cs start stop) (closing + 1)
    = parenDepthAt (depthsIn cs start stop) opening

/-- A range that begins between two characters, such as a class body, begins there. -/
theorem depthsIn_append (u v : List Char) (stop : Nat) :
    depthsIn (u ++ v) (byteLength u) stop
      = parenDepths (.ofText (u ++ v)) (byteLength u) 0 (slice (byteLength u) stop (u ++ v)) := by
  have hnext : nextBoundary (byteLength u) (u ++ v) = byteLength u := by
    rw [nextBoundary, dropBytes_append, byteLength_append, Nat.add_sub_cancel]
  rw [depthsIn, hnext]

/-- A range that begins no later than a part of a text begins between two characters of what is in
front. -/
theorem exists_nextBoundary {u : List Char} {start : Nat} (h : start ≤ byteLength u) (v : List Char) :
    ∃ front w, u = front ++ w ∧ nextBoundary start (u ++ v) = byteLength front := by
  obtain ⟨w, hw⟩ := isSuffix_dropBytes h v
  obtain ⟨front, hfront⟩ := dropBytes_isSuffix start (u ++ v)
  rw [← hw, ← List.append_assoc] at hfront
  refine ⟨front, w, (List.append_cancel_right hfront).symm, ?_⟩
  rw [nextBoundary, ← hw, ← hfront, List.append_assoc, byteLength_append, Nat.add_sub_cancel]

/-- The text of a range around a parenthesis. -/
theorem slice_around {front w v : List Char} {stop : Nat} (h : byteLength (front ++ w) < stop) :
    slice (byteLength front) stop (front ++ w ++ '(' :: v)
      = w ++ '(' :: takeBytes (stop - byteLength (front ++ w) - 1) v := by
  have hone : byteLength ['('] = 1 := rfl
  have hlen := byteLength_append front w
  obtain ⟨k, rfl⟩ : ∃ k, stop = byteLength front + (byteLength w + (byteLength ['('] + k)) :=
    ⟨stop - byteLength (front ++ w) - 1, by omega⟩
  have hk : byteLength front + (byteLength w + (byteLength ['('] + k)) - byteLength (front ++ w) - 1
      = k := by omega
  rw [hk, List.append_assoc, slice_append, takeBytes_append_add]
  exact congrArg (w ++ ·) (takeBytes_append_add ['('] v k)

/-! ### Agreement -/

/-- Depths are recorded in the order of the text. -/
theorem pairwise_parenDepths (map : CodeMap) (offset depth : Nat) (cs : List Char) :
    (parenDepths map offset depth cs).Pairwise fun d e => d.1 < e.1 := by
  induction cs generalizing offset depth with
  | nil => exact .nil
  | cons c cs ih =>
    cases parenAt map offset c with
    | opens hcode =>
      rw [parenDepths_opens hcode]
      exact List.pairwise_cons.mpr ⟨fun e he => le_of_mem_parenDepths he, ih _ _⟩
    | closes hcode =>
      rw [parenDepths_closes hcode]
      exact List.pairwise_cons.mpr ⟨fun e he => le_of_mem_parenDepths he, ih _ _⟩
    | passes _ hpass =>
      rw [parenDepths_passes hpass]
      exact ih _ _

section Agreement

variable {map : CodeMap} {opening n : Nat} {cs : List Char}

theorem fallsToZero_iff (hcode : map.isCode opening = true) :
    FallsToZero (parenDepths map opening 0 ('(' :: cs)) opening n
      ↔ (n, 0) ∈ parenDepths map (opening + 1) 1 cs := by
  rw [FallsToZero, parenDepths_opens hcode, List.mem_cons]
  refine ⟨fun h => h.2.resolve_left (by simp), fun h => ⟨le_of_mem_parenDepths h, .inr h⟩⟩

/-- The counter finds nothing exactly if no depth falls to zero. -/
theorem closingParen_eq_none_iff (hcode : map.isCode opening = true) :
    closingParen map opening 0 ('(' :: cs) = none
      ↔ ∀ n, ¬ FallsToZero (parenDepths map opening 0 ('(' :: cs)) opening n := by
  rw [closingParen_opens hcode, closingParen_eq_find?, Option.map_eq_none_iff,
    List.find?_eq_none]
  simp only [fallsToZero_iff hcode]
  constructor
  · exact fun h n hn => h _ hn rfl
  · rintro h ⟨n, d⟩ hmem hd
    obtain rfl : d = 0 := by simpa using hd
    exact h n hmem

/-- What the counter finds is the first offset at which a depth falls to zero. -/
theorem fallsToZero_of_closingParen (hcode : map.isCode opening = true)
    (h : closingParen map opening 0 ('(' :: cs) = some n) :
    FallsToZero (parenDepths map opening 0 ('(' :: cs)) opening n
      ∧ ∀ m, FallsToZero (parenDepths map opening 0 ('(' :: cs)) opening m → n ≤ m := by
  rw [closingParen_opens hcode, closingParen_eq_find?, Option.map_eq_some_iff] at h
  obtain ⟨⟨n, d⟩, hfind, rfl⟩ := h
  obtain ⟨hd, before, behind, hdepths, hbefore⟩ := List.find?_eq_some_iff_append.mp hfind
  obtain rfl : d = 0 := by simpa using hd
  have hascending := pairwise_parenDepths map (opening + 1) 1 cs
  simp only [fallsToZero_iff hcode]
  rw [hdepths] at hascending ⊢
  refine ⟨by simp, fun m hm => ?_⟩
  -- no depth before it is zero, and what is recorded behind it stands behind it
  rcases List.mem_append.mp hm with hm | hm
  · simpa using hbefore _ hm
  · rcases List.mem_cons.mp hm with hm | hm
    · rw [Prod.mk.inj hm |>.1]
    · have hlater := (List.pairwise_cons.mp (List.pairwise_append.mp hascending).2.1).1
      exact Nat.le_of_lt (hlater _ hm)

/-- A parenthesis in a range, and the one that closes it, are at the same depth; what is between
is deeper. -/
theorem parenDepthAt_of_closingParen {offset : Nat} (w : List Char)
    (hopening : opening = offset + byteLength w) (hcode : map.isCode opening = true)
    (h : closingParen map opening 0 ('(' :: cs) = some n) :
    (∀ m, opening < m → m ≤ n →
        parenDepthAt (parenDepths map offset 0 (w ++ '(' :: cs)) opening
          < parenDepthAt (parenDepths map offset 0 (w ++ '(' :: cs)) m)
      ∧ parenDepthAt (parenDepths map offset 0 (w ++ '(' :: cs)) (n + 1)
        = parenDepthAt (parenDepths map offset 0 (w ++ '(' :: cs)) opening := by
  -- `d` parentheses are open in front, as the range counts them
  obtain ⟨d, hd⟩ := @exists_depthFrom_append map offset 0 w ('(' :: cs)
  rw [← hopening, parenDepths_opens hcode] at hd
  have hat : ∀ m, opening ≤ m → parenDepthAt (parenDepths map offset 0 (w ++ '(' :: cs)) m
      = if opening < m then depthFrom (d + 1) (parenDepths map (opening + 1) (d + 1) cs) m else d :=
    fun m hm => (hd m hm).trans (depthFrom_cons _ _ _ _)
  rw [closingParen_opens hcode] at h
  obtain ⟨hinside, hbehind⟩ := staysAboveUntil_of_closingParen d h
  have hle := le_closingParen h
  rw [hat opening (Nat.le_refl _), if_neg (Nat.lt_irrefl _)]
  constructor
  · intro m hm hn
    rw [hat m (Nat.le_of_lt hm), if_pos hm]
    exact hinside m hn
  · rw [hat (n + 1) (by omega), if_pos (by omega)]
    exact hbehind

end Agreement

/-- A parenthesis in a range of a text, told by the texts around it. -/
structure OpensIn (cs : List Char) (start opening stop : Nat) (front w v inner : List Char) :
    Prop where
  text_eq : cs = front ++ w ++ '(' :: v
  opening_eq : opening = byteLength (front ++ w)
  code : (CodeMap.ofText cs).isCode opening = true
  inner_prefix : inner <+: v
  closingIn_eq : closingIn cs opening stop = closingParen (.ofText cs) opening 0 ('(' :: inner)
  depths_behind : depthsIn cs opening stop = parenDepths (.ofText cs) opening 0 ('(' :: inner)
  depths_around : depthsIn cs start stop
    = parenDepths (.ofText cs) (byteLength front) 0 (w ++ '(' :: inner)

theorem exists_opensIn {cs : List Char} {start opening stop : Nat} (hstart : start ≤ opening)
    (hstop : opening < stop) (hopen : CodeAt cs opening '(') :
    ∃ front w v inner, OpensIn cs start opening stop front w v inner := by
  obtain ⟨⟨u, v, rfl, rfl⟩, hcode⟩ := hopen
  obtain ⟨front, w, rfl, hnext⟩ := exists_nextBoundary hstart ('(' :: v)
  have haround := slice_around (v := v) hstop
  have hbehind := @slice_around (front ++ w) [] v stop (by rwa [List.append_nil])
  rw [List.append_nil, List.nil_append] at hbehind
  refine ⟨front, w, v, takeBytes (stop - byteLength (front ++ w) - 1) v, rfl, rfl, hcode,
    takeBytes_isPrefix _ v, ?_, ?_, ?_⟩
  · rw [closingIn, hbehind]
  · rw [depthsIn_append, hbehind]
  · rw [depthsIn, hnext, haround]

theorem OpensIn.closesIn {cs : List Char} {start opening stop closing : Nat}
    {front w v inner : List Char} (h : OpensIn cs start opening stop front w v inner)
    (hclosing : closingIn cs opening stop = some closing) :
    ClosesIn cs start opening stop closing := by
  rw [h.closingIn_eq] at hclosing
  obtain ⟨hzero, hfirst⟩ := fallsToZero_of_closingParen h.code hclosing
  rw [← h.depths_behind] at hzero hfirst
  have hopening : opening = byteLength front + byteLength w := by
    rw [h.opening_eq, byteLength_append]
  obtain ⟨hdeeper, hrestored⟩ := parenDepthAt_of_closingParen w hopening h.code hclosing
  rw [← h.depths_around] at hdeeper hrestored
  have hcode := isCode_closingParen hclosing
  -- `x` is what stands between
  rw [closingParen_opens h.code] at hclosing
  obtain ⟨x, y, hinner, rfl, hnests⟩ := exists_nests_of_closingParen hclosing
  obtain ⟨back, hback⟩ := h.inner_prefix
  have hlen : byteLength (front ++ w ++ ['(']) = opening + 1 := by
    rw [byteLength_append, h.opening_eq]
    rfl
  have hcs : cs = (front ++ w ++ ['(']) ++ (x ++ ')' :: (y ++ back)) := by
    rw [h.text_eq, ← hback, hinner]
    simp
  have hbetween : slice (opening + 1) (opening + 1 + byteLength x) cs = x := by
    rw [← hlen, hcs]
    exact slice_of_append _ _ _
  refine ⟨⟨⟨front ++ w ++ ['('] ++ x, y ++ back, ?_, ?_⟩, hcode⟩, hzero, hfirst, ?_, hdeeper,
    hrestored⟩
  · rw [hcs]
    simp
  · rw [byteLength_append, hlen]
  · rw [hbetween]
    exact hnests

/-- **The two readings of parentheses agree.**  For a parenthesis that opens in code in a range of a
text, the counter finds where it is closed, or nothing if the depth counted from it never falls to
zero. -/
theorem closingIn_agrees_with_depths (source : String) (start opening stop : Nat)
    (hstart : start ≤ opening) (hstop : opening < stop) (hopen : CodeAt source.toList opening '(') :
    (closingIn source.toList opening stop = none
        ↔ ∀ n, ¬ FallsToZero (depthsIn source.toList opening stop) opening n)
      ∧ ∀ closing, closingIn source.toList opening stop = some closing
        ↔ ClosesIn source.toList start opening stop closing := by
  obtain ⟨front, w, v, inner, h⟩ := exists_opensIn hstart hstop hopen
  have hnone : closingIn source.toList opening stop = none
      ↔ ∀ n, ¬ FallsToZero (depthsIn source.toList opening stop) opening n := by
    rw [h.closingIn_eq, h.depths_behind]
    exact closingParen_eq_none_iff h.code
  refine ⟨hnone, fun closing => ⟨h.closesIn, fun hcloses => ?_⟩⟩
  -- something is found, and it is the first as well
  rcases hfound : closingIn source.toList opening stop with - | found
  · exact absurd hcloses.zero (hnone.mp hfound closing)
  · have hcloses' := h.closesIn hfound
    exact congrArg some (Nat.le_antisymm (hcloses'.first _ hcloses.zero)
      (hcloses.first _ hcloses'.zero))

/-- A range that begins inside a character, with a parenthesis that closes nothing and one that is
never closed in front, and parentheses in a string and in a comment. -/
theorem closingIn_agrees_with_depths_strayCloser :
    1 ≤ 7 ∧ 7 < 30 ∧ CodeAt "é) ( f(a, (b), ')' /* ( */) x)".toList 7 '('
      ∧ ClosesIn "é) ( f(a, (b), ')' /* ( */) x)".toList 1 7 30 27 := by
  have hopen : CodeAt "é) ( f(a, (b), ')' /* ( */) x)".toList 7 '(' :=
    ⟨⟨"é) ( f".toList, "a, (b), ')' /* ( */) x)".toList, by decide, by decide⟩, by decide +kernel⟩
  refine ⟨by decide, by decide, hopen, ?_⟩
  have hagree := closingIn_agrees_with_depths "é) ( f(a, (b), ')' /* ( */) x)" 1 7 30
    (by decide) (by decide) hopen
  exact (hagree.2 27).mp (by decide +kernel)

end Scaffold

/-
Scaffold/Proofs/Comments/Search.lean

Searching a text and the text with its comments blanked.

Both searches go over the same places from left to right, the one in the text
also over those in comments.  Where a match runs over a comment the two may part,
by a match that the one has and the other has not or that ends elsewhere, and one
of them then passes over places that the other tries.  They do the same as long
as they are together again wherever something counts.

`apart` says what that takes.  Where a match runs over the beginning of a comment,
either nothing counts there or comments are allowed in what is matched there; and
nothing that begins there or later, in front of the next place where something
counts, runs over that place.

* `Searches` — what two searches over the same places are to share;
* `Synced` — they resume together, or both no later than the next place that
  counts;
* `Searches.step` — over one place they stay in step;
* `search_eq` — by induction over the places, what is made of the matches is
  the same.
-/
import Scaffold.Proofs.Comments.Places

namespace Scaffold

open Text Pattern

/-! ### Comments apart from what counts -/

section Conditions

variable (p : Pattern) (counts : Match → Bool) (allows : TextPlace → Bool)

/-- Whether something that counts is matched at a place, in the text or with its comments
blanked. -/
def TextPlace.isCounting (x : TextPlace) : Bool := (x.found p).any counts

/-- The first place at which something counts. -/
def nextCounting (xs : List TextPlace) : Option TextPlace :=
  xs.find? (fun x => x.isCounting p counts)

/-- Whether a match ends no later than the first place at which something counts. -/
def endsBefore (xs : List TextPlace) (m : Match) : Bool :=
  (nextCounting p counts xs).all (fun z => decide (m.span.stop ≤ z.offset))

/-- Whether nothing that is matched in front of the first place at which something counts runs over
that place. -/
def isLoose : List TextPlace → Bool
  | [] => true
  | x :: xs =>
    x.isCounting p counts || ((x.found p).all (endsBefore p counts xs) && isLoose xs)

/-- Whether comments stand apart from what counts: where a match runs over the beginning of one,
nothing counts or comments are allowed, and nothing from there on runs over the next place at which
something counts. -/
def apart : List TextPlace → Bool
  | [] => true
  | x :: xs =>
    (!x.isDisturbed p || ((!x.isCounting p counts || allows x)
        && (x.found p).all (endsBefore p counts xs) && isLoose p counts xs))
      && apart xs

end Conditions

/-! ### Two searches over the same places -/

section Simulation

variable {p : Pattern} {counts : Match → Bool} {allows : TextPlace → Bool} {β : Type}
  {f f' : Match → List β}

/-- What two searches over the same places are to share; `f` and `f'` are what is made of a match in
the text and in the blanked one. -/
structure Searches (p : Pattern) (counts : Match → Bool) (allows : TextPlace → Bool)
    (f f' : Match → List β) (xs : List TextPlace) : Prop where
  ascend : xs.Pairwise (fun x y => x.offset < y.offset)
  /-- Nothing is made of what does not count. -/
  nothing : ∀ x ∈ xs, (∀ m ∈ x.match? p, counts m = false → f m = [])
    ∧ ∀ m ∈ x.blankedMatch? p, counts m = false → f' m = []
  /-- Away from comments there is one match, of which the same is made. -/
  near : ∀ x ∈ xs, x.isDisturbed p = false →
    x.blankedMatch? p = x.match? p ∧ ∀ m ∈ x.match? p, f m = f' m
  /-- Where comments are allowed, the same is made of the two matches. -/
  allowed : ∀ x ∈ xs, allows x = true →
    (x.match? p).toList.flatMap f = (x.blankedMatch? p).toList.flatMap f'

theorem Searches.tail {x : TextPlace} {xs : List TextPlace}
    (h : Searches p counts allows f f' (x :: xs)) : Searches p counts allows f f' xs where
  ascend := (List.pairwise_cons.mp h.ascend).2
  nothing y hy := h.nothing y (List.mem_cons_of_mem _ hy)
  near y hy := h.near y (List.mem_cons_of_mem _ hy)
  allowed y hy := h.allowed y (List.mem_cons_of_mem _ hy)

/-- The searches resume together, or both no later than the next place at which something counts,
with nothing on the way that runs over it. -/
def Synced (p : Pattern) (counts : Match → Bool) (xs : List TextPlace) (r r' : Nat) : Prop :=
  (∀ z ∈ xs, z.offset < r ↔ z.offset < r')
    ∨ (isLoose p counts xs = true
        ∧ ∀ z ∈ nextCounting p counts xs, r ≤ z.offset ∧ r' ≤ z.offset)

theorem endsBefore_iff {xs : List TextPlace} {m : Match} :
    endsBefore p counts xs m = true ↔ ∀ z ∈ nextCounting p counts xs, m.span.stop ≤ z.offset := by
  rw [endsBefore, Option.all_eq_true]
  simp only [decide_eq_true_eq, Option.mem_def]

/-! ### Over one place -/

/-- Where a search resumes behind a place at which it finds something or nothing. -/
def resumeAt (offset r : Nat) (found : Option Match) : Nat :=
  if offset < r then r else found.elim r (fun m => m.span.stop)

theorem resumeAt_le {offset r n : Nat} {found : Option Match} (hr : r ≤ n)
    (hfound : ∀ m ∈ found, m.span.stop ≤ n) : resumeAt offset r found ≤ n := by
  rw [resumeAt]
  split_ifs
  · exact hr
  · rcases found with - | m
    · exact hr
    · exact hfound m rfl

theorem searchAt_cons (f : Match → List β) (c : Cursor) (cs : List Cursor) (r : Nat) :
    (p.searchAt r (c :: cs)).flatMap f
      = (if c.offset < r then [] else (p.matchAt? c).toList.flatMap f)
        ++ (p.searchAt (resumeAt c.offset r (p.matchAt? c)) cs).flatMap f := by
  rw [searchAt, resumeAt]
  split_ifs
  · rfl
  · rcases p.matchAt? c with - | m
    · rfl
    · simp

theorem searchAt_here (f : Match → List β) (x : TextPlace) (xs : List TextPlace) (r : Nat) :
    (p.searchAt r ((x :: xs).map TextPlace.here)).flatMap f
      = (if x.offset < r then [] else (x.match? p).toList.flatMap f)
        ++ (p.searchAt (resumeAt x.offset r (x.match? p)) (xs.map TextPlace.here)).flatMap f :=
  searchAt_cons f x.here (xs.map TextPlace.here) r

theorem searchAt_there (f : Match → List β) (x : TextPlace) (xs : List TextPlace) (r : Nat) :
    (p.searchAt r ((x :: xs).filterMap TextPlace.there)).flatMap f
      = (if x.offset < r then [] else (x.blankedMatch? p).toList.flatMap f)
        ++ (p.searchAt (resumeAt x.offset r (x.blankedMatch? p))
            (xs.filterMap TextPlace.there)).flatMap f := by
  rw [List.filterMap_cons, TextPlace.blankedMatch?]
  rcases hthere : x.there with - | c
  · -- in a comment there is no place in the blanked text
    have hstay : resumeAt x.offset r none = r := ite_self _
    rw [Option.bind_none, hstay]
    simp
  · have hoff : c.offset = x.offset := by
      rw [TextPlace.there] at hthere
      split_ifs at hthere
      rw [← Option.some.inj hthere]
    rw [← hoff]
    exact searchAt_cons f c (xs.filterMap TextPlace.there) r

/-- Nothing is made of the matches at a place at which nothing counts. -/
theorem Searches.made_eq_nil {x : TextPlace} {xs : List TextPlace}
    (h : Searches p counts allows f f' (x :: xs)) (hx : x.isCounting p counts = false) :
    (x.match? p).toList.flatMap f = [] ∧ (x.blankedMatch? p).toList.flatMap f' = [] := by
  have hnone : ∀ m ∈ x.found p, counts m = false := by simpa [TextPlace.isCounting] using hx
  obtain ⟨hf, hf'⟩ := h.nothing x List.mem_cons_self
  constructor
  · refine List.flatMap_eq_nil_iff.mpr fun m hm => ?_
    exact hf m (Option.mem_toList.mp hm) (hnone m (match?_mem_found (Option.mem_toList.mp hm)))
  · refine List.flatMap_eq_nil_iff.mpr fun m hm => ?_
    exact hf' m (Option.mem_toList.mp hm)
      (hnone m (blankedMatch?_mem_found (Option.mem_toList.mp hm)))

/-- **Where two searches are together**, the same is made at a place, and behind it they are
together, or on the way to the next one at which something counts. -/
theorem Searches.step_of_together {x : TextPlace} {xs : List TextPlace}
    (h : Searches p counts allows f f' (x :: xs)) (hapart : apart p counts allows (x :: xs) = true)
    {r r' : Nat} (hr : ∀ z ∈ x :: xs, z.offset < r ↔ z.offset < r') :
    (if x.offset < r then [] else (x.match? p).toList.flatMap f)
        = (if x.offset < r' then [] else (x.blankedMatch? p).toList.flatMap f')
      ∧ Synced p counts xs (resumeAt x.offset r (x.match? p))
          (resumeAt x.offset r' (x.blankedMatch? p)) := by
  have hbehind : ∀ z ∈ xs, z.offset < r ↔ z.offset < r' :=
    fun z hz => hr z (List.mem_cons_of_mem _ hz)
  by_cases hskip : x.offset < r
  · -- both have passed the place
    have hskip' := (hr x List.mem_cons_self).mp hskip
    rw [resumeAt, resumeAt, if_pos hskip, if_pos hskip', if_pos hskip, if_pos hskip']
    exact ⟨rfl, .inl hbehind⟩
  have hskip' : ¬ x.offset < r' := fun hlt => hskip ((hr x List.mem_cons_self).mpr hlt)
  rw [if_neg hskip, if_neg hskip']
  by_cases hnear : x.isDisturbed p = true
  · -- they may part here, to be together again where something counts next
    obtain ⟨hx, -⟩ := Bool.and_eq_true_iff.mp hapart
    simp only [hnear, Bool.not_true, Bool.false_or, Bool.and_eq_true, Bool.or_eq_true,
      Bool.not_eq_true'] at hx
    obtain ⟨⟨hallows, hends⟩, hloose⟩ := hx
    refine ⟨?_, .inr ⟨hloose, fun z hz => ?_⟩⟩
    · rcases hallows with hcounts | hallows
      · rw [(h.made_eq_nil hcounts).1, (h.made_eq_nil hcounts).2]
      · exact h.allowed x List.mem_cons_self hallows
    · have hends := fun m hm => endsBefore_iff.mp (List.all_eq_true.mp hends m hm) z hz
      have hlater := (List.pairwise_cons.mp h.ascend).1 z (List.mem_of_find?_eq_some hz)
      constructor
      · exact resumeAt_le (by omega) fun m hm => hends m (match?_mem_found hm)
      · exact resumeAt_le (by omega) fun m hm => hends m (blankedMatch?_mem_found hm)
  · -- away from comments both find the same
    obtain ⟨hsame, hmade⟩ := h.near x List.mem_cons_self (by simpa using hnear)
    rw [hsame]
    refine ⟨List.flatMap_congr fun m hm => hmade m (Option.mem_toList.mp hm), .inl fun z hz => ?_⟩
    rw [resumeAt, resumeAt, if_neg hskip, if_neg hskip']
    rcases x.match? p with - | m
    · exact hbehind z hz
    · rfl

/-- On the way to the next place at which something counts, nothing is made of any match, and none
runs over that place. -/
theorem Searches.step_of_loose {x : TextPlace} {xs : List TextPlace}
    (h : Searches p counts allows f f' (x :: xs)) (hcounts : x.isCounting p counts = false)
    (hloose : isLoose p counts (x :: xs) = true) {r r' : Nat}
    (hr : ∀ z ∈ nextCounting p counts xs, r ≤ z.offset ∧ r' ≤ z.offset) :
    (if x.offset < r then [] else (x.match? p).toList.flatMap f)
        = (if x.offset < r' then [] else (x.blankedMatch? p).toList.flatMap f')
      ∧ Synced p counts xs (resumeAt x.offset r (x.match? p))
          (resumeAt x.offset r' (x.blankedMatch? p)) := by
  rw [isLoose, hcounts, Bool.false_or, Bool.and_eq_true] at hloose
  obtain ⟨hends, hloose⟩ := hloose
  have hends := fun z hz m hm => endsBefore_iff.mp (List.all_eq_true.mp hends m hm) z hz
  rw [(h.made_eq_nil hcounts).1, (h.made_eq_nil hcounts).2, ite_self, ite_self]
  refine ⟨rfl, .inr ⟨hloose, fun z hz => ⟨?_, ?_⟩⟩⟩
  · exact resumeAt_le (hr z hz).1 fun m hm => hends z hz m (match?_mem_found hm)
  · exact resumeAt_le (hr z hz).2 fun m hm => hends z hz m (blankedMatch?_mem_found hm)

/-- **Over one place** the same is made of what the two searches find, and they stay in step. -/
theorem Searches.step {x : TextPlace} {xs : List TextPlace}
    (h : Searches p counts allows f f' (x :: xs)) (hapart : apart p counts allows (x :: xs) = true)
    {r r' : Nat} (hr : Synced p counts (x :: xs) r r') :
    (if x.offset < r then [] else (x.match? p).toList.flatMap f)
        = (if x.offset < r' then [] else (x.blankedMatch? p).toList.flatMap f')
      ∧ Synced p counts xs (resumeAt x.offset r (x.match? p))
          (resumeAt x.offset r' (x.blankedMatch? p)) := by
  rcases hr with hr | ⟨hloose, hr⟩
  · exact h.step_of_together hapart hr
  by_cases hcounts : x.isCounting p counts = true
  · -- at a place that counts neither has passed it
    rw [nextCounting, List.find?_cons_of_pos hcounts] at hr
    obtain ⟨hle, hle'⟩ := hr x rfl
    refine h.step_of_together hapart fun z hz => ?_
    have hz : x.offset ≤ z.offset := by
      rcases List.mem_cons.mp hz with rfl | hz
      · exact Nat.le_refl _
      · exact Nat.le_of_lt ((List.pairwise_cons.mp h.ascend).1 z hz)
    omega
  · rw [nextCounting, List.find?_cons_of_neg hcounts] at hr
    exact h.step_of_loose (by simpa using hcounts) hloose hr

/-! ### Over all places -/

/-- **Searches that comments stand apart from make the same of their matches.** -/
theorem search_eq {xs : List TextPlace} (h : Searches p counts allows f f' xs)
    (hapart : apart p counts allows xs = true) {r r' : Nat} (hr : Synced p counts xs r r') :
    (p.searchAt r (xs.map TextPlace.here)).flatMap f
      = (p.searchAt r' (xs.filterMap TextPlace.there)).flatMap f' := by
  induction xs generalizing r r' with
  | nil => rfl
  | cons x xs ih =>
    obtain ⟨hmade, hbehind⟩ := h.step hapart hr
    rw [searchAt_here, searchAt_there, hmade,
      ih h.tail (Bool.and_eq_true_iff.mp hapart).2 hbehind]

/-- The two searches of a text and the blanked one, from their beginning. -/
theorem search_blanked {gs : List Glyph}
    (h : Searches p counts allows f f' (placesFrom [] gs))
    (hapart : apart p counts allows (placesFrom [] gs) = true) :
    (p.searchAt 0 (visible none 0 (written gs))).flatMap f
      = (p.searchAt 0 (visible none 0 (blanked gs))).flatMap f' := by
  have hhere := here_placesFrom [] gs
  have hthere := there_placesFrom [] gs
  rw [show visible none 0 (written gs) = (placesFrom [] gs).map TextPlace.here from hhere.symm,
    show visible none 0 (blanked gs) = (placesFrom [] gs).filterMap TextPlace.there from hthere.symm]
  exact search_eq h hapart (.inl fun _ _ => Iff.rfl)

end Simulation

end Scaffold

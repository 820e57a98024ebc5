/-
Scaffold/Proofs/Pattern/Shift.lean

Patterns in a text that stands further on.

A pattern asks a place for the characters after it and, of those before it, only
whether the last one belongs to a word.  From two places that agree in this
(`Cursor.Moved`) it goes the same ways, the offsets apart:

* `run_eq_of_moved` — a run from a place further on is the run with its states
  moved;
* `findAll_append` — behind a text in which no match can begin and no word stands,
  the matches are those of the text alone, moved.
-/
import Scaffold.Proofs.Pattern.Search
import Scaffold.Proofs.Scan.Neutral

namespace Scaffold

open Text

namespace Cursor

/-- One place is another, `d` bytes further on: what follows is the same, and a word goes on in both
or in neither. -/
structure Moved (d : Nat) (c' c : Cursor) : Prop where
  offset_eq : c'.offset = d + c.offset
  before_eq : c'.before.any isWordChar = c.before.any isWordChar
  rest_eq : c'.rest = c.rest

variable {d : Nat} {c' c : Cursor}

theorem Moved.isBoundary_eq (h : Moved d c' c) : c'.isBoundary = c.isBoundary := by
  rw [isBoundary, isBoundary, h.before_eq, h.rest_eq]

theorem Moved.isLineEnd_eq (h : Moved d c' c) : c'.isLineEnd = c.isLineEnd := by
  rw [isLineEnd, isLineEnd, h.rest_eq]

/-- Behind one more character the places agree again. -/
theorem Moved.next {offset offset' : Nat} (h : offset' = d + offset) (e : Char) (cs : List Char) :
    Moved d ⟨some e, offset' + e.utf8Size, cs⟩ ⟨some e, offset + e.utf8Size, cs⟩ :=
  ⟨by rw [h, Nat.add_assoc], rfl, rfl⟩

theorem Moved.skip (h : Moved d c' c) (cls : Char → Bool) :
    Moved d (Cursor.skip cls c'.before c'.offset c'.rest)
      (Cursor.skip cls c.before c.offset c.rest) := by
  obtain ⟨before', offset', cs'⟩ := c'
  obtain ⟨before, offset, cs⟩ := c
  obtain rfl : cs' = cs := h.rest_eq
  induction cs' generalizing before' offset' before offset with
  | nil => exact h
  | cons e cs ih =>
    rw [Cursor.skip, Cursor.skip]
    split_ifs
    · exact ih _ _ _ _ (.next h.offset_eq e cs)
    · exact h

end Cursor

namespace Pattern

/-! ### Runs from a place further on -/

/-- Captures further on. -/
def shiftCaptures (d : Nat) (k : Captures) : Captures := k.map fun c => (c.1, c.2.shift d)

/-- A state further on. -/
structure Moved (d : Nat) (s' s : State) : Prop where
  cursor : s'.cursor.Moved d s.cursor
  captures_eq : s'.captures = shiftCaptures d s.captures

variable {α : Type} {d : Nat}

/-- Giving characters back goes through the same places. -/
theorem runMany_eq_of_moved {k' k : Cursor → Option α} (hk : ∀ c' c, c'.Moved d c → k' c' = k c)
    (cls : Char → Bool) {c' c : Cursor} (h : c'.Moved d c) :
    runMany cls k' c'.before c'.offset c'.rest = runMany cls k c.before c.offset c.rest := by
  obtain ⟨before', offset', cs'⟩ := c'
  obtain ⟨before, offset, cs⟩ := c
  obtain rfl : cs' = cs := h.rest_eq
  induction cs' generalizing before' offset' before offset with
  | nil => exact hk _ _ h
  | cons e cs ih =>
    have hnext := ih _ _ _ _ (.next h.offset_eq e cs)
    have hhere := hk _ _ h
    simp only [runMany, hnext, hhere]

theorem runRounds_eq_of_moved {round' round : State → (State → Option α) → Option α}
    (hround : ∀ {k' k : State → Option α}, (∀ s' s, Moved d s' s → k' s' = k s) →
      ∀ s' s, Moved d s' s → round' s' k' = round s k)
    {k' k : State → Option α} (hk : ∀ s' s, Moved d s' s → k' s' = k s) (n : Nat) {s' s : State}
    (h : Moved d s' s) : runRounds round' k' n s' = runRounds round k n s := by
  induction n generalizing s' s with
  | zero => exact hk _ _ h
  | succ n ih =>
    -- a round consumes something from the one place if it does from the other
    have hmore : round' s' (fun t => if s'.cursor.offset < t.cursor.offset then
          runRounds round' k' n t else none)
        = round s (fun t => if s.cursor.offset < t.cursor.offset then
          runRounds round k n t else none) := by
      refine hround (fun t' t ht => ?_) s' s h
      simp only [h.cursor.offset_eq, ht.cursor.offset_eq, ih ht, Nat.add_lt_add_iff_left]
    rw [runRounds, runRounds, hmore, hk _ _ h]

/-- **A run from a place further on is the run with its states moved.** -/
theorem run_eq_of_moved {k' k : State → Option α} (hk : ∀ s' s, Moved d s' s → k' s' = k s)
    (p : Pattern) {s' s : State} (h : Moved d s' s) : p.run s' k' = p.run s k := by
  -- on the pattern, for all continuations that agree at moved states
  induction p generalizing k' k s' s with
  | empty => exact hk _ _ h
  | one cls =>
    rw [run, run, h.cursor.rest_eq]
    rcases s.cursor.rest with - | ⟨e, cs⟩
    · rfl
    · have hnext := hk ⟨s'.cursor.advance e cs, s'.captures⟩ ⟨s.cursor.advance e cs, s.captures⟩
        ⟨.next h.cursor.offset_eq e cs, h.captures_eq⟩
      simp only [hnext]
  | longest cls => exact hk _ _ ⟨h.cursor.skip cls, h.captures_eq⟩
  | many cls =>
    show runMany cls (fun c => k' ⟨c, s'.captures⟩) _ _ _
      = runMany cls (fun c => k ⟨c, s.captures⟩) _ _ _
    exact runMany_eq_of_moved (fun c' c hc => hk ⟨c', _⟩ ⟨c, _⟩ ⟨hc, h.captures_eq⟩) cls h.cursor
  | seq p q ihp ihq => exact ihp (fun _ _ ht => ihq hk ht) h
  | alt p q ihp ihq => rw [run, run, ihp hk h, ihq hk h]
  | rounds p ih =>
    rw [run, run, h.cursor.rest_eq]
    exact runRounds_eq_of_moved (fun hk _ _ ht => ih hk ht) hk _ h
  | keep slot p ih =>
    have hkeep : ∀ t' t, Moved d t' t →
        k' ⟨t'.cursor, (slot, ⟨s'.cursor.offset, t'.cursor.offset⟩) :: t'.captures⟩
          = k ⟨t.cursor, (slot, ⟨s.cursor.offset, t.cursor.offset⟩) :: t.captures⟩ := by
      intro t' t ht
      refine hk _ _ ⟨ht.cursor, ?_⟩
      rw [h.cursor.offset_eq, ht.cursor.offset_eq, ht.captures_eq]
      rfl
    exact ih hkeep h
  | boundary => rw [run, run, h.cursor.isBoundary_eq, hk _ _ h]
  | lineEnd => rw [run, run, h.cursor.isLineEnd_eq, hk _ _ h]

/-! ### Matches further on -/

namespace Match

/-- A match further on. -/
def shift (d : Nat) (m : Match) : Match := ⟨m.span.shift d, shiftCaptures d m.captures⟩

theorem capture?_shift (m : Match) (slot : Slot) :
    (m.shift d).capture? slot = (m.capture? slot).map (Span.shift d) := by
  rw [capture?, capture?, shift, shiftCaptures, List.find?_map, Option.map_map, Option.map_map]
  rfl

@[simp] theorem has_shift (m : Match) (slot : Slot) : (m.shift d).has slot = m.has slot := by
  rw [has, has, capture?_shift, Option.isSome_map]

/-- A match further on has captured the same text there. -/
@[simp] theorem text_shift (m : Match) (slot : Slot) (u v : List Char) :
    (m.shift (byteLength u)).text slot (u ++ v) = m.text slot v := by
  rw [text, text, capture?_shift]
  rcases m.capture? slot with - | s
  · rfl
  · exact slice_append_add u v s.start s.stop

end Match

theorem matchAt?_eq_of_moved (p : Pattern) {c' c : Cursor} (h : c'.Moved d c) :
    p.matchAt? c' = (p.matchAt? c).map (Match.shift d) := by
  rw [matchAt?, matchAt?, ← run_map]
  refine run_eq_of_moved (fun t' t ht => ?_) p ⟨h, rfl⟩
  rw [h.offset_eq, ht.cursor.offset_eq, ht.captures_eq]
  rfl

/-- **A search that begins further on finds the matches further on.** -/
theorem findFrom_eq_of_moved (p : Pattern) {before' before : Option Char} (offset : Nat)
    {cs : List Char} (h : before'.any isWordChar = before.any isWordChar) {r' r : Nat}
    (hr : SameResume (d + offset) r' (d + r)) :
    p.findFrom r' before' (d + offset) cs = (p.findFrom r before offset cs).map (Match.shift d) := by
  have hlt : ∀ {offset r' r}, SameResume (d + offset) r' (d + r) → (d + offset < r' ↔ offset < r) :=
    fun hr => hr.lt_iff.trans Nat.add_lt_add_iff_left
  have hmatch : ∀ {before' before : Option Char} {offset : Nat} {cs : List Char},
      before'.any isWordChar = before.any isWordChar → p.matchAt? ⟨before', d + offset, cs⟩
        = (p.matchAt? ⟨before, offset, cs⟩).map (Match.shift d) :=
    fun h => matchAt?_eq_of_moved p ⟨rfl, h, rfl⟩
  induction cs generalizing before' before offset r' r with
  | nil =>
    rw [findFrom, findFrom, hmatch h]
    simp only [hlt hr]
    split_ifs
    · rfl
    · cases p.matchAt? ⟨before, offset, []⟩ <;> rfl
  | cons e cs ih =>
    have hnext : ∀ {r' r}, SameResume (d + (offset + e.utf8Size)) r' (d + r) →
        p.findFrom r' (some e) (d + offset + e.utf8Size) cs
          = (p.findFrom r (some e) (offset + e.utf8Size) cs).map (Match.shift d) := by
      intro r' r hr
      rw [Nat.add_assoc]
      exact ih _ rfl hr
    have hle : d + offset ≤ d + (offset + e.utf8Size) := by omega
    -- the place is passed over, or nothing matches there, or the search resumes behind the match
    rw [findFrom, findFrom, hmatch h]
    simp only [hlt hr]
    split_ifs
    · exact hnext (hr.later hle)
    · rcases p.matchAt? ⟨before, offset, e :: cs⟩ with - | m
      · exact hnext (.inr ⟨Nat.zero_le _, by omega⟩)
      · refine congrArg (m.shift d :: ·) (hnext (.inl ?_))
        show max (d + m.span.stop) (d + offset + e.utf8Size) = _
        omega

/-- Over characters with which no match begins a search goes on. -/
theorem findFrom_of_starts {p : Pattern} (hnull : p.nullable = false) {u : List Char}
    (hu : ∀ c ∈ u, p.starts c = false) (before : Option Char) (offset : Nat) (v : List Char) :
    p.findFrom 0 before offset (u ++ v)
      = p.findFrom 0 (u.getLast?.or before) (offset + byteLength u) v := by
  induction u generalizing before offset with
  | nil => rfl
  | cons c u ih =>
    obtain ⟨hc, hu⟩ := List.forall_mem_cons.mp hu
    have hnone : p.matchAt? ⟨before, offset, c :: (u ++ v)⟩ = none :=
      run_eq_none_of_starts hnull (by rintro d ⟨⟩; exact hc)
    rw [List.cons_append, findFrom, if_neg (Nat.not_lt_zero _), hnone, byteLength_cons,
      ← Nat.add_assoc, List.getLast?_cons]
    refine (ih hu _ _).trans ?_
    cases u.getLast? <;> rfl

/-- **Behind a text in which no match can begin and no word stands, the matches are those of the
text alone, moved.** -/
theorem findAll_append {p : Pattern} (hnull : p.nullable = false) {u : List Char}
    (hu : ∀ c ∈ u, p.starts c = false) (hword : ∀ c ∈ u, isWordChar c = false) (v : List Char) :
    p.findAll (u ++ v) = (p.findAll v).map (Match.shift (byteLength u)) := by
  have hlast : (u.getLast?.or none).any isWordChar = none.any isWordChar := by
    rcases hlast : u.getLast? with - | c
    · rfl
    · exact hword c (List.mem_of_getLast? hlast)
  rw [findAll, findFrom_of_starts hnull hu, Nat.zero_add]
  exact findFrom_eq_of_moved p 0 hlast (.inr ⟨Nat.zero_le _, Nat.le_refl _⟩)

end Pattern

end Scaffold

/-
Scaffold/Proofs/Pattern/Ways.lean

The ways a pattern can match, as a relation.

`Pattern.run` hands one way after another to a continuation.  `Leads p s t`
says that one of the ways of `p` goes from the state `s` to the state `t`,
without saying which way comes first:

* `exists_of_run` — whatever a run returns, its continuation returned at a
  state to which a way leads;
* `Leads.behind` — a way goes over a piece of the text, and the spans it
  captures lie in that piece;
* `mem_findAll` — a match of a whole text is the first way at some place of it.
-/
import Scaffold.Proofs.Text.Slice
import Scaffold.Pattern

namespace Scaffold

open Text

namespace Cursor

/-- The place after the characters of `u`, `v` being the characters after them. -/
def behind (p : Cursor) (u v : List Char) : Cursor :=
  ⟨u.getLast?.or p.before, p.offset + byteLength u, v⟩

/-- The place in the text `u ++ v` after `u`. -/
def between (u v : List Char) : Cursor := (atStart (u ++ v)).behind u v

@[simp] theorem behind_offset (p : Cursor) (u v : List Char) :
    (p.behind u v).offset = p.offset + byteLength u := rfl

@[simp] theorem behind_rest (p : Cursor) (u v : List Char) : (p.behind u v).rest = v := rfl

theorem behind_nil (p : Cursor) : p.behind [] p.rest = p := rfl

theorem behind_behind (p : Cursor) (u v w x : List Char) :
    (p.behind u v).behind w x = p.behind (u ++ w) x := by
  simp [behind, Option.or_assoc, List.getLast?_append, byteLength_append, Nat.add_assoc]

@[simp] theorem between_offset (u v : List Char) : (between u v).offset = byteLength u := by
  simp [between, atStart]

@[simp] theorem between_rest (u v : List Char) : (between u v).rest = v := rfl

theorem between_eq (u v : List Char) : between u v = ⟨u.getLast?, byteLength u, v⟩ := by
  simp [between, behind, atStart]

end Cursor

namespace Pattern

/-! ### One way -/

/-- One of the ways a pattern matches goes from one state to another. -/
inductive Leads : Pattern → State → State → Prop
  | empty (s : State) : Leads .empty s s
  | one {cls : Char → Bool} {s : State} {c : Char} {cs : List Char} (hrest : s.cursor.rest = c :: cs)
      (hc : cls c = true) : Leads (.one cls) s ⟨s.cursor.behind [c] cs, s.captures⟩
  | longest {cls : Char → Bool} {s : State} {u v : List Char} (hrest : s.cursor.rest = u ++ v)
      (hu : ∀ c ∈ u, cls c = true) (hv : ∀ c ∈ v.head?, cls c = false) :
      Leads (.longest cls) s ⟨s.cursor.behind u v, s.captures⟩
  | many {cls : Char → Bool} {s : State} {u v : List Char} (hrest : s.cursor.rest = u ++ v)
      (hu : ∀ c ∈ u, cls c = true) : Leads (.many cls) s ⟨s.cursor.behind u v, s.captures⟩
  | seq {p q : Pattern} {s r t : State} (hp : Leads p s r) (hq : Leads q r t) : Leads (.seq p q) s t
  | altLeft {p q : Pattern} {s t : State} (h : Leads p s t) : Leads (.alt p q) s t
  | altRight {p q : Pattern} {s t : State} (h : Leads q s t) : Leads (.alt p q) s t
  | stop {p : Pattern} (s : State) : Leads (.rounds p) s s
  | more {p : Pattern} {s r t : State} (hp : Leads p s r) (hr : Leads (.rounds p) r t) :
      Leads (.rounds p) s t
  | keep {slot : Slot} {p : Pattern} {s t : State} (h : Leads p s t) :
      Leads (.keep slot p) s
        ⟨t.cursor, (slot, ⟨s.cursor.offset, t.cursor.offset⟩) :: t.captures⟩
  | boundary {s : State} (h : s.cursor.isBoundary = true) : Leads .boundary s s
  | lineEnd {s : State} (h : s.cursor.isLineEnd = true) : Leads .lineEnd s s

/-! ### What lies between -/

/-- One state is another one, some characters and some captures further on; each new capture begins
at a character after the first state and ends before the second. -/
def Onward (s t : State) : Prop :=
  ∃ u kept, s.cursor.rest = u ++ t.cursor.rest ∧ t.cursor = s.cursor.behind u t.cursor.rest
    ∧ t.captures = kept ++ s.captures
    ∧ ∀ c ∈ kept, (∃ v w, s.cursor.rest = v ++ w ∧ c.2.start = s.cursor.offset + byteLength v)
        ∧ c.2.start ≤ c.2.stop ∧ c.2.stop ≤ t.cursor.offset

theorem Onward.refl (s : State) : Onward s s :=
  ⟨[], [], rfl, (s.cursor.behind_nil).symm, rfl, by simp⟩

theorem Onward.of_behind {s : State} {u v : List Char} (h : s.cursor.rest = u ++ v) :
    Onward s ⟨s.cursor.behind u v, s.captures⟩ := ⟨u, [], h, rfl, rfl, by simp⟩

theorem Onward.offset_le {s t : State} (h : Onward s t) : s.cursor.offset ≤ t.cursor.offset := by
  obtain ⟨u, -, -, ht, -⟩ := h
  rw [ht]
  exact Nat.le_add_right _ _

theorem Onward.trans {s r t : State} (hs : Onward s r) (hr : Onward r t) : Onward s t := by
  have hle := hr.offset_le
  obtain ⟨u, kept, hrest, hcur, hcap, hin⟩ := hs
  obtain ⟨u', kept', hrest', hcur', hcap', hin'⟩ := hr
  refine ⟨u ++ u', kept' ++ kept, ?_, ?_, ?_, ?_⟩
  · rw [hrest, hrest', List.append_assoc]
  · rw [hcur', hcur, Cursor.behind_behind]
    rfl
  · rw [hcap', hcap, List.append_assoc]
  · intro c hc
    rcases List.mem_append.mp hc with hc | hc
    · -- captured on the second way
      obtain ⟨⟨v, w, hvw, hstart⟩, hspan⟩ := hin' c hc
      refine ⟨⟨u ++ v, w, by rw [hrest, hvw, List.append_assoc], ?_⟩, hspan⟩
      rw [hstart, hcur, Cursor.behind_offset, byteLength_append, Nat.add_assoc]
    · -- captured on the first
      obtain ⟨hstart, hspan, hstop⟩ := hin c hc
      exact ⟨hstart, hspan, Nat.le_trans hstop hle⟩

/-- A way goes onward. -/
theorem Leads.onward {p : Pattern} {s t : State} (h : Leads p s t) : Onward s t := by
  induction h with
  | empty s => exact .refl s
  | one hrest _ => exact .of_behind hrest
  | longest hrest _ _ => exact .of_behind hrest
  | many hrest _ => exact .of_behind hrest
  | seq _ _ ihp ihq => exact ihp.trans ihq
  | altLeft _ ih => exact ih
  | altRight _ ih => exact ih
  | stop s => exact .refl s
  | more _ _ ihp ihr => exact ihp.trans ihr
  | keep _ ih =>
    have hle := ih.offset_le
    obtain ⟨u, kept, hrest, hcur, hcap, hin⟩ := ih
    refine ⟨u, _ :: kept, hrest, hcur, congrArg (_ :: ·) hcap, ?_⟩
    intro c hc
    rcases List.mem_cons.mp hc with rfl | hc
    · exact ⟨⟨[], _, rfl, rfl⟩, hle, Nat.le_refl _⟩
    · exact hin c hc
  | boundary _ => exact .refl _
  | lineEnd _ => exact .refl _

/-! ### A run takes one of the ways -/

theorem skip_eq (cls : Char → Bool) (before : Option Char) (offset : Nat) (cs : List Char) :
    ∃ u v, cs = u ++ v ∧ (∀ c ∈ u, cls c = true) ∧ (∀ c ∈ v.head?, cls c = false)
      ∧ Cursor.skip cls before offset cs = Cursor.behind ⟨before, offset, cs⟩ u v := by
  induction cs generalizing before offset with
  | nil => exact ⟨[], [], rfl, by simp, by simp, rfl⟩
  | cons c cs ih =>
    by_cases hc : cls c = true
    · -- the character belongs to the run
      obtain ⟨u, v, hcs, hu, hv, hskip⟩ := ih (some c) (offset + c.utf8Size)
      refine ⟨c :: u, v, congrArg (c :: ·) hcs, ?_, hv, ?_⟩
      · intro d hd
        rcases List.mem_cons.mp hd with rfl | hd
        · exact hc
        · exact hu d hd
      · rw [Cursor.skip, if_pos hc, hskip]
        exact Cursor.behind_behind ⟨before, offset, c :: cs⟩ [c] cs u v
    · -- the run ends here
      refine ⟨[], c :: cs, rfl, by simp, ?_, ?_⟩
      · rintro d ⟨⟩
        simpa using hc
      · rw [Cursor.skip, if_neg hc]
        exact (Cursor.behind_nil _).symm

theorem exists_of_runMany {α : Type} {cls : Char → Bool} {k : Cursor → Option α}
    {before : Option Char} {offset : Nat} {cs : List Char} {a : α}
    (h : runMany cls k before offset cs = some a) :
    ∃ u v, cs = u ++ v ∧ (∀ c ∈ u, cls c = true)
      ∧ k (Cursor.behind ⟨before, offset, cs⟩ u v) = some a := by
  induction cs generalizing before offset with
  | nil => exact ⟨[], [], rfl, by simp, h⟩
  | cons c cs ih =>
    have hstop : k ⟨before, offset, c :: cs⟩ = some a → ∃ u v, c :: cs = u ++ v
        ∧ (∀ d ∈ u, cls d = true) ∧ k (Cursor.behind ⟨before, offset, c :: cs⟩ u v) = some a :=
      fun hk => ⟨[], c :: cs, rfl, by simp, hk⟩
    rw [runMany] at h
    split at h
    · next hc =>
      split at h
      · next a' hmore =>
        -- a longer prefix fits
        obtain ⟨u, v, hcs, hu, hk⟩ := ih (hmore.trans h)
        refine ⟨c :: u, v, congrArg (c :: ·) hcs, ?_, ?_⟩
        · intro d hd
          rcases List.mem_cons.mp hd with rfl | hd
          · exact hc
          · exact hu d hd
        · have hover := Cursor.behind_behind ⟨before, offset, c :: cs⟩ [c] cs u v
          rw [List.singleton_append] at hover
          rw [← hover]
          exact hk
      · -- none does
        exact hstop h
    · exact hstop h

theorem exists_of_runRounds {α : Type} {p : Pattern}
    {round : State → (State → Option α) → Option α}
    (hround : ∀ s k a, round s k = some a → ∃ t, Leads p s t ∧ k t = some a)
    {k : State → Option α} {n : Nat} {s : State} {a : α} (h : runRounds round k n s = some a) :
    ∃ t, Leads (.rounds p) s t ∧ k t = some a := by
  induction n generalizing s with
  | zero => exact ⟨s, .stop s, h⟩
  | succ n ih =>
    rw [runRounds] at h
    split at h
    · next a' hmore =>
      obtain ⟨r, hr, hk⟩ := hround _ _ _ (hmore.trans h)
      split at hk
      · obtain ⟨t, ht, hkt⟩ := ih hk
        exact ⟨t, .more hr ht, hkt⟩
      · cases hk
    · -- no further round
      exact ⟨s, .stop s, h⟩

/-- **A run takes one of the ways.** -/
theorem exists_of_run {α : Type} {p : Pattern} {s : State} {k : State → Option α} {a : α}
    (h : p.run s k = some a) : ∃ t, Leads p s t ∧ k t = some a := by
  -- on the pattern, for every continuation: that of a part is what is left of the whole
  induction p generalizing s k a with
  | empty => exact ⟨s, .empty s, h⟩
  | one cls =>
    rw [run] at h
    split at h
    · cases h
    · next c cs hrest =>
      split at h
      · next hc => exact ⟨_, .one hrest hc, h⟩
      · cases h
  | longest cls =>
    obtain ⟨u, v, hrest, hu, hv, hskip⟩ :=
      skip_eq cls s.cursor.before s.cursor.offset s.cursor.rest
    rw [run, hskip] at h
    exact ⟨_, .longest hrest hu hv, h⟩
  | many cls =>
    obtain ⟨u, v, hrest, hu, hk⟩ := exists_of_runMany (show runMany cls _ _ _ _ = some a from h)
    exact ⟨_, .many hrest hu, hk⟩
  | seq p q ihp ihq =>
    obtain ⟨r, hp, hr⟩ := ihp h
    obtain ⟨t, hq, ht⟩ := ihq hr
    exact ⟨t, .seq hp hq, ht⟩
  | alt p q ihp ihq =>
    rw [run] at h
    split at h
    · next a' hp =>
      obtain ⟨t, ht, hk⟩ := ihp (hp.trans h)
      exact ⟨t, .altLeft ht, hk⟩
    · obtain ⟨t, ht, hk⟩ := ihq h
      exact ⟨t, .altRight ht, hk⟩
  | rounds p ih => exact exists_of_runRounds (fun _ _ _ => ih) h
  | keep slot p ih =>
    obtain ⟨t, ht, hk⟩ := ih h
    exact ⟨_, .keep ht, hk⟩
  | boundary =>
    rw [run] at h
    split at h
    · next hb => exact ⟨s, .boundary hb, h⟩
    · cases h
  | lineEnd =>
    rw [run] at h
    split at h
    · next hb => exact ⟨s, .lineEnd hb, h⟩
    · cases h

/-! ### Runs with related continuations -/

section Related

variable {α β : Type} {R : Option α → Option β → Prop}

/-- Relations between results that survive taking the first of two results. -/
structure Lifts (R : Option α → Option β → Prop) : Prop where
  none : R .none .none
  orElse : ∀ {x z : Option α} {y w : Option β}, R x y → R z w →
    R (match x with | .some a => .some a | .none => z)
      (match y with | .some b => .some b | .none => w)

theorem runMany_related (hR : Lifts R) {cls : Char → Bool} {k : Cursor → Option α}
    {k' : Cursor → Option β} (h : ∀ c, R (k c) (k' c)) (before : Option Char) (offset : Nat)
    (cs : List Char) : R (runMany cls k before offset cs) (runMany cls k' before offset cs) := by
  induction cs generalizing before offset with
  | nil => exact h _
  | cons c cs ih =>
    rw [runMany, runMany]
    split_ifs
    · exact hR.orElse (ih _ _) (h _)
    · exact h _

/-- **Runs with related continuations are related.** -/
theorem run_related (hR : Lifts R) {k : State → Option α} {k' : State → Option β}
    (h : ∀ t, R (k t) (k' t)) (p : Pattern) (s : State) : R (p.run s k) (p.run s k') := by
  induction p generalizing k k' s with
  | empty => exact h s
  | one cls =>
    rw [run, run]
    rcases s.cursor.rest with - | ⟨c, cs⟩
    · exact hR.none
    · show R (if cls c then _ else _) (if cls c then _ else _)
      split_ifs
      · exact h _
      · exact hR.none
  | longest cls => exact h _
  | many cls => exact runMany_related hR (fun c => h _) _ _ _
  | seq p q ihp ihq => exact ihp (fun t => ihq h t) s
  | alt p q ihp ihq => exact hR.orElse (ihp h s) (ihq h s)
  | rounds p ih =>
    have hrounds : ∀ (n : Nat) (t : State), R (runRounds (fun s k => p.run s k) k n t)
        (runRounds (fun s k => p.run s k) k' n t) := by
      intro n
      induction n with
      | zero => exact h
      | succ n ihn =>
        intro t
        refine hR.orElse (ih (fun r => ?_) t) (h t)
        show R (if _ then _ else _) (if _ then _ else _)
        split_ifs
        · exact ihn r
        · exact hR.none
    exact hrounds _ s
  | keep slot p ih => exact ih (fun t => h _) s
  | boundary =>
    rw [run, run]
    split_ifs
    · exact h s
    · exact hR.none
  | lineEnd =>
    rw [run, run]
    split_ifs
    · exact h s
    · exact hR.none

/-- What is done to a result can be done after the run. -/
theorem run_map (f : α → β) (k : State → Option α) (p : Pattern) (s : State) :
    p.run s (fun t => (k t).map f) = (p.run s k).map f := by
  have hlifts : Lifts (fun (x : Option α) (y : Option β) => y = x.map f) := by
    refine ⟨rfl, ?_⟩
    rintro x z _ _ rfl rfl
    cases x <;> rfl
  exact run_related hlifts (fun _ => rfl) p s

end Related

/-! ### Matches -/

theorem mem_findFrom {p : Pattern} {m : Match} {u : List Char} {resume : Nat} {v : List Char}
    (h : m ∈ p.findFrom resume u.getLast? (byteLength u) v) :
    ∃ w x, v = w ++ x ∧ p.matchAt? (Cursor.between (u ++ w) x) = some m := by
  induction v generalizing u resume with
  | nil =>
    rw [findFrom] at h
    split_ifs at h
    · cases h
    · refine ⟨[], [], rfl, ?_⟩
      rw [List.append_nil, Cursor.between_eq]
      exact Option.mem_toList.mp h
  | cons c v ih =>
    have hnext : ∀ {resume}, m ∈ p.findFrom resume (some c) (byteLength u + c.utf8Size) v →
        ∃ w x, c :: v = w ++ x ∧ p.matchAt? (Cursor.between (u ++ w) x) = some m := by
      intro resume h
      rw [show byteLength u + c.utf8Size = byteLength (u ++ [c]) by simp [byteLength_append],
        show some c = (u ++ [c]).getLast? by simp] at h
      obtain ⟨w, x, rfl, hm⟩ := ih h
      exact ⟨c :: w, x, rfl, by simpa using hm⟩
    rw [findFrom] at h
    split_ifs at h
    · exact hnext h
    · split at h
      · next m' hm' =>
        rcases List.mem_cons.mp h with rfl | h
        · refine ⟨[], c :: v, rfl, ?_⟩
          rw [List.append_nil, Cursor.between_eq]
          exact hm'
        · exact hnext h
      · exact hnext h

/-- A match of a text is the first way at one of its places. -/
theorem mem_findAll {p : Pattern} {m : Match} {cs : List Char} (h : m ∈ p.findAll cs) :
    ∃ u v, cs = u ++ v ∧ p.matchAt? (Cursor.between u v) = some m := by
  obtain ⟨u, v, hcs, hm⟩ := mem_findFrom (u := []) h
  exact ⟨u, v, hcs, hm⟩

/-- A match at a place ends where one of the ways leads. -/
theorem exists_of_matchAt? {p : Pattern} {cursor : Cursor} {m : Match}
    (h : p.matchAt? cursor = some m) :
    ∃ t, Leads p ⟨cursor, []⟩ t ∧ m = ⟨⟨cursor.offset, t.cursor.offset⟩, t.captures⟩ := by
  obtain ⟨t, ht, hk⟩ := exists_of_run h
  exact ⟨t, ht, (Option.some.inj hk).symm⟩

/-! ### Patterns that end in one character -/

theorem inOrder_cons_of_ne_nil (p : Pattern) {ps : List Pattern} (h : ps ≠ []) :
    inOrder (p :: ps) = .seq p (inOrder ps) := by
  obtain ⟨q, ps, rfl⟩ := List.exists_cons_of_ne_nil h
  rfl

/-- A way of several patterns and one character is onward to the place before that character. -/
theorem Leads.before_last {ps : List Pattern} {cls : Char → Bool} {s t : State}
    (h : Leads (inOrder (ps ++ [.one cls])) s t) :
    ∃ r c cs, Onward s r ∧ r.cursor.rest = c :: cs ∧ cls c = true
      ∧ t = ⟨r.cursor.behind [c] cs, r.captures⟩ := by
  induction ps generalizing s with
  | nil =>
    cases h with
    | one hrest hc => exact ⟨s, _, _, .refl s, hrest, hc, rfl⟩
  | cons p ps ih =>
    rw [List.cons_append, inOrder_cons_of_ne_nil p (by simp)] at h
    cases h with
    | seq hp hq =>
      obtain ⟨r, c, cs, hr, hrest⟩ := ih hq
      exact ⟨r, c, cs, hp.onward.trans hr, hrest⟩

end Pattern

end Scaffold

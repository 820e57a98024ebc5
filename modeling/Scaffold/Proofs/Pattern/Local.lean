/-
Scaffold/Proofs/Pattern/Local.lean

A match does not depend on what stands behind it.

Two texts may be the same up to some place and go on differently from there, a
slash in one and a blank in the other (`Fork`).  A pattern is then run on both
in lockstep: as long as neither run has come to the place where the texts part,
the two are at the same offset with the same captures (`Fork.Twin`), and a
continuation that refuses all later places cannot tell the runs apart
(`run_eq_of_twin`).

A run may also come right up to that place and end there.  What it looks at next
is then a slash in one text and a blank in the other, so this takes a pattern
that takes a last character in front of the place and does not tell slashes from
blanks after it (`lands`).

* `run_refuse` — refusing some results changes the first one only if it is
  refused;
* `agree_of_lands` — a pattern that lands makes continuations that agree up to
  the place into continuations that agree in front of it;
* `matchAt?_eq_of_twin` — if neither text has a match that runs over the place
  where they part, they have the same match.
-/
import Scaffold.Proofs.Pattern.Search

namespace Scaffold

open Text

namespace Pattern

/-! ### Texts that part -/

/-- Two texts that are the same up to some place and part there, at a slash in the one and a blank
in the other; or that do not part at all. -/
structure Fork where
  /-- What the texts have in common. -/
  common : List Char
  /-- The offset behind that. -/
  stop : Nat
  ahead : List Char
  ahead' : List Char
  parts : (ahead = [] ∧ ahead' = []) ∨ ∃ x x', ahead = '/' :: x ∧ ahead' = ' ' :: x'

namespace Fork

variable (f : Fork)

/-- The first offset at which the texts may be told apart. -/
def limit : Nat := if f.ahead = [] then f.stop + 1 else f.stop

/-- A state from which the texts may be told apart. -/
def Past (s : State) : Prop := f.limit ≤ s.cursor.offset

/-- States of the two texts at one place where they have not parted yet. -/
structure Twin (s s' : State) : Prop where
  offset_eq : s.cursor.offset = s'.cursor.offset
  captures_eq : s.captures = s'.captures
  before_eq : s.cursor.before.any isWordChar = s'.cursor.before.any isWordChar
  rest_eq : ∃ w, w <:+ f.common ∧ s.cursor.rest = w ++ f.ahead ∧ s'.cursor.rest = w ++ f.ahead'
    ∧ s.cursor.offset + byteLength w = f.stop ∧ (w = [] → f.ahead = [])

variable {f}

theorem ahead_eq_nil_iff : f.ahead' = [] ↔ f.ahead = [] := by
  rcases f.parts with ⟨h, h'⟩ | ⟨x, x', h, h'⟩
  · rw [h, h']
  · rw [h, h']
    simp

theorem past_iff_of_ne_nil (h : f.ahead ≠ []) (s : State) :
    f.Past s ↔ f.stop ≤ s.cursor.offset := by
  rw [Past, limit, if_neg h]

/-- Some characters on, the texts have parted, or the states are twins again. -/
theorem Twin.behind {s s' : State} (h : f.Twin s s') {u v : List Char}
    (hsuffix : u ++ v <:+ f.common) (hrest : s.cursor.rest = u ++ v ++ f.ahead)
    (hstop : s.cursor.offset + byteLength (u ++ v) = f.stop) (kept : Captures) :
    f.Twin ⟨s.cursor.behind u (v ++ f.ahead), kept⟩ ⟨s'.cursor.behind u (v ++ f.ahead'), kept⟩
      ∨ (f.Past ⟨s.cursor.behind u (v ++ f.ahead), kept⟩
          ∧ f.Past ⟨s'.cursor.behind u (v ++ f.ahead'), kept⟩) := by
  rw [byteLength_append] at hstop
  by_cases hv : v = [] → f.ahead = []
  · -- something is left in common, or nothing follows it
    refine .inl ⟨congrArg (· + byteLength u) h.offset_eq, rfl, ?_, v, ?_, rfl, rfl, ?_, hv⟩
    · show (u.getLast?.or s.cursor.before).any _ = (u.getLast?.or s'.cursor.before).any _
      rcases u.getLast? with - | c
      · exact h.before_eq
      · rfl
    · exact (List.suffix_append u v).trans hsuffix
    · show s.cursor.offset + byteLength u + byteLength v = f.stop
      omega
  · -- the place where the texts part is reached
    obtain ⟨rfl, hahead⟩ := Classical.not_imp.mp hv
    rw [past_iff_of_ne_nil hahead, past_iff_of_ne_nil hahead, Cursor.behind_offset,
      Cursor.behind_offset, ← h.offset_eq]
    have : byteLength [] = 0 := rfl
    exact .inr ⟨by omega, by omega⟩

theorem Twin.head?_eq {s s' : State} (h : f.Twin s s') :
    s.cursor.rest.head? = s'.cursor.rest.head? := by
  obtain ⟨w, -, hrest, hrest', -, hw⟩ := h.rest_eq
  cases w with
  | nil => rw [hrest, hrest', hw rfl, ahead_eq_nil_iff.mpr (hw rfl)]
  | cons c w => rw [hrest, hrest']; rfl

theorem Twin.isBoundary_eq {s s' : State} (h : f.Twin s s') :
    s.cursor.isBoundary = s'.cursor.isBoundary := by
  rw [Cursor.isBoundary, Cursor.isBoundary, h.head?_eq, h.before_eq]

theorem isLineEnd_eq (p : Cursor) : p.isLineEnd = p.rest.head?.all (· == '\n') := by
  rcases p with ⟨before, offset, - | ⟨c, cs⟩⟩ <;> rfl

theorem Twin.isLineEnd_eq {s s' : State} (h : f.Twin s s') :
    s.cursor.isLineEnd = s'.cursor.isLineEnd := by
  rw [Fork.isLineEnd_eq, Fork.isLineEnd_eq, h.head?_eq]

theorem Twin.keep {s s' t t' : State} (h : f.Twin s s') (ht : f.Twin t t') (slot : Slot) :
    f.Twin ⟨t.cursor, (slot, ⟨s.cursor.offset, t.cursor.offset⟩) :: t.captures⟩
      ⟨t'.cursor, (slot, ⟨s'.cursor.offset, t'.cursor.offset⟩) :: t'.captures⟩ :=
  ⟨ht.offset_eq, by rw [h.offset_eq, ht.offset_eq, ht.captures_eq], ht.before_eq, ht.rest_eq⟩

/-- Continuations that agree where the texts have not parted, and refuse all other places. -/
structure Agree (f : Fork) {α : Type} (k k' : State → Option α) : Prop where
  twin : ∀ s s', f.Twin s s' → k s = k' s'
  past : ∀ s, f.Past s → k s = none
  past' : ∀ s, f.Past s → k' s = none

end Fork

/-! ### Runs in lockstep -/

section Lockstep

variable {α : Type} {f : Fork}

theorem run_eq_none {p : Pattern} {s : State} {k : State → Option α}
    (h : ∀ t, s.cursor.offset ≤ t.cursor.offset → k t = none) : p.run s k = none := by
  rcases hrun : p.run s k with - | a
  · rfl
  · obtain ⟨t, ht, hk⟩ := exists_of_run hrun
    rw [h t ht.onward.offset_le] at hk
    cases hk

/-- From a place where the texts have parted nothing comes back. -/
theorem run_eq_none_of_past {p : Pattern} {s : State} {k : State → Option α} (hs : f.Past s)
    (hk : ∀ t, f.Past t → k t = none) : p.run s k = none :=
  run_eq_none fun t ht => hk t (Nat.le_trans hs ht)

theorem runMany_eq_none_of_le {cls : Char → Bool} {k : Cursor → Option α} {n : Nat}
    {before : Option Char} {offset : Nat} {cs : List Char} (h : n ≤ offset)
    (hk : ∀ c : Cursor, n ≤ c.offset → k c = none) : runMany cls k before offset cs = none := by
  rcases hrun : runMany cls k before offset cs with - | a
  · rfl
  · obtain ⟨u, v, -, -, ha⟩ := exists_of_runMany hrun
    rw [hk _ (Nat.le_trans h (Nat.le_add_right _ _))] at ha
    cases ha

theorem runRounds_eq_none_of_past {p : Pattern} {k : State → Option α} {n : Nat} {s : State}
    (hs : f.Past s) (hk : ∀ t, f.Past t → k t = none) :
    runRounds (fun s' k' => p.run s' k') k n s = none := by
  rcases hrun : runRounds (fun s' k' => p.run s' k') k n s with - | a
  · rfl
  · obtain ⟨t, ht, ha⟩ := exists_of_runRounds (fun _ _ _ => exists_of_run) hrun
    rw [hk t (Nat.le_trans hs ht.onward.offset_le)] at ha
    cases ha

theorem skip_append {cls : Char → Bool} {u : List Char} (hu : ∀ c ∈ u, cls c = true)
    (before : Option Char) (offset : Nat) (v : List Char) :
    Cursor.skip cls before offset (u ++ v)
      = Cursor.skip cls (u.getLast?.or before) (offset + byteLength u) v := by
  induction u generalizing before offset with
  | nil => rfl
  | cons c u ih =>
    rw [List.cons_append, Cursor.skip, if_pos (hu c List.mem_cons_self),
      ih (fun d hd => hu d (List.mem_cons_of_mem _ hd)), byteLength_cons, Nat.add_assoc,
      List.getLast?_cons]
    cases u.getLast? <;> rfl

theorem skip_of_head {cls : Char → Bool} (before : Option Char) (offset : Nat) {v : List Char}
    (hv : ∀ c ∈ v.head?, cls c = false) :
    Cursor.skip cls before offset v = ⟨before, offset, v⟩ := by
  cases v with
  | nil => rfl
  | cons c v => rw [Cursor.skip, if_neg (by simp [hv c rfl])]

theorem skip_le (cls : Char → Bool) (before : Option Char) (offset : Nat) (cs : List Char) :
    offset ≤ (Cursor.skip cls before offset cs).offset := by
  obtain ⟨u, v, -, -, -, hskip⟩ := skip_eq cls before offset cs
  rw [hskip]
  exact Nat.le_add_right _ _

/-- A longest run of characters ends where the texts are still the same, or both runs come to the
place where they part. -/
theorem skip_twin {s s' t t' : State} (h : f.Twin s s') {cls : Char → Bool} {kept : Captures}
    (ht : t = ⟨Cursor.skip cls s.cursor.before s.cursor.offset s.cursor.rest, kept⟩)
    (ht' : t' = ⟨Cursor.skip cls s'.cursor.before s'.cursor.offset s'.cursor.rest, kept⟩) :
    f.Twin t t' ∨ (f.Past t ∧ f.Past t') := by
  obtain ⟨w, hsuffix, hrest, hrest', hstop, -⟩ := h.rest_eq
  obtain ⟨u, v, rfl, hu, hv, -⟩ := skip_eq cls none 0 w
  rw [hrest, List.append_assoc, skip_append hu] at ht
  rw [hrest', List.append_assoc, skip_append hu] at ht'
  by_cases hend : v = [] ∧ f.ahead ≠ []
  · -- both runs cover all that is common
    obtain ⟨rfl, hahead⟩ := hend
    rw [List.append_nil] at hstop
    rw [Fork.past_iff_of_ne_nil hahead, Fork.past_iff_of_ne_nil hahead, ht, ht', ← h.offset_eq,
      hstop]
    exact .inr ⟨skip_le _ _ _ _, skip_le _ _ _ _⟩
  · have hstay : ∀ x, (x = [] ↔ f.ahead = []) → ∀ c ∈ (v ++ x).head?, cls c = false := by
      intro x hx c hc
      cases v with
      | nil =>
        rw [hx.mpr (Classical.not_not.mp fun hahead => hend ⟨rfl, hahead⟩)] at hc
        cases hc
      | cons d v => exact hv c hc
    rw [skip_of_head _ _ (hstay _ Iff.rfl)] at ht
    rw [skip_of_head _ _ (hstay _ Fork.ahead_eq_nil_iff)] at ht'
    rw [ht, ht']
    exact h.behind hsuffix hrest hstop kept

/-- Giving characters back goes through the same places in both texts. -/
theorem runMany_eq_of_twin {cls : Char → Bool} {k k' : State → Option α} (hk : f.Agree k k')
    {s s' : State} (h : f.Twin s s') (kept : Captures) :
    runMany cls (fun c => k ⟨c, kept⟩) s.cursor.before s.cursor.offset s.cursor.rest
      = runMany cls (fun c => k' ⟨c, kept⟩) s'.cursor.before s'.cursor.offset s'.cursor.rest := by
  obtain ⟨w, hsuffix, hrest, hrest', hstop, hw⟩ := h.rest_eq
  induction w generalizing s s' with
  | nil =>
    rw [hw rfl, List.append_nil] at hrest
    rw [Fork.ahead_eq_nil_iff.mpr (hw rfl), List.append_nil] at hrest'
    rw [hrest, hrest', runMany, runMany]
    refine hk.twin _ _ ⟨h.offset_eq, rfl, h.before_eq, [], List.nil_suffix, ?_, ?_, hstop, hw⟩
    · rw [hw rfl]
      rfl
    · rw [Fork.ahead_eq_nil_iff.mpr (hw rfl)]
      rfl
  | cons c w ih =>
    -- to stop here, or to take one more character and go on from there
    have hhere : k ⟨⟨s.cursor.before, s.cursor.offset, c :: w ++ f.ahead⟩, kept⟩
        = k' ⟨⟨s'.cursor.before, s'.cursor.offset, c :: w ++ f.ahead'⟩, kept⟩ :=
      hk.twin _ _ ⟨h.offset_eq, rfl, h.before_eq, c :: w, hsuffix, rfl, rfl, hstop, hw⟩
    have hnext : runMany cls (fun c => k ⟨c, kept⟩) (some c) (s.cursor.offset + c.utf8Size)
          (w ++ f.ahead)
        = runMany cls (fun c => k' ⟨c, kept⟩) (some c) (s'.cursor.offset + c.utf8Size)
          (w ++ f.ahead') := by
      rcases h.behind (u := [c]) hsuffix hrest hstop kept with htwin | ⟨hpast, hpast'⟩
      · obtain ⟨w', hsuffix', hrest₁, -, hstop', hw'⟩ := htwin.rest_eq
        obtain rfl : w = w' := List.append_cancel_right hrest₁
        exact ih htwin hsuffix' rfl rfl hstop' hw'
      · rw [runMany_eq_none_of_le (show f.limit ≤ s.cursor.offset + c.utf8Size from hpast)
            fun c hc => hk.past ⟨c, kept⟩ hc,
          runMany_eq_none_of_le (show f.limit ≤ s'.cursor.offset + c.utf8Size from hpast')
            fun c hc => hk.past' ⟨c, kept⟩ hc]
    rw [hrest, hrest', List.cons_append, List.cons_append, runMany, runMany, hnext]
    split_ifs
    · rw [← List.cons_append, ← List.cons_append, hhere]
    · exact hhere

/-- At the end of a text no round consumes anything, so a repetition stops. -/
theorem runRounds_at_end (p : Pattern) (k : State → Option α) (n : Nat) {s : State}
    (hs : s.cursor.rest = []) : runRounds (fun s k => p.run s k) k n s = k s := by
  cases n with
  | zero => rfl
  | succ n =>
    have hmore : p.run s (fun t => if s.cursor.offset < t.cursor.offset then
        runRounds (fun s k => p.run s k) k n t else none) = none := by
      rcases hrun : p.run s _ with - | a
      · rfl
      · obtain ⟨t, ht, ha⟩ := exists_of_run hrun
        obtain ⟨u, -, hrest, hcur, -⟩ := ht.onward
        rw [hs] at hrest
        obtain ⟨rfl, -⟩ := List.append_eq_nil_iff.mp hrest.symm
        rw [hcur, Cursor.behind_offset, byteLength_nil, if_neg (by simp)] at ha
        cases ha
    rw [runRounds, hmore]

/-- Of two ends of one text the one that is shorter in bytes has fewer characters. -/
theorem length_lt_of_suffix {w v cs : List Char} (hw : w <:+ cs) (hv : v <:+ cs)
    (h : byteLength v < byteLength w) : v.length < w.length := by
  by_contra hle
  obtain ⟨u, rfl⟩ := List.suffix_of_suffix_length_le hw hv (Nat.le_of_not_lt hle)
  rw [byteLength_append] at h
  omega

/-- Where every round agrees so does the repetition, whatever bounds it, as long as the bounds are
not below the length of what the texts have in common. -/
theorem runRounds_eq_of_twin {p : Pattern}
    (hround : ∀ {k k' : State → Option α} {s s' : State}, f.Agree k k' → f.Twin s s' →
      p.run s k = p.run s' k')
    {k k' : State → Option α} (hk : f.Agree k k') {n n' : Nat} {s s' : State} (h : f.Twin s s')
    (hn : s.cursor.rest.length ≤ n + f.ahead.length)
    (hn' : s'.cursor.rest.length ≤ n' + f.ahead'.length) :
    runRounds (fun s k => p.run s k) k n s = runRounds (fun s k => p.run s k) k' n' s' := by
  induction n generalizing n' s s' with
  | zero =>
    obtain ⟨w, -, hrest, hrest', -, hw⟩ := h.rest_eq
    rw [hrest, List.length_append, Nat.zero_add] at hn
    obtain rfl : w = [] := List.eq_nil_of_length_eq_zero (by omega)
    rw [Fork.ahead_eq_nil_iff.mpr (hw rfl)] at hrest'
    rw [runRounds, runRounds_at_end p k' n' hrest', hk.twin s s' h]
  | succ n ih =>
    obtain ⟨w, hsuffix, hrest, hrest', hstop, hw⟩ := h.rest_eq
    rw [hrest, List.length_append] at hn
    rw [hrest', List.length_append] at hn'
    cases w with
    | nil =>
      rw [hw rfl] at hrest
      rw [Fork.ahead_eq_nil_iff.mpr (hw rfl)] at hrest'
      rw [runRounds_at_end p k _ hrest, runRounds_at_end p k' _ hrest', hk.twin s s' h]
    | cons c w =>
      rw [List.length_cons] at hn hn'
      obtain ⟨n', rfl⟩ : ∃ m, n' = m + 1 := ⟨n' - 1, by omega⟩
      -- a round that consumes something leaves less in common
      have hagree : f.Agree
          (fun t => if s.cursor.offset < t.cursor.offset then
            runRounds (fun s k => p.run s k) k n t else none)
          (fun t => if s'.cursor.offset < t.cursor.offset then
            runRounds (fun s k => p.run s k) k' n' t else none) := by
        refine ⟨fun t t' ht => ?_, fun t ht => ?_, fun t ht => ?_⟩
        · show (if _ then _ else _) = (if _ then _ else _)
          rw [← h.offset_eq, ← ht.offset_eq]
          split_ifs with hlt
          · obtain ⟨v, hv, hvrest, hvrest', hvstop, -⟩ := ht.rest_eq
            have hlen : v.length < (c :: w).length :=
              length_lt_of_suffix hsuffix hv (by omega)
            rw [List.length_cons] at hlen
            refine ih ht ?_ ?_
            · rw [hvrest, List.length_append]
              omega
            · rw [hvrest', List.length_append]
              omega
          · rfl
        · show (if _ then _ else _) = none
          rw [runRounds_eq_none_of_past ht hk.past]
          exact ite_self _
        · show (if _ then _ else _) = none
          rw [runRounds_eq_none_of_past ht hk.past']
          exact ite_self _
      rw [runRounds, runRounds, hround hagree h, hk.twin s s' h]

/-- **Two runs agree as long as the texts do**, if their continuations do and refuse all places
from which the texts may be told apart. -/
theorem run_eq_of_twin {p : Pattern} {k k' : State → Option α} (hk : f.Agree k k') {s s' : State}
    (h : f.Twin s s') : p.run s k = p.run s' k' := by
  induction p generalizing k k' s s' with
  | empty => exact hk.twin s s' h
  | one cls =>
    obtain ⟨w, hsuffix, hrest, hrest', hstop, hw⟩ := h.rest_eq
    rw [run, run, hrest, hrest']
    cases w with
    | nil =>
      rw [hw rfl, Fork.ahead_eq_nil_iff.mpr (hw rfl)]
      rfl
    | cons c w =>
      show (if cls c then k ⟨s.cursor.behind [c] (w ++ f.ahead), s.captures⟩ else none)
        = (if cls c then k' ⟨s'.cursor.behind [c] (w ++ f.ahead'), s'.captures⟩ else none)
      rw [← h.captures_eq]
      rcases h.behind (u := [c]) hsuffix hrest hstop s.captures with htwin | ⟨hpast, hpast'⟩
      · rw [hk.twin _ _ htwin]
      · rw [hk.past _ hpast, hk.past' _ hpast']
  | longest cls =>
    rw [run, run, ← h.captures_eq]
    rcases @skip_twin _ _ _ _ _ h cls _ rfl rfl with htwin | ⟨hpast, hpast'⟩
    · exact hk.twin _ _ htwin
    · rw [hk.past _ hpast, hk.past' _ hpast']
  | many cls =>
    rw [run, run, ← h.captures_eq]
    exact runMany_eq_of_twin hk h s.captures
  | seq p q ihp ihq =>
    -- to go on with `q` is a continuation that agrees and refuses the same places
    refine ihp ⟨fun t t' ht => ihq hk ht, fun t ht => ?_, fun t ht => ?_⟩ h
    · exact run_eq_none_of_past ht hk.past
    · exact run_eq_none_of_past ht hk.past'
  | alt p q ihp ihq => rw [run, run, ihp hk h, ihq hk h]
  | rounds p ih =>
    obtain ⟨w, -, hrest, hrest', -⟩ := h.rest_eq
    exact runRounds_eq_of_twin (fun hk h => ih hk h) hk h (Nat.le_add_right _ _)
      (Nat.le_add_right _ _)
  | keep slot p ih =>
    refine ih ⟨fun t t' ht => hk.twin _ _ (h.keep ht slot), fun t ht => ?_, fun t ht => ?_⟩ h
    · exact hk.past _ ht
    · exact hk.past' _ ht
  | boundary => rw [run, run, h.isBoundary_eq, hk.twin s s' h]
  | lineEnd => rw [run, run, h.isLineEnd_eq, hk.twin s s' h]

end Lockstep

/-! ### Refusing some results -/

/-- A result is unchanged, or it was one of the bad ones. -/
def SameUnless {α : Type} (bad : α → Prop) (x y : Option α) : Prop :=
  x = y ∨ ∃ a, y = some a ∧ bad a

/-- **Refusing bad results changes the first result only if it is bad.** -/
theorem run_refuse {α : Type} {bad : α → Prop} {k k' : State → Option α}
    (h : ∀ t, SameUnless bad (k' t) (k t)) (p : Pattern) (s : State) :
    SameUnless bad (p.run s k') (p.run s k) := by
  refine run_related ⟨.inl rfl, fun {x z y w} hx hz => ?_⟩ h p s
  rcases hx with rfl | ⟨a, rfl, ha⟩
  · cases x with
    | some a => exact .inl rfl
    | none => exact hz
  · exact .inr ⟨a, rfl, ha⟩

/-- The match that ends at a state, refused from some offset on. -/
def nearMatch (limit start : Nat) (t : State) : Option Match :=
  if limit ≤ t.cursor.offset then none else some ⟨⟨start, t.cursor.offset⟩, t.captures⟩

/-- A match that ends before the limit is found also by the search that refuses the others. -/
theorem run_nearMatch {limit : Nat} {p : Pattern} {c : Cursor}
    (h : ∀ m ∈ p.matchAt? c, m.span.stop < limit) :
    p.run ⟨c, []⟩ (nearMatch limit c.offset) = p.matchAt? c := by
  have hnear : ∀ t : State, SameUnless (fun m : Match => limit ≤ m.span.stop)
      (nearMatch limit c.offset t) (some ⟨⟨c.offset, t.cursor.offset⟩, t.captures⟩) := by
    intro t
    by_cases hlimit : limit ≤ t.cursor.offset
    · exact .inr ⟨_, rfl, hlimit⟩
    · exact .inl (if_neg hlimit)
  rcases run_refuse hnear p ⟨c, []⟩ with hsame | ⟨m, hsome, hbad⟩
  · exact hsame
  · exact absurd (h m hsome) (Nat.not_lt_of_le hbad)

/-! ### Up to the place where the texts part -/

/-- States of the two texts at one place, which may be the one where they part. -/
structure Fork.Near (f : Fork) (s s' : State) : Prop where
  offset_eq : s.cursor.offset = s'.cursor.offset
  captures_eq : s.captures = s'.captures
  before_eq : s.cursor.before.any isWordChar = s'.cursor.before.any isWordChar
  rest_eq : ∃ w, w <:+ f.common ∧ s.cursor.rest = w ++ f.ahead ∧ s'.cursor.rest = w ++ f.ahead'
    ∧ s.cursor.offset + byteLength w = f.stop

/-- Continuations that agree up to where the texts part, and refuse all places behind that. -/
structure Fork.NearAgree (f : Fork) {α : Type} (k k' : State → Option α) : Prop where
  near : ∀ s s', f.Near s s' → k s = k' s'
  far : ∀ s, f.stop < s.cursor.offset → k s = none
  far' : ∀ s, f.stop < s.cursor.offset → k' s = none

/-- Whether the runs of characters in a pattern end at a blank if and only if they end at a
slash. -/
def steady : Pattern → Bool
  | longest cls => cls '/' == cls ' '
  | seq p q | alt p q => p.steady && q.steady
  | keep _ p => p.steady
  | rounds _ => false
  | _ => true

/-- Whether a pattern takes a character and is steady after it. -/
def lands : Pattern → Bool
  | one _ => true
  | seq p q => q.lands || (q.steady && p.lands)
  | alt p q => p.lands && q.lands
  | keep _ p => p.lands
  | _ => false

theorem nullable_of_lands {p : Pattern} (hp : p.lands = true) : p.nullable = false := by
  induction p with
  | one cls => rfl
  | seq p q ihp ihq =>
    rw [lands, Bool.or_eq_true, Bool.and_eq_true] at hp
    rw [nullable, Bool.and_eq_false_iff]
    exact hp.elim (fun h => .inr (ihq h)) (fun h => .inl (ihp h.2))
  | alt p q ihp ihq =>
    rw [lands, Bool.and_eq_true] at hp
    rw [nullable, ihp hp.1, ihq hp.2]
    rfl
  | keep _ p ih => exact ih hp
  | _ => cases hp

section Landing

variable {α : Type} {f : Fork} {s s' : State} {k k' : State → Option α}

theorem Fork.Twin.near (h : f.Twin s s') : f.Near s s' := by
  obtain ⟨w, hsuffix, hrest, hrest', hstop, -⟩ := h.rest_eq
  exact ⟨h.offset_eq, h.captures_eq, h.before_eq, w, hsuffix, hrest, hrest', hstop⟩

theorem Fork.Near.keep {t t' : State} (h : f.Near s s') (ht : f.Near t t') (slot : Slot) :
    f.Near ⟨t.cursor, (slot, ⟨s.cursor.offset, t.cursor.offset⟩) :: t.captures⟩
      ⟨t'.cursor, (slot, ⟨s'.cursor.offset, t'.cursor.offset⟩) :: t'.captures⟩ :=
  ⟨ht.offset_eq, by rw [h.offset_eq, ht.offset_eq, ht.captures_eq], ht.before_eq, ht.rest_eq⟩

/-- Some characters on, but not behind the place where the texts part, the states are near again. -/
theorem Fork.Near.behind (h : f.Near s s') {u v : List Char} (hsuffix : u ++ v <:+ f.common)
    (hstop : s.cursor.offset + byteLength (u ++ v) = f.stop) (kept : Captures) :
    f.Near ⟨s.cursor.behind u (v ++ f.ahead), kept⟩ ⟨s'.cursor.behind u (v ++ f.ahead'), kept⟩ := by
  refine ⟨congrArg (· + byteLength u) h.offset_eq, rfl, ?_, v,
    (List.suffix_append u v).trans hsuffix, rfl, rfl, ?_⟩
  · show (u.getLast?.or s.cursor.before).any _ = (u.getLast?.or s'.cursor.before).any _
    rcases u.getLast? with - | c
    · exact h.before_eq
    · rfl
  · rw [byteLength_append] at hstop
    show s.cursor.offset + byteLength u + byteLength v = f.stop
    omega

/-- What comes next is the same, or a slash and a blank. -/
theorem Fork.Near.head_cases (h : f.Near s s') :
    s.cursor.rest.head? = s'.cursor.rest.head?
      ∨ (s.cursor.rest.head? = some '/' ∧ s'.cursor.rest.head? = some ' ') := by
  obtain ⟨w, -, hrest, hrest', -⟩ := h.rest_eq
  rw [hrest, hrest']
  rcases w with - | ⟨c, w⟩
  · rcases f.parts with ⟨ha, ha'⟩ | ⟨x, x', ha, ha'⟩
    · exact .inl (by rw [ha, ha'])
    · exact .inr (by rw [ha, ha']; exact ⟨rfl, rfl⟩)
  · exact .inl rfl

theorem Fork.Near.isBoundary_eq (h : f.Near s s') :
    s.cursor.isBoundary = s'.cursor.isBoundary := by
  rw [Cursor.isBoundary, Cursor.isBoundary, h.before_eq]
  rcases h.head_cases with hhead | ⟨hhead, hhead'⟩
  · rw [hhead]
  · rw [hhead, hhead']
    rfl

theorem Fork.Near.isLineEnd_eq (h : f.Near s s') : s.cursor.isLineEnd = s'.cursor.isLineEnd := by
  rw [Fork.isLineEnd_eq, Fork.isLineEnd_eq]
  rcases h.head_cases with hhead | ⟨hhead, hhead'⟩
  · rw [hhead]
  · rw [hhead, hhead']
    rfl

/-- A pattern that takes a character has no way that ends at or in front of where it begins. -/
theorem run_eq_none_of_consumes {p : Pattern} (hp : p.nullable = false) {n : Nat}
    (hs : n ≤ s.cursor.offset) (hk : ∀ t, n < t.cursor.offset → k t = none) : p.run s k = none := by
  rcases hrun : p.run s k with - | a
  · rfl
  · obtain ⟨t, ht, ha⟩ := exists_of_run hrun
    rcases ht.begins with ⟨-, hnull⟩ | ⟨hlt, -⟩
    · rw [hp] at hnull
      cases hnull
    · rw [hk t (Nat.lt_of_le_of_lt hs hlt)] at ha
      cases ha

theorem run_eq_none_of_far {p : Pattern} {n : Nat} (hs : n < s.cursor.offset)
    (hk : ∀ t, n < t.cursor.offset → k t = none) : p.run s k = none :=
  run_eq_none fun t ht => hk t (Nat.lt_of_lt_of_le hs ht)

/-- One character is taken from both texts, or the run goes over the place where they part. -/
theorem run_one_near (cls : Char → Bool) (h : f.Near s s') (hk : f.NearAgree k k') :
    (one cls).run s k = (one cls).run s' k' := by
  obtain ⟨w, hsuffix, hrest, hrest', hstop⟩ := h.rest_eq
  rcases w with - | ⟨c, w⟩
  · rw [byteLength_nil, Nat.add_zero] at hstop
    rw [run_eq_none_of_consumes rfl (Nat.le_of_eq hstop.symm) hk.far,
      run_eq_none_of_consumes rfl (Nat.le_of_eq (hstop.symm.trans h.offset_eq)) hk.far']
  · rw [run, run, hrest, hrest']
    show (if cls c then k ⟨s.cursor.behind [c] (w ++ f.ahead), s.captures⟩ else none)
      = (if cls c then k' ⟨s'.cursor.behind [c] (w ++ f.ahead'), s'.captures⟩ else none)
    rw [← h.captures_eq, hk.near _ _ (h.behind (u := [c]) hsuffix hstop s.captures)]

theorem run_longest_near {cls : Char → Bool} (hcls : cls '/' = cls ' ') (h : f.Near s s')
    (hk : f.NearAgree k k') : (longest cls).run s k = (longest cls).run s' k' := by
  obtain ⟨w, hsuffix, hrest, hrest', hstop⟩ := h.rest_eq
  obtain ⟨u, v, rfl, hu, hv, -⟩ := skip_eq cls none 0 w
  have hnear := hk.near _ _ (h.behind hsuffix hstop s.captures)
  rw [run, run, hrest, hrest', List.append_assoc, List.append_assoc, skip_append hu,
    skip_append hu, ← h.captures_eq]
  rcases v with - | ⟨c, v⟩
  · rcases f.parts with ⟨ha, ha'⟩ | ⟨x, x', ha, ha'⟩
    · rwa [ha, ha'] at hnear ⊢
    · rw [List.append_nil] at hstop
      rw [ha, ha'] at hnear ⊢
      by_cases hslash : cls '/' = true
      · -- both runs go over the place where the texts part
        have hover : ∀ (before : Option Char) (offset : Nat) (d : Char) (cs : List Char),
            cls d = true → offset < (Cursor.skip cls before offset (d :: cs)).offset := by
          intro before offset d cs hd
          rw [Cursor.skip, if_pos hd]
          exact Nat.lt_of_lt_of_le (Nat.lt_add_of_pos_right d.utf8Size_pos) (skip_le _ _ _ _)
        rw [hk.far _ (hstop ▸ hover _ _ _ _ hslash),
          hk.far' _ (hstop ▸ h.offset_eq ▸ hover _ _ _ _ (hcls ▸ hslash))]
      · have hblank : cls ' ' = false := by rw [← hcls]; simpa using hslash
        rw [List.nil_append, List.nil_append, skip_of_head _ _ (by rintro c ⟨⟩; simpa using hslash),
          skip_of_head _ _ (by rintro c ⟨⟩; exact hblank)]
        exact hnear
  · rw [skip_of_head _ _ (by rintro d ⟨⟩; exact hv c rfl),
      skip_of_head _ _ (by rintro d ⟨⟩; exact hv c rfl)]
    exact hnear

/-- Where more characters lead nowhere, none is taken. -/
theorem runMany_eq_of_stuck {cls : Char → Bool} {k : Cursor → Option α} {before : Option Char}
    {offset : Nat} {cs : List Char} (hk : ∀ c : Cursor, offset < c.offset → k c = none) :
    runMany cls k before offset cs = k ⟨before, offset, cs⟩ := by
  rcases cs with - | ⟨c, cs⟩
  · rfl
  · rw [runMany, runMany_eq_none_of_le (Nat.le_refl _) fun d hd =>
      hk d (Nat.lt_of_lt_of_le (Nat.lt_add_of_pos_right c.utf8Size_pos) hd)]
    exact ite_self _

theorem run_many_near (cls : Char → Bool) (h : f.Near s s') (hk : f.NearAgree k k') :
    (many cls).run s k = (many cls).run s' k' := by
  rw [run, run, ← h.captures_eq]
  generalize s.captures = kept
  obtain ⟨w, hsuffix, hrest, hrest', hstop⟩ := h.rest_eq
  induction w generalizing s s' with
  | nil =>
    rw [byteLength_nil, Nat.add_zero] at hstop
    rw [runMany_eq_of_stuck fun c hc => hk.far ⟨c, kept⟩ (hstop ▸ hc),
      runMany_eq_of_stuck fun c hc => hk.far' ⟨c, kept⟩ (hstop ▸ h.offset_eq ▸ hc)]
    exact hk.near _ _ ⟨h.offset_eq, rfl, h.before_eq, [], hsuffix, hrest, hrest', by simpa⟩
  | cons c w ih =>
    -- to stop here, or to take one more character and go on from there
    have hhere : k ⟨⟨s.cursor.before, s.cursor.offset, c :: w ++ f.ahead⟩, kept⟩
        = k' ⟨⟨s'.cursor.before, s'.cursor.offset, c :: w ++ f.ahead'⟩, kept⟩ :=
      hk.near _ _ ⟨h.offset_eq, rfl, h.before_eq, c :: w, hsuffix, rfl, rfl, hstop⟩
    have hnear := h.behind (u := [c]) hsuffix hstop kept
    have hnext : runMany cls (fun c => k ⟨c, kept⟩) (some c) (s.cursor.offset + c.utf8Size)
          (w ++ f.ahead)
        = runMany cls (fun c => k' ⟨c, kept⟩) (some c) (s'.cursor.offset + c.utf8Size)
          (w ++ f.ahead') := by
      refine ih hnear ((List.suffix_cons c w).trans hsuffix) rfl rfl ?_
      rw [byteLength_cons, ← Nat.add_assoc] at hstop
      exact hstop
    rw [hrest, hrest', List.cons_append, List.cons_append, runMany, runMany, hnext]
    split_ifs
    · rw [← List.cons_append, ← List.cons_append, hhere]
    · exact hhere

/-- **Two runs of a steady pattern agree up to where the texts part.** -/
theorem run_eq_of_near {p : Pattern} (hp : p.steady = true) (h : f.Near s s')
    (hk : f.NearAgree k k') : p.run s k = p.run s' k' := by
  induction p generalizing k k' s s' with
  | empty => exact hk.near s s' h
  | one cls => exact run_one_near cls h hk
  | longest cls => exact run_longest_near (beq_iff_eq.mp hp) h hk
  | many cls => exact run_many_near cls h hk
  | seq p q ihp ihq =>
    obtain ⟨hleft, hright⟩ := Bool.and_eq_true_iff.mp hp
    refine ihp hleft h ⟨fun t t' ht => ihq hright ht hk, fun t ht => ?_, fun t ht => ?_⟩
    · exact run_eq_none_of_far ht hk.far
    · exact run_eq_none_of_far ht hk.far'
  | alt p q ihp ihq =>
    obtain ⟨hleft, hright⟩ := Bool.and_eq_true_iff.mp hp
    rw [run, run, ihp hleft h hk, ihq hright h hk]
  | rounds p _ => cases hp
  | keep slot p ih =>
    refine ih hp h ⟨fun t t' ht => hk.near _ _ (h.keep ht slot), fun t ht => ?_, fun t ht => ?_⟩
    · exact hk.far _ ht
    · exact hk.far' _ ht
  | boundary => rw [run, run, h.isBoundary_eq, hk.near s s' h]
  | lineEnd => rw [run, run, h.isLineEnd_eq, hk.near s s' h]

theorem Fork.stop_le_of_past (h : f.Past s) : f.stop ≤ s.cursor.offset := by
  refine Nat.le_trans ?_ (show f.limit ≤ _ from h)
  rw [Fork.limit]
  split_ifs <;> omega

/-- A pattern that takes a character refuses all places where the texts have parted. -/
theorem Fork.NearAgree.agree {p : Pattern} (hk : f.NearAgree k k') (hp : p.nullable = false)
    (htwin : ∀ s s', f.Twin s s' → p.run s k = p.run s' k') :
    f.Agree (fun s => p.run s k) (fun s => p.run s k') where
  twin := htwin
  past _ hs := run_eq_none_of_consumes hp (Fork.stop_le_of_past hs) hk.far
  past' _ hs := run_eq_none_of_consumes hp (Fork.stop_le_of_past hs) hk.far'

/-- **A pattern that lands comes up to where the texts part from in front of that place.** -/
theorem agree_of_lands {p : Pattern} (hp : p.lands = true) (hk : f.NearAgree k k') :
    f.Agree (fun s => p.run s k) (fun s => p.run s k') := by
  have hnull := nullable_of_lands hp
  induction p generalizing k k' with
  | one cls => exact hk.agree hnull fun s s' h => run_one_near cls h.near hk
  | seq p q ihp ihq =>
    refine hk.agree hnull fun s s' h => ?_
    show p.run s _ = p.run s' _
    rw [lands, Bool.or_eq_true, Bool.and_eq_true] at hp
    rcases hp with hq | ⟨hq, hp⟩
    · -- what comes second lands
      exact run_eq_of_twin (ihq hq hk (nullable_of_lands hq)) h
    · -- what comes second is steady, and what comes first lands
      refine (ihp hp ⟨fun t t' ht => run_eq_of_near hq ht hk, fun t ht => ?_, fun t ht => ?_⟩
        (nullable_of_lands hp)).twin s s' h
      · exact run_eq_none_of_far ht hk.far
      · exact run_eq_none_of_far ht hk.far'
  | alt p q ihp ihq =>
    obtain ⟨hleft, hright⟩ := Bool.and_eq_true_iff.mp hp
    refine hk.agree hnull fun s s' h => ?_
    have hfirst := (ihp hleft hk (nullable_of_lands hleft)).twin s s' h
    have hsecond := (ihq hright hk (nullable_of_lands hright)).twin s s' h
    rw [run, run, show p.run s k = p.run s' k' from hfirst,
      show q.run s k = q.run s' k' from hsecond]
  | keep slot p ih =>
    refine hk.agree hnull fun s s' h => ?_
    refine (ih hp ⟨fun t t' ht => hk.near _ _ (h.near.keep ht slot), fun t ht => ?_,
      fun t ht => ?_⟩ hnull).twin s s' h
    · exact hk.far _ ht
    · exact hk.far' _ ht
  | _ => cases hp

/-- **A match does not depend on what stands behind it.**  Where the texts have not parted yet and
neither has a match that runs over the place where they do, they have the same match. -/
theorem matchAt?_eq_of_twin {p : Pattern} (hp : p.lands = true) {c c' : Cursor}
    (h : f.Twin ⟨c, []⟩ ⟨c', []⟩) (hm : ∀ m ∈ p.matchAt? c, m.span.stop ≤ f.stop)
    (hm' : ∀ m ∈ p.matchAt? c', m.span.stop ≤ f.stop) : p.matchAt? c = p.matchAt? c' := by
  have hnear : f.NearAgree (nearMatch (f.stop + 1) c.offset) (nearMatch (f.stop + 1) c'.offset) := by
    refine ⟨fun t t' ht => ?_, fun t ht => ?_, fun t ht => ?_⟩
    · unfold nearMatch
      rw [ht.offset_eq, ht.captures_eq, show c.offset = c'.offset from h.offset_eq]
    · exact if_pos ht
    · exact if_pos ht
  rw [← run_nearMatch fun m hc => Nat.lt_succ_of_le (hm m hc),
    ← run_nearMatch fun m hc => Nat.lt_succ_of_le (hm' m hc)]
  exact (agree_of_lands hp hnear).twin _ _ h

end Landing

end Pattern

end Scaffold

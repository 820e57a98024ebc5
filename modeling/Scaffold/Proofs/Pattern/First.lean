/-
Scaffold/Proofs/Pattern/First.lean

Which match is found in a text that is known.

Of a text that is known part by part the first way of a pattern is known too:
a class is read as far as it goes, and an alternative is taken unless nothing
leads through it.  `Reads p u w v k k'` says that the first way of `p`, tried
behind `u`, goes over `w` and leaves `v`.

A match that is the first way at its place need not be found, for the search
may have passed that place inside another match.  It is found unless one that is
found runs over its place (`mem_findAll_or_runsOver`), so behind a text that no
match runs out of (`Closed.mem_findAll`); and of two that are found none runs
over the place of the other (`not_runsOver_of_mem_findAll`).
-/
import Scaffold.Proofs.Pattern.Spelling

namespace Scaffold

open Text

namespace Cursor

theorem behind_between (u w v : List Char) :
    (between u (w ++ v)).behind w v = between (u ++ w) v := by
  rw [between_eq, between_eq, behind, List.getLast?_append, byteLength_append]

end Cursor

namespace Pattern

/-! ### The first way -/

/-- Between the texts `u` and `v` the first way of a pattern goes over `w`; where what is left can
be matched, no other way is tried.  `k` and `k'` are the captures in front and behind. -/
def Reads (p : Pattern) (u w v : List Char) (k k' : Captures) : Prop :=
  ∀ (α : Type) (f : State → Option α) (a : α), f ⟨.between (u ++ w) v, k'⟩ = some a →
    p.run ⟨.between u (w ++ v), k⟩ f = some a

namespace Reads

variable {p q : Pattern} {cls : Char → Bool} {u w v x y : List Char} {k k₁ k₂ : Captures}

/-- The first way gives the match of a place. -/
theorem matchAt?_eq (h : Reads p u w v [] k) :
    p.matchAt? (.between u (w ++ v)) = some ⟨⟨byteLength u, byteLength (u ++ w)⟩, k⟩ := by
  refine h _ _ _ ?_
  rw [Cursor.between_offset, Cursor.between_offset]

theorem of_run (h : ∀ (α : Type) (f : State → Option α),
    p.run ⟨.between u (w ++ v), k⟩ f = f ⟨(Cursor.between u (w ++ v)).behind w v, k₁⟩) :
    Reads p u w v k k₁ := by
  intro α f a hf
  rw [h, Cursor.behind_between]
  exact hf

theorem one {c : Char} (hc : cls c = true) : Reads (.one cls) u [c] v k k :=
  of_run fun _ _ => if_pos hc

theorem longest (hw : ∀ c ∈ w, cls c = true) (hv : ∀ c ∈ v.head?, cls c = false) :
    Reads (.longest cls) u w v k k := by
  refine of_run fun α f => ?_
  obtain ⟨w', v', hrest, hw', hv', hskip⟩ := skip_eq cls (Cursor.between u (w ++ v)).before
    (Cursor.between u (w ++ v)).offset (w ++ v)
  obtain ⟨rfl, rfl⟩ := append_inj_of_class hrest hw hw' hv hv'
  exact congrArg (fun cursor => f ⟨cursor, k⟩) hskip

theorem seq (hp : Reads p u x (y ++ v) k k₁) (hq : Reads q (u ++ x) y v k₁ k₂) :
    Reads (.seq p q) u (x ++ y) v k k₂ := by
  intro α f a hf
  rw [← List.append_assoc] at hf
  rw [List.append_assoc]
  exact hp α (fun s => q.run s f) a (hq α f a hf)

theorem altLeft (h : Reads p u w v k k₁) : Reads (.alt p q) u w v k k₁ := by
  intro α f a hf
  rw [run, h α f a hf]

theorem altRight (hp : ∀ t, ¬ Leads p ⟨.between u (w ++ v), k⟩ t) (h : Reads q u w v k k₁) :
    Reads (.alt p q) u w v k k₁ := by
  intro α f a hf
  have hnone : p.run ⟨.between u (w ++ v), k⟩ f = none := by
    rcases hrun : p.run ⟨.between u (w ++ v), k⟩ f with - | b
    · rfl
    · obtain ⟨t, ht, -⟩ := exists_of_run hrun
      exact absurd ht (hp t)
  rw [run, hnone]
  exact h α f a hf

theorem keep {slot : Slot} (h : Reads p u w v k k₁) :
    Reads (.keep slot p) u w v k
      ((slot, ⟨byteLength u, byteLength (u ++ w)⟩) :: k₁) := by
  intro α f a hf
  refine h α _ a ?_
  rw [Cursor.between_offset, Cursor.between_offset]
  exact hf

theorem empty : Reads .empty u [] v k k :=
  of_run fun _ f => congrArg (fun cursor => f ⟨cursor, k⟩) (Cursor.behind_nil (.between u v)).symm

theorem boundary (h : (Cursor.mk u.getLast? 0 v).isBoundary = true) :
    Reads .boundary u [] v k k := by
  intro α f a hf
  rw [List.append_nil] at hf
  have hb : (Cursor.between u v).isBoundary = true := by
    rw [Cursor.between_eq]
    exact h
  exact (if_pos hb).trans hf

/-- A pattern that leads nowhere is absent. -/
theorem absent (h : ∀ t, ¬ Leads p ⟨.between u v, k⟩ t) : Reads (optional p) u [] v k k :=
  .altRight h .empty

theorem cons {ps : List Pattern} (hp : Reads p u x (y ++ v) k k₁)
    (hps : Reads (inOrder ps) (u ++ x) y v k₁ k₂) :
    Reads (inOrder (p :: ps)) u (x ++ y) v k k₂ := by
  cases ps with
  | nil =>
    intro α f a hf
    rw [← List.append_assoc] at hf
    rw [List.append_assoc]
    exact hp α f a (hps α f a hf)
  | cons q qs => exact hp.seq hps

/-- A given text is read where it stands. -/
theorem literal {l : String} : Reads (Pattern.literal l) u l.toList v k k := by
  rw [Pattern.literal]
  generalize l.toList = ds
  induction ds generalizing u with
  | nil => exact .empty
  | cons d ds ih => exact .cons (x := [d]) (.one (beq_self_eq_true d)) ih

theorem some1 (hne : w ≠ []) (hw : ∀ c ∈ w, cls c = true) (hv : ∀ c ∈ v.head?, cls c = false) :
    Reads (Pattern.some1 cls) u w v k k := by
  obtain ⟨c, w, rfl⟩ := List.exists_cons_of_ne_nil hne
  obtain ⟨hc, hw⟩ := List.forall_mem_cons.mp hw
  exact .seq (x := [c]) (.one hc) (.longest hw hv)

/-- A word and the blanks behind it are read where they stand. -/
theorem wordThenBlanks {l : String} (hne : w ≠ []) (hw : ∀ c ∈ w, isBlank c = true)
    (hv : ∀ c ∈ v.head?, isBlank c = false) :
    Reads (Pattern.wordThenBlanks l) u (l.toList ++ w) v k k :=
  .seq .literal (.some1 hne hw hv)

theorem identifier (hw : IsIdentifier w) (hv : ∀ c ∈ v.head?, isIdentifierPart c = false) :
    Reads Pattern.identifier u w v k k := by
  obtain ⟨⟨c, hhead, hc⟩, hpart⟩ := hw
  obtain ⟨w, rfl⟩ : ∃ w', w = c :: w' := by
    cases w with
    | nil => cases hhead
    | cons d w => exact ⟨w, by rw [Option.some.inj hhead]⟩
  exact .seq (x := [c]) (.one hc) (.longest (List.forall_mem_cons.mp hpart).2 hv)

end Reads

/-! ### Where matches end -/

/-- Whether a character can stand in a text of a pattern. -/
def mayHold : Pattern → Char → Bool
  | empty, _ | boundary, _ | lineEnd, _ => false
  | one cls, c | longest cls, c | many cls, c => cls c
  | seq p q, c | alt p q, c => p.mayHold c || q.mayHold c
  | rounds p, c | keep _ p, c => p.mayHold c

theorem Spells.mayHold {p : Pattern} {before : Option Char} {w behind : List Char}
    (h : p.Spells before w behind) : ∀ c ∈ w, p.mayHold c = true := by
  induction p generalizing before w behind with
  | empty =>
    obtain rfl := h
    simp
  | one cls =>
    obtain ⟨c, rfl, hc⟩ := h
    intro d hd
    rw [List.mem_singleton.mp hd]
    exact hc
  | longest cls => exact h.1
  | many cls => exact h
  | seq p q ihp ihq =>
    obtain ⟨x, y, rfl, hx, hy⟩ := h
    intro c hc
    rcases List.mem_append.mp hc with hc | hc
    · exact Bool.or_eq_true_iff.mpr (.inl (ihp hx c hc))
    · exact Bool.or_eq_true_iff.mpr (.inr (ihq hy c hc))
  | alt p q ihp ihq =>
    intro c hc
    rcases h with h | h
    · exact Bool.or_eq_true_iff.mpr (.inl (ihp h c hc))
    · exact Bool.or_eq_true_iff.mpr (.inr (ihq h c hc))
  | rounds p ih =>
    obtain ⟨pieces, rfl, hpieces⟩ := h
    intro c hc
    obtain ⟨x, hx, hc⟩ := List.mem_flatten.mp hc
    obtain ⟨before', behind', hspells⟩ := hpieces x hx
    exact ih hspells c hc
  | keep slot p ih => exact ih h
  | boundary | lineEnd =>
    obtain ⟨rfl, -⟩ := h
    simp

/-- A match goes over a text of its pattern. -/
theorem exists_text_of_matchAt? {p : Pattern} {u v : List Char} {m : Match}
    (h : p.matchAt? (.between u v) = some m) :
    ∃ q r, v = q ++ r ∧ m.span.stop = byteLength (u ++ q) ∧ p.Spells u.getLast? q r := by
  obtain ⟨t, ht, rfl⟩ := exists_of_matchAt? h
  obtain ⟨q, hrest, hcur, hspells⟩ := ht.spells
  rw [Cursor.between_eq] at hspells
  refine ⟨q, t.cursor.rest, hrest, ?_, hspells⟩
  show t.cursor.offset = _
  rw [hcur, Cursor.behind_offset, Cursor.between_offset, byteLength_append]

/-- No match that begins in the text `a` runs over its end, whatever stands around it. -/
def Closed (p : Pattern) (a : List Char) : Prop :=
  ∀ u w x v m, a = w ++ x → x ≠ [] → p.matchAt? (.between (u ++ w) (x ++ v)) = some m →
    m.span.stop ≤ byteLength (u ++ a)

section Closed

variable {p : Pattern} {a b : List Char}

theorem Closed.append (ha : Closed p a) (hb : Closed p b) : Closed p (a ++ b) := by
  intro u w x v m hab hx hm
  rw [← List.append_assoc]
  rcases List.append_eq_append_iff.mp hab with ⟨y, rfl, rfl⟩ | ⟨y, rfl, rfl⟩
  · exact hb (u ++ a) y x v m rfl hx (by rwa [List.append_assoc])
  · by_cases hy : y = []
    · subst hy
      rw [List.append_nil]
      exact hb (u ++ w) [] b v m rfl hx (by rwa [List.append_nil])
    · have hle := ha u w y (b ++ v) m rfl hy (by rwa [← List.append_assoc])
      rw [byteLength_append (u ++ (w ++ y))]
      exact Nat.le_trans hle (Nat.le_add_right _ _)

/-- A text in which no match can begin. -/
theorem Closed.of_starts (hnull : p.nullable = false) (h : ∀ c ∈ a, p.starts c = false) :
    Closed p a := by
  intro u w x v m ha hx hm
  obtain ⟨c, x, rfl⟩ := List.exists_cons_of_ne_nil hx
  obtain ⟨t, ht, -⟩ := exists_of_matchAt? hm
  refine absurd ht (not_leads hnull ?_)
  rintro d ⟨⟩
  exact h c (by rw [ha]; simp)

/-- A text is closed where a text of the pattern cannot go over one of its ends. -/
theorem Closed.of_spells (h : ∀ w x, a = w ++ x → x ≠ [] → ∀ y before r, y ≠ [] →
    ¬ p.Spells before (x ++ y) r) : Closed p a := by
  intro u w x v m ha hx hm
  obtain ⟨q, r, hrest, hstop, hspells⟩ := exists_text_of_matchAt? hm
  rw [hstop, ha, ← List.append_assoc, byteLength_append (u ++ w), byteLength_append (u ++ w)]
  rcases Nat.le_total (byteLength q) (byteLength x) with hle | hle
  · exact Nat.add_le_add_left hle _
  · obtain ⟨y, rfl, -⟩ := eq_append_of_byteLength_le hrest hle
    by_cases hy : y = []
    · exact Nat.le_of_eq (by rw [hy, List.append_nil])
    · exact absurd hspells (h w x ha hx y _ r hy)

theorem exists_concat_of_append {c : Char} {w x : List Char} (h : a ++ [c] = w ++ x) (hx : x ≠ []) :
    ∃ x', x = x' ++ [c] := by
  obtain ⟨x', d, rfl⟩ := (List.eq_nil_or_concat x).resolve_left hx
  have hlast : c = d := by simpa using congrArg List.getLast? h
  exact ⟨x', by rw [hlast, List.concat_eq_append]⟩

/-- A text that ends in a character which can stand in no match. -/
theorem Closed.of_mayHold {c : Char} (hc : p.mayHold c = false) (a : List Char) :
    Closed p (a ++ [c]) := by
  refine .of_spells fun w x ha hx y before r _ hspells => ?_
  obtain ⟨x, rfl⟩ := exists_concat_of_append ha hx
  have hhold := hspells.mayHold c (by simp)
  rw [hc] at hhold
  cases hhold

end Closed

/-! ### The search -/

section Search

variable {p : Pattern} {m : Match}

/-- A match begins in front of an offset and ends behind it. -/
def Match.RunsOver (m : Match) (offset : Nat) : Prop := m.span.start < offset ∧ offset < m.span.stop

instance (m : Match) (offset : Nat) : Decidable (m.RunsOver offset) :=
  inferInstanceAs (Decidable (m.span.start < offset ∧ offset < m.span.stop))

/-- **A match is found, unless one that is found runs over its place.** -/
theorem mem_findFrom_or_runsOver {u v : List Char} (hm : p.matchAt? (.between u v) = some m)
    {w x : List Char} (hu : u = w ++ x) {resume : Nat} (hresume : resume ≤ byteLength u) :
    m ∈ p.findFrom resume w.getLast? (byteLength w) (x ++ v)
      ∨ ∃ m' ∈ p.findFrom resume w.getLast? (byteLength w) (x ++ v),
          m'.RunsOver (byteLength u) := by
  -- on the text left of `u`; only a match that runs over its end makes the search resume behind it
  induction x generalizing w resume with
  | nil =>
    refine .inl ?_
    rw [List.append_nil] at hu
    subst hu
    rw [Cursor.between_eq] at hm
    cases v with
    | nil =>
      rw [List.append_nil, findFrom, if_neg (Nat.not_lt.mpr hresume), hm]
      exact List.mem_singleton_self m
    | cons c v =>
      rw [List.nil_append, findFrom, if_neg (Nat.not_lt.mpr hresume), hm]
      exact List.mem_cons_self
  | cons c x ih =>
    have hlast : (w ++ [c]).getLast? = some c := by simp
    have hlength : byteLength (w ++ [c]) = byteLength w + c.utf8Size := byteLength_append _ _
    have hlt : byteLength w < byteLength u := by
      rw [hu, byteLength_append, byteLength_cons]
      exact Nat.lt_add_of_pos_right (Nat.add_pos_left c.utf8Size_pos _)
    have hle : byteLength w + c.utf8Size ≤ byteLength u := by
      rw [hu, byteLength_append, byteLength_cons]
      omega
    have hnext : ∀ {r}, r ≤ byteLength u →
        m ∈ p.findFrom r (some c) (byteLength w + c.utf8Size) (x ++ v)
          ∨ ∃ m' ∈ p.findFrom r (some c) (byteLength w + c.utf8Size) (x ++ v),
              m'.RunsOver (byteLength u) := by
      intro r hr
      have := ih (w := w ++ [c]) (by rw [hu, List.append_assoc]; rfl) hr
      rwa [hlast, hlength] at this
    rw [List.cons_append, findFrom]
    split_ifs
    · exact hnext hresume
    · split
      · next m' hm' =>
        by_cases hstop : m'.span.stop ≤ byteLength u
        · rcases hnext (Nat.max_le.mpr ⟨hstop, hle⟩) with hfound | ⟨m₀, hfound, hover⟩
          · exact .inl (List.mem_cons_of_mem _ hfound)
          · exact .inr ⟨m₀, List.mem_cons_of_mem _ hfound, hover⟩
        · have hstart : m'.span.start = byteLength w := span_start_of_matchAt? hm'
          exact .inr ⟨m', List.mem_cons_self, hstart ▸ hlt, Nat.lt_of_not_le hstop⟩
      · exact hnext (Nat.zero_le _)

theorem mem_findAll_or_runsOver {u v : List Char} (hm : p.matchAt? (.between u v) = some m) :
    m ∈ p.findAll (u ++ v) ∨ ∃ m' ∈ p.findAll (u ++ v), m'.RunsOver (byteLength u) :=
  mem_findFrom_or_runsOver hm (List.nil_append u).symm (Nat.zero_le _)

/-- A match at the beginning of a text is found. -/
theorem mem_findAll_of_start {v : List Char} (hm : p.matchAt? (.between [] v) = some m) :
    m ∈ p.findAll v :=
  (mem_findAll_or_runsOver hm).resolve_right fun ⟨_, _, hover⟩ => Nat.not_lt_zero _ hover.1

/-- **A match is found behind a text that no match runs out of.** -/
theorem Closed.mem_findAll {u v : List Char} (h : Closed p u)
    (hm : p.matchAt? (.between u v) = some m) : m ∈ p.findAll (u ++ v) := by
  refine (mem_findAll_or_runsOver hm).resolve_right ?_
  rintro ⟨m', hm', hbefore, hbehind⟩
  obtain ⟨w, v', htext, hmatch⟩ := Pattern.mem_findAll hm'
  rw [span_start_of_matchAt? hmatch, Cursor.between_offset] at hbefore
  obtain ⟨x, rfl, rfl⟩ := eq_append_of_byteLength_le htext.symm (Nat.le_of_lt hbefore)
  have hx : x ≠ [] := by
    rintro rfl
    rw [List.append_nil] at hbefore
    exact Nat.lt_irrefl _ hbefore
  exact Nat.not_le_of_lt hbehind (h [] w x v m' rfl hx hmatch)

/-- A match that is found is the first way at the place where it begins. -/
theorem matchAt?_of_mem_findAll {u v : List Char} (h : m ∈ p.findAll (u ++ v))
    (hstart : m.span.start = byteLength u) : p.matchAt? (.between u v) = some m := by
  obtain ⟨u', v', huv, hm⟩ := mem_findAll h
  have hlength : byteLength u = byteLength u' := by
    rw [← hstart, span_start_of_matchAt? hm, Cursor.between_offset]
  obtain ⟨w, rfl, rfl⟩ := eq_append_of_byteLength_le huv (Nat.le_of_eq hlength)
  obtain rfl : w = [] := by
    rw [byteLength_append] at hlength
    exact byteLength_eq_zero.mp (by omega)
  rwa [List.append_nil] at hm

/-- Matches are found in the order in which they begin, each behind the one before it. -/
theorem pairwise_findFrom (p : Pattern) (resume : Nat) (before : Option Char) (offset : Nat)
    (cs : List Char) :
    (∀ m ∈ p.findFrom resume before offset cs, resume ≤ m.span.start ∧ offset ≤ m.span.start)
      ∧ (p.findFrom resume before offset cs).Pairwise fun m m' =>
          m.span.start < m'.span.start ∧ m.span.stop ≤ m'.span.start := by
  induction cs generalizing resume before offset with
  | nil =>
    rw [findFrom]
    split_ifs with hresume
    · simp
    · rcases hm : p.matchAt? ⟨before, offset, []⟩ with - | m
      · simp
      · have hstart : m.span.start = offset := span_start_of_matchAt? hm
        simpa [hstart] using hresume
  | cons c cs ih =>
    have hlt : ∀ r, ∀ m ∈ p.findFrom r (some c) (offset + c.utf8Size) cs, offset < m.span.start :=
      fun r m hm => Nat.lt_of_lt_of_le (Nat.lt_add_of_pos_right c.utf8Size_pos)
        ((ih r (some c) (offset + c.utf8Size)).1 m hm).2
    rw [findFrom]
    split_ifs with hresume
    · -- the search resumes later
      exact ⟨fun m hm => ⟨((ih _ _ _).1 m hm).1, Nat.le_of_lt (hlt _ m hm)⟩, (ih _ _ _).2⟩
    have hle : resume ≤ offset := Nat.le_of_not_lt hresume
    split
    · next m' hm' =>
      -- a match here
      have hstart : m'.span.start = offset := span_start_of_matchAt? hm'
      constructor
      · intro m hm
        rcases List.mem_cons.mp hm with rfl | hm
        · exact ⟨Nat.le_trans hle (Nat.le_of_eq hstart.symm), Nat.le_of_eq hstart.symm⟩
        · have := hlt _ m hm
          omega
      · refine List.pairwise_cons.mpr ⟨fun m hm => ?_, (ih _ _ _).2⟩
        rw [hstart]
        exact ⟨hlt _ m hm, Nat.le_trans (Nat.le_max_left _ _) ((ih _ _ _).1 m hm).1⟩
    · -- none
      refine ⟨fun m hm => ?_, (ih _ _ _).2⟩
      have := hlt _ m hm
      omega

theorem pairwise_findAll (p : Pattern) (cs : List Char) :
    (p.findAll cs).Pairwise fun m m' =>
      m.span.start < m'.span.start ∧ m.span.stop ≤ m'.span.start :=
  (pairwise_findFrom p 0 none 0 cs).2

/-- **No match that is found runs over the place of another.** -/
theorem not_runsOver_of_mem_findAll {cs : List Char} {m' : Match} (hm : m ∈ p.findAll cs)
    (hm' : m' ∈ p.findAll cs) : ¬ m'.RunsOver m.span.start := by
  have hpairwise := List.pairwise_iff_getElem.mp (pairwise_findAll p cs)
  obtain ⟨i, hi, rfl⟩ := List.getElem_of_mem hm
  obtain ⟨j, hj, rfl⟩ := List.getElem_of_mem hm'
  rintro ⟨hbefore, hbehind⟩
  rcases Nat.lt_trichotomy i j with hij | rfl | hji
  · exact Nat.lt_asymm hbefore (hpairwise i j hi hj hij).1
  · exact Nat.lt_irrefl _ hbefore
  · exact Nat.not_le_of_lt hbehind (hpairwise j i hj hi hji).2

/-- A match that is the only one is found once. -/
theorem findAll_eq_singleton {cs : List Char} (hm : m ∈ p.findAll cs)
    (h : ∀ m' ∈ p.findAll cs, m' = m) : p.findAll cs = [m] := by
  have hpairwise := pairwise_findAll p cs
  rcases hfind : p.findAll cs with - | ⟨a, - | ⟨b, later⟩⟩
  · rw [hfind] at hm
    cases hm
  · rw [h a (by simp [hfind])]
  · rw [hfind] at hpairwise
    have hlt := ((List.pairwise_cons.mp hpairwise).1 b List.mem_cons_self).1
    rw [h a (by simp [hfind]), h b (by simp [hfind])] at hlt
    exact absurd hlt (Nat.lt_irrefl _)

end Search

end Pattern

end Scaffold

/-
Scaffold/Proofs/Pattern/Bracket.lean

Lists in brackets.

Some patterns end in a list in brackets, which goes up to the first closing one
(`EndsIn`).  In texts that part inside the list it may end at different places,
but as long as the bracket closes in both it begins at the same place in both,
and what is captured in front of it is the same (`outside_eq_of_twin`).
-/
import Scaffold.Proofs.Pattern.Local
import Scaffold.Proofs.Pattern.Spelling

namespace Scaffold

open Text

namespace Pattern

/-! ### Lists in brackets -/

theorem run_inOrder_append {α : Type} (ps qs : List Pattern) (s : State) (k : State → Option α) :
    (inOrder (ps ++ qs)).run s k = (inOrder ps).run s fun t => (inOrder qs).run t k := by
  induction ps generalizing s with
  | nil => rfl
  | cons p ps ih =>
    rcases hps : ps with - | ⟨p', ps'⟩
    · rcases qs with - | ⟨q, qs⟩ <;> rfl
    · rw [← hps, List.cons_append, inOrder_cons_of_ne_nil p (by simp [hps]),
        inOrder_cons_of_ne_nil p (by simp [hps])]
      exact congrArg (p.run s) (funext fun t => ih t)

/-- A list in brackets: the slot for its text, and the brackets. -/
structure Bracket where
  slot : Slot
  opening : Char
  closing : Char

namespace Bracket

/-- The parameters of a function. -/
def parens : Bracket := ⟨.parameters, '(', ')'⟩

/-- The names of an export list. -/
def braces : Bracket := ⟨.entries, '{', '}'⟩

/-- A list in brackets, up to the first closing one. -/
def parts (b : Bracket) : List Pattern :=
  [char b.opening, keep b.slot (longest (noneOf [b.closing])), char b.closing]

end Bracket

/-- A pattern is another one, and then a list in brackets. -/
def EndsIn (p : Pattern) (b : Bracket) : Prop :=
  ∃ h : Pattern, ∀ {α : Type} (s : State) (k : State → Option α),
    p.run s k = h.run s fun t => (inOrder b.parts).run t k

theorem endsIn_functionDeclaration : functionDeclaration.EndsIn .parens :=
  ⟨inOrder [boundary, optional (keep .asyncMark (wordThenBlanks "async")), functionKeyword,
    keep .name identifier, blanks, optional typeParameters],
    fun s k => run_inOrder_append [_, _, _, _, _, _] [parameterList] s k⟩

theorem endsIn_boundFunction : boundFunction.EndsIn .parens :=
  ⟨inOrder [boundary, variableKeyword, blanks1, keep .name identifier, blanks,
    optional (seq (char ':') (some1 (noneOf ['=', ';', '\n']))), char '=', blanks,
    optional (keep .asyncMark (seq (literal "async") blanks)),
    optional (inOrder [functionKeyword, optional identifier, blanks])],
    fun s k => run_inOrder_append [_, _, _, _, _, _, _, _, _, _] [parameterList] s k⟩

theorem endsIn_exportedList : exportedList.EndsIn .braces :=
  ⟨inOrder [boundary, literal "export", blanks,
    optional (keep .typeMark (seq (literal "type") blanks))],
    fun s k => run_inOrder_append [_, _, _, _] (Bracket.parts .braces) s k⟩

/-- Where the text of a slot begins; the end of the match if the slot has no part in it. -/
def Match.opening (slot : Slot) (m : Match) : Nat :=
  (m.capture? slot).elim m.span.stop Span.start

/-- What a match captures in the other slots. -/
def Match.without (slot : Slot) (m : Match) : Captures := m.captures.filter (fun c => c.1 != slot)

section Brackets

variable {α : Type} {b : Bracket} {s : State} {k : State → Option α}

/-- A list in brackets goes up to the first closing one. -/
theorem run_bracket {v w : List Char} (hrest : s.cursor.rest = b.opening :: (v ++ b.closing :: w))
    (hv : b.closing ∉ v) :
    ∃ t, (inOrder b.parts).run s k = k t
      ∧ t.captures = (b.slot, ⟨s.cursor.offset + b.opening.utf8Size,
          s.cursor.offset + b.opening.utf8Size + byteLength v⟩) :: s.captures := by
  have hnone : ∀ c ∈ v, noneOf [b.closing] c = true := by
    intro c hc
    simpa [noneOf] using ne_of_mem_of_not_mem hc hv
  have hskip : Cursor.skip (noneOf [b.closing]) (some b.opening)
      (s.cursor.offset + b.opening.utf8Size) (v ++ b.closing :: w)
        = ⟨v.getLast?.or (some b.opening), s.cursor.offset + b.opening.utf8Size + byteLength v,
            b.closing :: w⟩ := by
    rw [skip_append hnone, skip_of_head]
    rintro c ⟨⟩
    simp [noneOf]
  refine ⟨⟨⟨some b.closing, s.cursor.offset + b.opening.utf8Size + byteLength v
    + b.closing.utf8Size, w⟩, _⟩, ?_, rfl⟩
  simp [Bracket.parts, inOrder, run, char, hrest, Cursor.advance, hskip]

theorem run_bracket_eq_none
    (h : ¬ (s.cursor.rest.head? = some b.opening ∧ b.closing ∈ s.cursor.rest.tail)) :
    (inOrder b.parts).run s k = none := by
  rcases hrun : (inOrder b.parts).run s k with - | a
  · rfl
  · obtain ⟨t, ht, -⟩ := exists_of_run hrun
    refine absurd ?_ h
    obtain ⟨r, hopen, hrest⟩ := leads_inOrder_cons.mp ht
    obtain ⟨r', hlist, hclose⟩ := leads_inOrder_cons.mp hrest
    cases hopen with
    | @one _ _ c cs hs hc =>
      cases hlist with
      | keep hlongest =>
        cases hlongest with
        | @longest _ _ u v hr hu hv =>
          cases hclose with
          | @one _ _ d ds hr' hd =>
            obtain rfl := beq_iff_eq.mp hc
            obtain rfl := beq_iff_eq.mp hd
            change cs = u ++ v at hr
            change v = _ :: ds at hr'
            rw [hs, hr, hr']
            exact ⟨rfl, by simp⟩

/-- What is found around a list in brackets that begins at a state. -/
theorem outside_bracket (b : Bracket) (start : Nat) (s : State) :
    ((inOrder b.parts).run s fun t => some (⟨⟨start, t.cursor.offset⟩, t.captures⟩ : Match)).map
        (fun m => (m.opening b.slot, m.without b.slot))
      = if s.cursor.rest.head? = some b.opening ∧ b.closing ∈ s.cursor.rest.tail then
          some (s.cursor.offset + b.opening.utf8Size, s.captures.filter (fun c => c.1 != b.slot))
        else none := by
  split_ifs with h
  · -- the bracket opens and is closed
    obtain ⟨hhead, hclose⟩ := h
    obtain ⟨u, hrest⟩ := List.head?_eq_some_iff.mp hhead
    rw [hrest, List.tail_cons] at hclose
    obtain ⟨v, w, rfl, hv⟩ := List.eq_append_cons_of_mem hclose
    obtain ⟨t, hrun, hcaptures⟩ := @run_bracket _ b s
      (fun t => some (⟨⟨start, t.cursor.offset⟩, t.captures⟩ : Match)) v w hrest hv
    rw [hrun]
    simp [Match.opening, Match.without, Match.capture?, hcaptures]
  · -- it does not, so nothing is matched
    rw [run_bracket_eq_none h]
    rfl

/-- **A list in brackets begins at the same place in both texts**, if its bracket closes in both. -/
theorem outside_eq_of_twin {f : Fork} {p : Pattern} (hp : p.EndsIn b) {c c' : Cursor}
    (h : f.Twin ⟨c, []⟩ ⟨c', []⟩) (hm : ∀ m ∈ p.matchAt? c, m.opening b.slot ≤ f.stop)
    (hm' : ∀ m ∈ p.matchAt? c', m.opening b.slot ≤ f.stop)
    (hclose : b.closing ∈ f.ahead ↔ b.closing ∈ f.ahead') :
    (p.matchAt? c).map (fun m => (m.opening b.slot, m.without b.slot))
      = (p.matchAt? c').map (fun m => (m.opening b.slot, m.without b.slot)) := by
  obtain ⟨q, hq⟩ := hp
  -- what the list and all behind it come to, from where it begins
  let around := fun t : State =>
    if t.cursor.rest.head? = some b.opening ∧ b.closing ∈ t.cursor.rest.tail then
      some (t.cursor.offset + b.opening.utf8Size, t.captures.filter (fun c => c.1 != b.slot))
    else none
  have hrun : ∀ c, (p.matchAt? c).map (fun m => (m.opening b.slot, m.without b.slot))
      = q.run ⟨c, []⟩ around := by
    intro c
    rw [matchAt?, hq, ← run_map]
    exact congrArg (q.run _) (funext fun t => outside_bracket b c.offset t)
  have hrefuse : ∀ c, (∀ m ∈ p.matchAt? c, m.opening b.slot ≤ f.stop) →
      q.run ⟨c, []⟩ (fun t => if f.limit ≤ t.cursor.offset then none else around t)
        = q.run ⟨c, []⟩ around := by
    intro c hm
    have hbad : ∀ t : State, SameUnless (fun a : Nat × Captures => f.stop < a.1)
        (if f.limit ≤ t.cursor.offset then none else around t) (around t) := by
      intro t
      split_ifs with hlimit
      · by_cases hopen : t.cursor.rest.head? = some b.opening ∧ b.closing ∈ t.cursor.rest.tail
        · refine .inr ⟨_, if_pos hopen, ?_⟩
          have := Fork.stop_le_of_past hlimit
          exact Nat.lt_of_le_of_lt this (Nat.lt_add_of_pos_right b.opening.utf8Size_pos)
        · exact .inl (if_neg hopen).symm
      · exact .inl rfl
    rcases run_refuse hbad q ⟨c, []⟩ with hsame | ⟨a, ha, hlt⟩
    · exact hsame
    · rw [← hrun] at ha
      obtain ⟨m, hmem, rfl⟩ := Option.map_eq_some_iff.mp ha
      exact absurd (hm m hmem) (Nat.not_le_of_lt hlt)
  rw [hrun, hrun, ← hrefuse c hm, ← hrefuse c' hm']
  refine run_eq_of_twin ⟨fun t t' ht => ?_, fun t ht => if_pos ht, fun t ht => if_pos ht⟩ h
  obtain ⟨w, -, hrest, hrest', -, hw⟩ := ht.rest_eq
  have hends : b.closing ∈ t.cursor.rest.tail ↔ b.closing ∈ t'.cursor.rest.tail := by
    rw [hrest, hrest']
    rcases w with - | ⟨d, w⟩
    · rw [hw rfl, Fork.ahead_eq_nil_iff.mpr (hw rfl)]
    · simp only [List.cons_append, List.tail_cons, List.mem_append, hclose]
  have haround : around t = around t' := by
    simp only [around, ht.offset_eq, ht.captures_eq, ht.head?_eq, hends]
  show (if f.limit ≤ t.cursor.offset then none else around t)
    = if f.limit ≤ t'.cursor.offset then none else around t'
  rw [haround, ht.offset_eq]

/-- A match of a pattern that ends in a list in brackets: the text in front of the list and that in
it, and what is captured in front of it. -/
theorem EndsIn.parts {p : Pattern} (hp : p.EndsIn b) {c : Cursor} {m : Match}
    (h : p.matchAt? c = some m) :
    ∃ u v w, c.rest = u ++ b.opening :: (v ++ b.closing :: w) ∧ b.closing ∉ v
      ∧ m.capture? b.slot = some ⟨c.offset + byteLength u + b.opening.utf8Size,
          c.offset + byteLength u + b.opening.utf8Size + byteLength v⟩
      ∧ ∀ x ∈ m.without b.slot, (∃ y z, c.rest = y ++ z ∧ x.2.start = c.offset + byteLength y)
          ∧ x.2.start ≤ x.2.stop ∧ x.2.stop ≤ c.offset + byteLength u := by
  obtain ⟨q, hq⟩ := hp
  rw [matchAt?, hq] at h
  obtain ⟨t, ht, hlist⟩ := exists_of_run h
  obtain ⟨u, kept, hrest, hcur, hcap, hkept⟩ := ht.onward
  have hopen : t.cursor.rest.head? = some b.opening ∧ b.closing ∈ t.cursor.rest.tail := by
    by_contra hopen
    rw [run_bracket_eq_none hopen] at hlist
    cases hlist
  obtain ⟨x, hx⟩ := List.head?_eq_some_iff.mp hopen.1
  have hclose := hopen.2
  rw [hx, List.tail_cons] at hclose
  obtain ⟨v, w, rfl, hv⟩ := List.eq_append_cons_of_mem hclose
  obtain ⟨r, hrun, hcaptures⟩ := @run_bracket _ b t
    (fun r => some (⟨⟨c.offset, r.cursor.offset⟩, r.captures⟩ : Match)) v w hx hv
  rw [hrun] at hlist
  obtain rfl := Option.some.inj hlist
  have hoff : t.cursor.offset = c.offset + byteLength u := by rw [hcur]; rfl
  rw [List.append_nil] at hcap
  refine ⟨u, v, w, ?_, hv, ?_, fun y hy => ?_⟩
  · rw [← hx]
    exact hrest
  · simp [Match.capture?, hcaptures, hoff]
  · rw [← hoff]
    refine hkept y ?_
    rw [Match.without, hcaptures, List.filter_cons_of_neg (by simp), hcap] at hy
    exact List.mem_of_mem_filter hy

end Brackets

end Pattern

end Scaffold

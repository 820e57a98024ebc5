/-
Scaffold/Proofs/Pattern/Search.lean

Searching at visible places only.

A declaration and a member begin with a character that is no blank, so a
search may pass over the blanks of a text (`searchAt`, over `visible`).

* `Leads.begins` — a way consumes nothing, or begins with a character its
  pattern starts with; most patterns start with no blank, and their matches are
  found at visible places (`findAll_eq_searchAt`);
* `methodHead_run` — the head of a method may begin with blanks; whatever
  modifiers it could have, a name and a parenthesis that come next are matched
  as such, so at a blank it matches what it matches at the next visible place;
* `forall₂_methodHead` — its matches are those found at visible places, but for
  the blanks they begin with.
-/
import Mathlib.Data.List.Forall2
import Scaffold.ClassBody
import Scaffold.Proofs.Pattern.Ways

namespace Scaffold

open Text

namespace Pattern

/-! ### What a way begins with -/

/-- Whether a pattern can match the empty text. -/
def nullable : Pattern → Bool
  | empty | longest _ | many _ | rounds _ | boundary | lineEnd => true
  | one _ => false
  | seq p q => p.nullable && q.nullable
  | alt p q => p.nullable || q.nullable
  | keep _ p => p.nullable

/-- Whether a match that is not empty can begin with a character. -/
def starts : Pattern → Char → Bool
  | empty, _ | boundary, _ | lineEnd, _ => false
  | one cls, c | longest cls, c | many cls, c => cls c
  | seq p q, c => p.starts c || (p.nullable && q.starts c)
  | alt p q, c => p.starts c || q.starts c
  | rounds p, c | keep _ p, c => p.starts c

/-- A way from one state to another consumes nothing, or begins with a character that its pattern
starts with. -/
def Begins (p : Pattern) (s t : State) : Prop :=
  (t.cursor = s.cursor ∧ p.nullable = true)
    ∨ (s.cursor.offset < t.cursor.offset ∧ ∃ c ∈ s.cursor.rest.head?, p.starts c = true)

theorem begins_of_behind {p : Pattern} {s : State} {u v : List Char} {cls : Char → Bool}
    (hrest : s.cursor.rest = u ++ v) (hu : ∀ c ∈ u, cls c = true) (hp : p.nullable = true)
    (hstarts : ∀ c, cls c = true → p.starts c = true) :
    Begins p s ⟨s.cursor.behind u v, s.captures⟩ := by
  cases u with
  | nil =>
    rw [List.nil_append] at hrest
    exact .inl ⟨by rw [← hrest, Cursor.behind_nil], hp⟩
  | cons c u =>
    refine .inr ⟨?_, c, by rw [hrest]; rfl, hstarts c (hu c List.mem_cons_self)⟩
    show s.cursor.offset < s.cursor.offset + byteLength (c :: u)
    have := byteLength_pos_of_ne_nil (List.cons_ne_nil c u)
    omega

theorem Leads.begins {p : Pattern} {s t : State} (h : Leads p s t) : Begins p s t := by
  induction h with
  | empty s => exact .inl ⟨rfl, rfl⟩
  | one hrest hc =>
    refine .inr ⟨?_, _, by rw [hrest]; rfl, hc⟩
    exact Nat.lt_add_of_pos_right (byteLength_pos_of_ne_nil (List.cons_ne_nil _ _))
  | longest hrest hu _ => exact begins_of_behind hrest hu rfl fun _ h => h
  | many hrest hu => exact begins_of_behind hrest hu rfl fun _ h => h
  | seq _ hq ihp ihq =>
    rcases ihp with ⟨hcur, hnull⟩ | ⟨hlt, c, hc, hstarts⟩
    · rcases ihq with ⟨hcur', hnull'⟩ | ⟨hlt, c, hc, hstarts⟩
      · exact .inl ⟨hcur'.trans hcur, Bool.and_eq_true_iff.mpr ⟨hnull, hnull'⟩⟩
      · rw [hcur] at hlt hc
        refine .inr ⟨hlt, c, hc, ?_⟩
        rw [starts, hnull, hstarts]
        exact Bool.or_true _
    · refine .inr ⟨Nat.lt_of_lt_of_le hlt hq.onward.offset_le, c, hc, ?_⟩
      rw [starts, hstarts]
      rfl
  | altLeft _ ih =>
    rcases ih with ⟨hcur, hnull⟩ | ⟨hlt, c, hc, hstarts⟩
    · exact .inl ⟨hcur, by rw [nullable, hnull]; rfl⟩
    · exact .inr ⟨hlt, c, hc, by rw [starts, hstarts]; rfl⟩
  | altRight _ ih =>
    rcases ih with ⟨hcur, hnull⟩ | ⟨hlt, c, hc, hstarts⟩
    · exact .inl ⟨hcur, by rw [nullable, hnull]; exact Bool.or_true _⟩
    · exact .inr ⟨hlt, c, hc, by rw [starts, hstarts]; exact Bool.or_true _⟩
  | stop s => exact .inl ⟨rfl, rfl⟩
  | more _ hr ihp ihr =>
    rcases ihp with ⟨hcur, -⟩ | ⟨hlt, c, hc, hstarts⟩
    -- a round that consumes nothing leaves the rest to begin here
    · rw [Begins, hcur] at ihr
      exact ihr
    · exact .inr ⟨Nat.lt_of_lt_of_le hlt hr.onward.offset_le, c, hc, hstarts⟩
  | keep _ ih => exact ih
  | boundary _ => exact .inl ⟨rfl, rfl⟩
  | lineEnd _ => exact .inl ⟨rfl, rfl⟩

/-- A pattern that matches no empty text has no way at a character it does not start with. -/
theorem not_leads {p : Pattern} {s t : State} (hnull : p.nullable = false)
    (hstarts : ∀ c ∈ s.cursor.rest.head?, p.starts c = false) : ¬ Leads p s t := by
  intro h
  rcases h.begins with ⟨-, hn⟩ | ⟨-, c, hc, hs⟩
  · rw [hnull] at hn
    cases hn
  · rw [hstarts c hc] at hs
    cases hs

theorem run_eq_none_of_starts {α : Type} {p : Pattern} {s : State} {k : State → Option α}
    (hnull : p.nullable = false) (hstarts : ∀ c ∈ s.cursor.rest.head?, p.starts c = false) :
    p.run s k = none := by
  rcases hrun : p.run s k with - | a
  · rfl
  · obtain ⟨t, ht, -⟩ := exists_of_run hrun
    exact absurd ht (not_leads hnull hstarts)

/-- A match of a pattern that matches no empty text is not empty. -/
theorem offset_lt_of_matchAt? {p : Pattern} {c : Cursor} {m : Match} (hnull : p.nullable = false)
    (h : p.matchAt? c = some m) : c.offset < m.span.stop := by
  obtain ⟨t, ht, rfl⟩ := exists_of_matchAt? h
  rcases ht.begins with ⟨-, hn⟩ | ⟨hlt, -⟩
  · rw [hnull] at hn
    cases hn
  · exact hlt

/-! ### Visible places -/

/-- The places of a text in front of a character that is no blank; the text is given by the
character in front of it, its offset, and its characters. -/
def visible : Option Char → Nat → List Char → List Cursor
  | _, _, [] => []
  | before, offset, c :: cs =>
    let later := visible (some c) (offset + c.utf8Size) cs
    if isBlank c then later else ⟨before, offset, c :: cs⟩ :: later

/-- The matches that begin at some places, from left to right and without overlap, none before
`resume`. -/
def searchAt (p : Pattern) : (resume : Nat) → List Cursor → List Match
  | _, [] => []
  | resume, c :: cs =>
    if c.offset < resume then p.searchAt resume cs
    else
      match p.matchAt? c with
      | some m => m :: p.searchAt m.span.stop cs
      | none => p.searchAt resume cs

/-- Two offsets to resume a search at make no difference from a place on. -/
def SameResume (offset r r' : Nat) : Prop := r = r' ∨ (r ≤ offset ∧ r' ≤ offset)

theorem SameResume.lt_iff {offset r r' : Nat} (h : SameResume offset r r') :
    offset < r ↔ offset < r' := by
  rcases h with rfl | h
  · rfl
  · omega

theorem SameResume.later {offset offset' r r' : Nat} (h : SameResume offset r r')
    (hle : offset ≤ offset') : SameResume offset' r r' := by
  rcases h with rfl | h
  · exact .inl rfl
  · exact .inr (by omega)

theorem sameResume_max (stop next : Nat) : SameResume next (max stop next) stop := by
  rcases Nat.le_total stop next with h | h
  · exact .inr (by omega)
  · exact .inl (by omega)

/-- A search that starts at no blank finds its matches at visible places. -/
theorem findFrom_eq_searchAt {p : Pattern}
    (hp : ∀ c : Cursor, (∀ d ∈ c.rest.head?, isBlank d = true) → p.matchAt? c = none)
    {r r' : Nat} (before : Option Char) {offset : Nat} (cs : List Char)
    (hr : SameResume offset r r') :
    p.findFrom r before offset cs = p.searchAt r' (visible before offset cs) := by
  induction cs generalizing r r' before offset with
  | nil =>
    rw [findFrom, hp _ (by simp)]
    exact ite_self _
  | cons c cs ih =>
    have hnext : offset ≤ offset + c.utf8Size := Nat.le_add_right _ _
    have hskip : ∀ r₀, r₀ ≤ offset → SameResume (offset + c.utf8Size) 0 r₀ :=
      fun r₀ h => .inr ⟨Nat.zero_le _, Nat.le_trans h hnext⟩
    rw [findFrom, visible]
    by_cases hc : isBlank c = true
    · -- no match begins at a blank
      rw [if_pos hc, hp ⟨before, offset, c :: cs⟩ (by rintro d ⟨⟩; exact hc)]
      split_ifs with hlt
      · exact ih _ (hr.later hnext)
      · exact ih _ (hskip r' (Nat.le_of_not_lt fun h => hlt (hr.lt_iff.mpr h)))
    · rw [if_neg hc, searchAt]
      by_cases hlt : offset < r
      · -- passed over by both
        rw [if_pos hlt, if_pos (hr.lt_iff.mp hlt)]
        exact ih _ (hr.later hnext)
      · have hlt' : ¬ offset < r' := fun h => hlt (hr.lt_iff.mpr h)
        rw [if_neg hlt, if_neg hlt']
        rcases p.matchAt? ⟨before, offset, c :: cs⟩ with - | m
        · -- no match here
          exact ih _ (hskip r' (Nat.le_of_not_lt hlt'))
        · -- a match, behind which both resume
          exact congrArg (m :: ·) (ih _ (sameResume_max _ _))

/-- **The matches of a pattern that starts with no blank are found at visible places.** -/
theorem findAll_eq_searchAt {p : Pattern} (hnull : p.nullable = false)
    (hstarts : ∀ c, isBlank c = true → p.starts c = false) (cs : List Char) :
    p.findAll cs = p.searchAt 0 (visible none 0 cs) :=
  findFrom_eq_searchAt (fun _ hc => run_eq_none_of_starts hnull fun d hd => hstarts d (hc d hd))
    none cs (.inl rfl)

/-! ### Patterns that start with no blank -/

/-- The blanks. -/
def blankChars : List Char :=
  ([9, 10, 11, 12, 13, 0x20, 0x85, 0xA0, 0x1680, 0x2000, 0x2001, 0x2002, 0x2003, 0x2004, 0x2005,
    0x2006, 0x2007, 0x2008, 0x2009, 0x200A, 0x2028, 0x2029, 0x202F, 0x205F, 0x3000] : List Nat).map
    Char.ofNat

theorem mem_blankChars {c : Char} (h : isBlank c = true) : c ∈ blankChars := by
  refine List.mem_map.mpr ⟨c.toNat, ?_, Char.ofNat_toNat c⟩
  simp only [isBlank, Bool.or_eq_true, Bool.and_eq_true, decide_eq_true_eq, beq_iff_eq] at h
  simp only [List.mem_cons, List.not_mem_nil, or_false]
  omega

/-- What is so of the known blanks is so of every blank. -/
theorem of_isBlank {p : Char → Bool} (hall : blankChars.all (fun d => !p d) = true) {c : Char}
    (h : isBlank c = true) : p c = false := by
  simpa using List.all_eq_true.mp hall c (mem_blankChars h)

theorem isIdentifierPart_of_isBlank {c : Char} (h : isBlank c = true) :
    isIdentifierPart c = false :=
  of_isBlank (by decide +kernel) h

theorem isIdentifierPart_of_isAlphanum {c : Char} (h : c.isAlphanum = true) :
    isIdentifierPart c = true := by
  have hlt : c.toNat < 0x80 := by
    delta Char.isAlphanum Char.isAlpha Char.isUpper Char.isLower Char.isDigit at h
    simp only [Bool.or_eq_true, Bool.and_eq_true, decide_eq_true_eq, ge_iff_le,
      UInt32.le_iff_toNat_le] at h
    show c.val.toNat < 0x80
    rcases h with (⟨-, h⟩ | ⟨-, h⟩) | ⟨-, h⟩
    · exact Nat.lt_of_le_of_lt h (by decide)
    · exact Nat.lt_of_le_of_lt h (by decide)
    · exact Nat.lt_of_le_of_lt h (by decide)
  rw [isIdentifierPart, isWordChar, if_pos hlt, isAsciiWordChar, h]
  rfl

theorem isIdentifierPart_of_isIdentifierStart {c : Char} (h : isIdentifierStart c = true) :
    isIdentifierPart c = true := by
  simp only [isIdentifierStart, Bool.or_eq_true, beq_iff_eq] at h
  rcases h with (h | rfl) | rfl
  · exact isIdentifierPart_of_isAlphanum (by rw [Char.isAlphanum, h, Bool.true_or])
  · decide +kernel
  · decide +kernel

/-- A declaration begins with no blank. -/
theorem declaration_starts {p : Pattern} (hp : p ∈ Recognizer.all.flatMap Recognizer.patterns) :
    p.nullable = false ∧ ∀ c, isBlank c = true → p.starts c = false := by
  have hall : (Recognizer.all.flatMap Recognizer.patterns).all
      (fun q => !q.nullable && blankChars.all (fun d => !q.starts d)) = true := by decide +kernel
  obtain ⟨hnullable, hstarts⟩ := Bool.and_eq_true_iff.mp (List.all_eq_true.mp hall p hp)
  exact ⟨by simpa using hnullable, fun c => of_isBlank hstarts⟩

/-- Neither does a field. -/
theorem fieldHead_starts {c : Char} (h : isBlank c = true) : fieldHead.starts c = false :=
  of_isBlank (by decide +kernel) h

/-! ### The head of a method -/

/-- A member's name and an opening parenthesis, blanks in front. -/
def namedOpening : Pattern := inOrder [blanks, memberName, blanks, char '(']

theorem run_seq_optional {α : Type} {X Y : Pattern} {s : State} {k : State → Option α}
    (h : ∀ r, Leads X s r → Y.run r k = none) : (seq (optional X) Y).run s k = Y.run s k := by
  have hX : X.run s (fun r => Y.run r k) = none := by
    rcases hrun : X.run s (fun r => Y.run r k) with - | a
    · rfl
    · obtain ⟨r, hr, ha⟩ := exists_of_run hrun
      rw [h r hr] at ha
      cases ha
  rw [run, optional, run, hX]
  rfl

theorem run_seq_rounds {α : Type} {X Y : Pattern} {s : State} {k : State → Option α}
    (h : ∀ r t, Leads X s r → Leads (rounds X) r t → Y.run t k = none) :
    (seq (rounds X) Y).run s k = Y.run s k := by
  rw [run, run]
  rcases s.cursor.rest.length with - | n
  · rfl
  · have hround : X.run s (fun r => if s.cursor.offset < r.cursor.offset then
        runRounds (fun s k => X.run s k) (fun t => Y.run t k) n r else none) = none := by
      rcases hrun : X.run s _ with - | a
      · rfl
      · obtain ⟨r, hr, ha⟩ := exists_of_run hrun
        split_ifs at ha
        obtain ⟨t, ht, ha⟩ := exists_of_runRounds (fun _ _ _ => exists_of_run) ha
        rw [h r t hr ht] at ha
        cases ha
    rw [runRounds, hround]

/-- Ways that lead to an opening parenthesis, if there are any. -/
def ToParenthesis (X : Pattern) (s : State) : Prop :=
  ∀ r, Leads X s r → r.cursor.rest.head? = some '('

theorem run_seq_optional_of_toParenthesis {α : Type} {X Y : Pattern} {s : State}
    (k : State → Option α) (hX : ToParenthesis X s) (hnull : Y.nullable = false)
    (hstarts : Y.starts '(' = false) : (seq (optional X) Y).run s k = Y.run s k := by
  refine run_seq_optional fun r hr => run_eq_none_of_starts hnull fun c hc => ?_
  rw [hX r hr] at hc
  obtain rfl := Option.some.inj hc
  exact hstarts

theorem run_seq_rounds_of_toParenthesis {α : Type} {X Y : Pattern} {s : State}
    (k : State → Option α) (hX : ToParenthesis X s) (hround : X.starts '(' = false)
    (hnull : Y.nullable = false) (hstarts : Y.starts '(' = false) :
    (seq (rounds X) Y).run s k = Y.run s k := by
  refine run_seq_rounds fun r t hr ht => run_eq_none_of_starts hnull fun c hc => ?_
  have hhead := hX r hr
  rcases ht.begins with ⟨hcur, -⟩ | ⟨-, d, hd, hs⟩
  · rw [hcur, hhead] at hc
    obtain rfl := Option.some.inj hc
    exact hstarts
  · rw [hhead] at hd
    obtain rfl := Option.some.inj hd
    rw [starts, hround] at hs
    cases hs

/-- A pattern whose ways go over a word. -/
def IsWord (X : Pattern) : Prop :=
  ∀ s r, Leads X s r → ∃ w, s.cursor.rest = w ++ r.cursor.rest ∧ w ≠ []
    ∧ ∀ c ∈ w, isIdentifierPart c = true

/-- A pattern whose ways go over a word and the blanks after it. -/
def IsModifier (X : Pattern) : Prop :=
  ∀ s r, Leads X s r → ∃ w b, s.cursor.rest = w ++ (b ++ r.cursor.rest)
    ∧ (w ≠ [] ∧ ∀ c ∈ w, isIdentifierPart c = true)
    ∧ (b ≠ [] ∧ ∀ c ∈ b, isBlank c = true) ∧ ∀ c ∈ r.cursor.rest.head?, isBlank c = false

theorem Leads.literal_rest {l : String} {s r : State} (h : Leads (literal l) s r) :
    s.cursor.rest = l.toList ++ r.cursor.rest := by
  rw [literal] at h
  generalize l.toList = ds at h ⊢
  induction ds generalizing s with
  | nil =>
    cases h with
    | empty => rfl
  | cons d ds ih =>
    cases ds with
    | nil =>
      cases h with
      | one hrest hd =>
        obtain rfl := beq_iff_eq.mp hd
        exact hrest
    | cons e ds =>
      cases h with
      | seq hp hq =>
        cases hp with
        | one hrest hd =>
          obtain rfl := beq_iff_eq.mp hd
          rw [hrest, List.cons_append]
          exact congrArg _ (ih hq)

/-- Whether a text can be a part of an identifier. -/
def isPlainWord (l : String) : Bool := !l.toList.isEmpty && l.toList.all isIdentifierPart

theorem isWord_literal {l : String} (hl : isPlainWord l = true) : IsWord (literal l) := by
  intro s r h
  obtain ⟨hnil, hpart⟩ := Bool.and_eq_true_iff.mp hl
  exact ⟨l.toList, h.literal_rest, by simpa using hnil, List.all_eq_true.mp hpart⟩

theorem isWord_words {first : String} {others : List String}
    (h : (first :: others).all isPlainWord = true) : IsWord (Pattern.words first others) := by
  induction others generalizing first with
  | nil => exact isWord_literal (List.all_eq_true.mp h first List.mem_cons_self)
  | cons second others ih =>
    obtain ⟨hfirst, hothers⟩ := Bool.and_eq_true_iff.mp h
    intro s r hr
    cases hr with
    | altLeft hr => exact isWord_literal hfirst s r hr
    | altRight hr => exact ih hothers s r hr

theorem IsWord.keep {X : Pattern} (h : IsWord X) (slot : Slot) : IsWord (.keep slot X) := by
  intro s r hr
  cases hr with
  | keep hr =>
    obtain ⟨w, hw⟩ := h _ _ hr
    exact ⟨w, hw⟩

theorem IsWord.thenBlanks {X : Pattern} (h : IsWord X) : IsModifier (seq X blanks1) := by
  intro s r hr
  cases hr with
  | seq hX hblanks =>
    obtain ⟨w, hw, hword⟩ := h _ _ hX
    cases hblanks with
    | seq hone hmore =>
      cases hone with
      | @one _ _ c cs hrest hc =>
        cases hmore with
        | @longest _ _ u v hrest' hu hv =>
          refine ⟨w, c :: u, ?_, hword, ⟨by simp, ?_⟩, hv⟩
          · rw [hw, hrest]
            exact congrArg (fun x => w ++ c :: x) hrest'
          · intro d hd
            rcases List.mem_cons.mp hd with rfl | hd
            · exact hc
            · exact hu d hd

theorem IsModifier.keep {X : Pattern} (h : IsModifier X) (slot : Slot) :
    IsModifier (.keep slot X) := by
  intro s r hr
  cases hr with
  | keep hr =>
    obtain ⟨w, b, hw⟩ := h _ _ hr
    exact ⟨w, b, hw⟩

theorem IsModifier.boundary {X : Pattern} (h : IsModifier X) : IsModifier (seq .boundary X) := by
  intro s r hr
  cases hr with
  | seq hb hr =>
    cases hb with
    | boundary _ => exact h s r hr

/-- **Where every modifier leads to a parenthesis, the head of a method is a name and a
parenthesis.** -/
theorem methodHead_run {α : Type} {s : State} (k : State → Option α)
    (hword : ∀ X, IsModifier X → ToParenthesis X s) (hstar : ToParenthesis (char '*') s) :
    methodHead.run s k = namedOpening.run s k := by
  have hround : IsModifier (inOrder [.boundary,
      Pattern.words "static" (fieldModifiers ++ ["abstract"]), blanks1]) :=
    (IsWord.thenBlanks (isWord_words (by decide +kernel))).boundary
  have hasync : IsModifier (.keep .asyncMark (wordThenBlanks "async")) :=
    (IsWord.thenBlanks (isWord_literal (by decide +kernel))).keep _
  have haccessor : IsModifier (seq (.keep .accessor (Pattern.words "get" ["set"])) blanks1) :=
    ((isWord_words (by decide +kernel)).keep _).thenBlanks
  calc methodHead.run s k
      = (inOrder [optional (.keep .asyncMark (wordThenBlanks "async")),
          optional (seq (.keep .accessor (Pattern.words "get" ["set"])) blanks1),
          optional (char '*'), blanks, memberName, blanks, char '(']).run s k :=
        run_seq_rounds_of_toParenthesis k (hword _ hround) (by decide) (by decide) (by decide)
    _ = (inOrder [optional (seq (.keep .accessor (Pattern.words "get" ["set"])) blanks1),
          optional (char '*'), blanks, memberName, blanks, char '(']).run s k :=
        run_seq_optional_of_toParenthesis k (hword _ hasync) (by decide) (by decide)
    _ = (inOrder [optional (char '*'), blanks, memberName, blanks, char '(']).run s k :=
        run_seq_optional_of_toParenthesis k (hword _ haccessor) (by decide) (by decide)
    _ = namedOpening.run s k :=
        run_seq_optional_of_toParenthesis k hstar (by decide) (by decide)

/-- A text is cut in one way into characters of a class and what begins with no such character. -/
theorem append_inj_of_class {cls : Char → Bool} {u u' v v' : List Char} (h : u ++ v = u' ++ v')
    (hu : ∀ c ∈ u, cls c = true) (hu' : ∀ c ∈ u', cls c = true) (hv : ∀ c ∈ v.head?, cls c = false)
    (hv' : ∀ c ∈ v'.head?, cls c = false) : u = u' ∧ v = v' := by
  induction u generalizing u' with
  | nil =>
    cases u' with
    | nil => exact ⟨rfl, h⟩
    | cons c u' =>
      have := hv c (by rw [List.nil_append] at h; rw [h]; rfl)
      rw [hu' c List.mem_cons_self] at this
      cases this
  | cons c u ih =>
    cases u' with
    | nil =>
      have := hv' c (by rw [List.nil_append] at h; rw [← h]; rfl)
      rw [hu c List.mem_cons_self] at this
      cases this
    | cons d u' =>
      obtain ⟨rfl, htail⟩ := List.cons.inj h
      obtain ⟨rfl, hvv⟩ := ih htail (fun e he => hu e (List.mem_cons_of_mem _ he))
        (fun e he => hu' e (List.mem_cons_of_mem _ he))
      exact ⟨rfl, hvv⟩

theorem Leads.identifier_rest {s t : State} (h : Leads identifier s t) :
    ∃ w, s.cursor.rest = w ++ t.cursor.rest ∧ w ≠ [] ∧ ∀ c ∈ w, isIdentifierPart c = true := by
  cases h with
  | seq hone hmore =>
    cases hone with
    | @one _ _ c cs hrest hc =>
      cases hmore with
      | @longest _ _ u v hrest' hu hv =>
        refine ⟨c :: u, ?_, by simp, ?_⟩
        · rw [hrest]
          exact congrArg (c :: ·) hrest'
        · intro d hd
          rcases List.mem_cons.mp hd with rfl | hd
          · exact isIdentifierPart_of_isIdentifierStart hc
          · exact hu d hd

theorem Leads.memberName_rest {s t : State} (h : Leads memberName s t) :
    ∃ w, (s.cursor.rest = w ++ t.cursor.rest ∨ s.cursor.rest = '#' :: (w ++ t.cursor.rest))
      ∧ w ≠ [] ∧ ∀ c ∈ w, isIdentifierPart c = true := by
  cases h with
  | keep h =>
    cases h with
    | seq hmark hname =>
      obtain ⟨w, hw, hword⟩ := hname.identifier_rest
      cases hmark with
      | altLeft hmark =>
        cases hmark with
        | @one _ _ c cs hrest hc =>
          obtain rfl := beq_iff_eq.mp hc
          exact ⟨w, .inr (hrest.trans (congrArg ('#' :: ·) hw)), hword⟩
      | altRight hmark =>
        cases hmark with
        | empty => exact ⟨w, .inl hw, hword⟩

/-- What a name and a parenthesis look like where no blank is in front. -/
theorem Leads.namedOpening_rest {s t : State} (h : Leads namedOpening s t)
    (hs : ∀ c ∈ s.cursor.rest.head?, isBlank c = false) :
    ∃ w b v, (s.cursor.rest = w ++ (b ++ '(' :: v) ∨ s.cursor.rest = '#' :: (w ++ (b ++ '(' :: v)))
      ∧ (w ≠ [] ∧ ∀ c ∈ w, isIdentifierPart c = true) ∧ ∀ c ∈ b, isBlank c = true := by
  cases h with
  | seq hfront h =>
    cases hfront with
    | @longest _ _ u v hrest hu hv =>
      -- no blank is in front, so the blanks the pattern allows there are none
      obtain rfl : u = [] := by
        rcases u with - | ⟨c, u⟩
        · rfl
        · have hc := hs c (by rw [hrest]; rfl)
          rw [hu c List.mem_cons_self] at hc
          cases hc
      cases h with
      | seq hname h =>
        obtain ⟨w, hw, hword⟩ := hname.memberName_rest
        cases h with
        | seq hblanks hopen =>
          cases hblanks with
          | @longest _ _ b v' hrest' hb hv' =>
            cases hopen with
            | @one _ _ c cs hrest'' hc =>
              obtain rfl := beq_iff_eq.mp hc
              obtain rfl : v' = '(' :: cs := hrest''
              rw [hrest'] at hw
              refine ⟨w, b, cs, ?_, hword, hb⟩
              rw [hrest]
              exact hw

/-- In front of a name and a parenthesis every modifier is that name. -/
theorem toParenthesis_of_namedOpening {s t : State} (h : Leads namedOpening s t)
    (hs : ∀ c ∈ s.cursor.rest.head?, isBlank c = false) :
    (∀ X, IsModifier X → ToParenthesis X s) ∧ ToParenthesis (char '*') s := by
  obtain ⟨w, b, v, hrest, ⟨hne, hw⟩, hb⟩ := h.namedOpening_rest hs
  have hbehind : ∀ c ∈ (b ++ '(' :: v).head?, isIdentifierPart c = false := by
    cases b with
    | nil =>
      rintro c ⟨⟩
      decide +kernel
    | cons d b =>
      rintro c ⟨⟩
      exact isIdentifierPart_of_isBlank (hb d List.mem_cons_self)
  constructor
  · intro X hX r hr
    obtain ⟨w', b', hrest', ⟨hne', hw'⟩, ⟨hbne, hb'⟩, hr'⟩ := hX s r hr
    have hbehind' : ∀ c ∈ (b' ++ r.cursor.rest).head?, isIdentifierPart c = false := by
      obtain ⟨d, b', rfl⟩ := List.exists_cons_of_ne_nil hbne
      rintro c ⟨⟩
      exact isIdentifierPart_of_isBlank (hb' d List.mem_cons_self)
    rcases hrest with hrest | hrest
    · -- the word is the name, and the blanks are those behind it
      obtain ⟨-, hb_eq⟩ := append_inj_of_class (hrest.symm.trans hrest') hw hw' hbehind hbehind'
      obtain ⟨-, hr_eq⟩ := append_inj_of_class hb_eq hb hb' (by rintro c ⟨⟩; decide) hr'
      rw [← hr_eq]
      rfl
    · -- no word begins with the mark of a private name
      obtain ⟨d, w', rfl⟩ := List.exists_cons_of_ne_nil hne'
      rw [hrest, List.cons_append] at hrest'
      have hd := hw' d List.mem_cons_self
      rw [← (List.cons.inj hrest').1] at hd
      exact absurd hd (by decide +kernel)
  · intro r hr
    refine absurd hr (not_leads rfl fun c hc => ?_)
    rcases hrest with hrest | hrest
    · obtain ⟨d, w, rfl⟩ := List.exists_cons_of_ne_nil hne
      rw [hrest] at hc
      obtain rfl : d = c := Option.some.inj hc
      have hd := hw d List.mem_cons_self
      show (d == '*') = false
      rw [beq_eq_false_iff_ne]
      rintro rfl
      exact absurd hd (by decide +kernel)
    · rw [hrest] at hc
      obtain rfl : '#' = c := Option.some.inj hc
      rfl

/-- At a blank no modifier has a way. -/
theorem toParenthesis_of_blank {s : State} (hs : ∃ c ∈ s.cursor.rest.head?, isBlank c = true) :
    (∀ X, IsModifier X → ToParenthesis X s) ∧ ToParenthesis (char '*') s := by
  obtain ⟨c, hc, hblank⟩ := hs
  constructor
  · intro X hX r hr
    obtain ⟨w, b, hrest, ⟨hne, hw⟩, -⟩ := hX s r hr
    obtain ⟨d, w, rfl⟩ := List.exists_cons_of_ne_nil hne
    rw [hrest] at hc
    obtain rfl : d = c := Option.some.inj hc
    have hd := hw d List.mem_cons_self
    rw [isIdentifierPart_of_isBlank hblank] at hd
    cases hd
  · intro r hr
    refine absurd hr (not_leads rfl fun d hd => ?_)
    obtain rfl : c = d := Option.some.inj (hc.symm.trans hd)
    show (c == '*') = false
    rw [beq_eq_false_iff_ne]
    rintro rfl
    cases hblank

theorem methodHead_run_at_blank {α : Type} {s : State} (k : State → Option α)
    (hs : ∃ c ∈ s.cursor.rest.head?, isBlank c = true) :
    methodHead.run s k = namedOpening.run s k :=
  methodHead_run k (toParenthesis_of_blank hs).1 (toParenthesis_of_blank hs).2

/-- The head of a method at a visible place is a name and a parenthesis if these come next. -/
theorem methodHead_run_at_name {α β : Type} {s : State} (k : State → Option α)
    (hs : ∀ c ∈ s.cursor.rest.head?, isBlank c = false) {k' : State → Option β} {b : β}
    (h : namedOpening.run s k' = some b) : methodHead.run s k = namedOpening.run s k := by
  obtain ⟨t, ht, -⟩ := exists_of_run h
  obtain ⟨hword, hstar⟩ := toParenthesis_of_namedOpening ht hs
  exact methodHead_run k hword hstar

/-- A match that begins with a blank goes on as a match behind it. -/
theorem methodHead_behind_blank {before : Option Char} {offset : Nat} {c : Char} {cs : List Char}
    {m : Match} (hc : isBlank c = true)
    (h : methodHead.matchAt? ⟨before, offset, c :: cs⟩ = some m) :
    methodHead.matchAt? ⟨some c, offset + c.utf8Size, cs⟩
      = some ⟨⟨offset + c.utf8Size, m.span.stop⟩, m.captures⟩ := by
  rw [matchAt?, methodHead_run_at_blank _ ⟨c, rfl, hc⟩] at h
  have hopen : namedOpening.run ⟨⟨some c, offset + c.utf8Size, cs⟩, []⟩
      (fun s => some ⟨⟨offset, s.cursor.offset⟩, s.captures⟩) = some m := by
    rw [← h]
    show _ = (seq blanks _).run _ _
    rw [run, blanks, run, Cursor.skip, if_pos hc]
    rfl
  have hhead : methodHead.run ⟨⟨some c, offset + c.utf8Size, cs⟩, []⟩
      (fun s => some (⟨⟨offset, s.cursor.offset⟩, s.captures⟩ : Match)) = some m := by
    rw [← hopen]
    by_cases hblank : ∃ d ∈ cs.head?, isBlank d = true
    · exact methodHead_run_at_blank _ hblank
    · exact methodHead_run_at_name _ (fun d hd => by simpa using fun h => hblank ⟨d, hd, h⟩) hopen
  have hmap := run_map (fun m : Match => (⟨⟨offset + c.utf8Size, m.span.stop⟩, m.captures⟩ : Match))
    (fun s => some (⟨⟨offset, s.cursor.offset⟩, s.captures⟩ : Match)) methodHead
    ⟨⟨some c, offset + c.utf8Size, cs⟩, []⟩
  rw [hhead] at hmap
  exact hmap

/-! ### Names -/

/-- Whether what a pattern captures as a name is not empty and begins with no blank. -/
def namesVisibly : Pattern → Bool
  | keep slot p =>
    (slot != .name || (!p.nullable && blankChars.all (fun c => !p.starts c))) && p.namesVisibly
  | seq p q | alt p q => p.namesVisibly && q.namesVisibly
  | rounds p => p.namesVisibly
  | _ => true

/-- Of the captures made on the way from one state to another, each name begins with a visible
character and ends behind it. -/
def NamesVisible (s t : State) : Prop :=
  ∃ kept, t.captures = kept ++ s.captures ∧ ∀ c ∈ kept, c.1 = .name →
    ∃ v d w, s.cursor.rest = v ++ d :: w ∧ isBlank d = false
      ∧ c.2.start = s.cursor.offset + byteLength v ∧ c.2.start < t.cursor.offset

theorem NamesVisible.of_captures {s t : State} (h : t.captures = s.captures) : NamesVisible s t :=
  ⟨[], h, by simp⟩

theorem NamesVisible.trans {s r t : State} (hs : NamesVisible s r) (hr : NamesVisible r t)
    (hsr : Onward s r) (hrt : Onward r t) : NamesVisible s t := by
  have hle := hrt.offset_le
  obtain ⟨u, -, hrest, hcur, -⟩ := hsr
  obtain ⟨kept, hcap, hnames⟩ := hs
  obtain ⟨kept', hcap', hnames'⟩ := hr
  refine ⟨kept' ++ kept, by rw [hcap', hcap, List.append_assoc], fun c hc hslot => ?_⟩
  rcases List.mem_append.mp hc with hc | hc
  · obtain ⟨v, d, w, hvw, hd, hstart, hlt⟩ := hnames' c hc hslot
    refine ⟨u ++ v, d, w, by rw [hrest, hvw, List.append_assoc], hd, ?_, hlt⟩
    rw [hstart, hcur, Cursor.behind_offset, byteLength_append, Nat.add_assoc]
  · obtain ⟨v, d, w, hvw, hd, hstart, hlt⟩ := hnames c hc hslot
    exact ⟨v, d, w, hvw, hd, hstart, Nat.lt_of_lt_of_le hlt hle⟩

theorem Leads.namesVisible {p : Pattern} {s t : State} (h : Leads p s t)
    (hp : p.namesVisibly = true) : NamesVisible s t := by
  induction h with
  | empty | one | longest | many | stop | boundary | lineEnd => exact .of_captures rfl
  | seq hleft hright ihl ihr =>
    obtain ⟨hl, hr⟩ := Bool.and_eq_true_iff.mp hp
    exact (ihl hl).trans (ihr hr) hleft.onward hright.onward
  | altLeft _ ih => exact ih (Bool.and_eq_true_iff.mp hp).1
  | altRight _ ih => exact ih (Bool.and_eq_true_iff.mp hp).2
  | more hround hmore ihp ihr => exact (ihp hp).trans (ihr hp) hround.onward hmore.onward
  | @keep slot q s t h ih =>
    obtain ⟨hslot, hq⟩ := Bool.and_eq_true_iff.mp hp
    obtain ⟨kept, hcap, hnames⟩ := ih hq
    refine ⟨_ :: kept, congrArg (_ :: ·) hcap, fun c hc hname => ?_⟩
    rcases List.mem_cons.mp hc with rfl | hc
    · -- what is kept as a name is not empty, and starts with no blank
      obtain rfl : slot = .name := hname
      obtain ⟨hnull, hall⟩ : q.nullable = false ∧ blankChars.all (fun c => !q.starts c) = true := by
        simpa using hslot
      rcases h.begins with ⟨-, hn⟩ | ⟨hlt, d, hd, hstarts⟩
      · rw [hnull] at hn
        cases hn
      · obtain ⟨w, hw⟩ := List.head?_eq_some_iff.mp hd
        refine ⟨[], d, w, hw, ?_, rfl, hlt⟩
        by_contra hblank
        have := List.all_eq_true.mp hall d (mem_blankChars (by simpa using hblank))
        rw [hstarts] at this
        cases this
    · exact hnames c hc hname

/-- The name in a match begins with a visible character. -/
theorem name_visible {p : Pattern} (hp : p.namesVisibly = true) {c : Cursor} {m : Match}
    (h : p.matchAt? c = some m) {name : Span} (hname : m.capture? .name = some name) :
    ∃ v d w, c.rest = v ++ d :: w ∧ isBlank d = false ∧ name.start = c.offset + byteLength v
      ∧ name.start < m.span.stop := by
  obtain ⟨t, ht, rfl⟩ := exists_of_matchAt? h
  obtain ⟨kept, hcap, hnames⟩ := ht.namesVisible hp
  obtain ⟨x, hfind, rfl⟩ := Option.map_eq_some_iff.mp hname
  have hmem := List.mem_of_find?_eq_some hfind
  rw [hcap, List.append_nil] at hmem
  have hslot : x.1 = Slot.name := by simpa using List.find?_some hfind
  exact hnames x hmem hslot

/-- A visible character is at a visible place. -/
theorem exists_mem_visible {u v : List Char} {d : Char} (hd : isBlank d = false)
    (before : Option Char) (offset : Nat) :
    ∃ c ∈ visible before offset (u ++ d :: v), c.offset = offset + byteLength u := by
  induction u generalizing before offset with
  | nil =>
    rw [List.nil_append, visible, if_neg (by simp [hd])]
    exact ⟨_, List.mem_cons_self, rfl⟩
  | cons e u ih =>
    obtain ⟨c, hc, hoff⟩ := ih (some e) (offset + e.utf8Size)
    rw [List.cons_append, visible, byteLength_cons, ← Nat.add_assoc]
    split_ifs
    · exact ⟨c, hc, hoff⟩
    · exact ⟨c, List.mem_cons_of_mem _ hc, hoff⟩

/-! ### The matches of a method's head -/

/-- The first character of a match that is not empty lies in the match. -/
theorem next_le_of_matchAt? {p : Pattern} {before : Option Char} {offset : Nat} {c : Char}
    {cs : List Char} {m : Match} (hnull : p.nullable = false)
    (h : p.matchAt? ⟨before, offset, c :: cs⟩ = some m) : offset + c.utf8Size ≤ m.span.stop := by
  have hlt := offset_lt_of_matchAt? hnull h
  obtain ⟨t, ht, rfl⟩ := exists_of_matchAt? h
  obtain ⟨u, -, hrest, hcur, -⟩ := ht.onward
  have hstop : t.cursor.offset = offset + byteLength u := by rw [hcur]; rfl
  cases u with
  | nil =>
    rw [byteLength_nil, Nat.add_zero] at hstop
    exact absurd hlt (by rw [hstop]; exact Nat.lt_irrefl _)
  | cons d u =>
    obtain rfl : c = d := (List.cons.inj hrest).1
    show _ ≤ t.cursor.offset
    rw [hstop, byteLength_cons]
    omega

theorem span_start_of_matchAt? {p : Pattern} {c : Cursor} {m : Match} (h : p.matchAt? c = some m) :
    m.span.start = c.offset := by
  obtain ⟨t, -, rfl⟩ := exists_of_matchAt? h
  rfl

/-- One match is the other without the blanks that one begins with; `cs` is the text. -/
def TrimsTo (cs : List Char) (m m' : Match) : Prop :=
  ∃ u b d v, cs = u ++ (b ++ d :: v) ∧ m.span.start = byteLength u ∧ (∀ c ∈ b, isBlank c = true)
    ∧ isBlank d = false ∧ byteLength (u ++ b) + d.utf8Size ≤ m.span.stop
    ∧ m' = ⟨⟨byteLength (u ++ b), m.span.stop⟩, m.captures⟩

theorem TrimsTo.of_blank {u v : List Char} {c : Char} {m m' : Match} (hc : isBlank c = true)
    (h : TrimsTo (u ++ [c] ++ v) ⟨⟨byteLength (u ++ [c]), m.span.stop⟩, m.captures⟩ m')
    (hm : m.span.start = byteLength u) : TrimsTo (u ++ [c] ++ v) m m' := by
  obtain ⟨u', b, d, x, htext, hstart, hb, hd, hstop, hm'⟩ := h
  obtain ⟨w, rfl, hv⟩ := eq_append_of_byteLength_le htext (Nat.le_of_eq hstart)
  obtain rfl : w = [] := by
    change byteLength (u ++ [c]) = byteLength (u ++ [c] ++ w) at hstart
    rw [byteLength_append (u ++ [c])] at hstart
    exact byteLength_eq_zero.mp (by omega)
  refine ⟨u, c :: b, d, x, ?_, hm, ?_, hd, ?_, ?_⟩
  · rw [htext]
    simp
  · intro e he
    rcases List.mem_cons.mp he with rfl | he
    · exact hc
    · exact hb e he
  · simpa using hstop
  · rw [hm']
    simp

/-- A match that begins with a blank is found again behind it. -/
theorem forall₂_of_blank {u v : List Char} {c : Char} {m : Match} {found : List Match}
    (hc : isBlank c = true)
    (hm : methodHead.matchAt? ⟨u.getLast?, byteLength u, c :: v⟩ = some m)
    (h : List.Forall₂ (TrimsTo (u ++ [c] ++ v))
      (methodHead.findFrom 0 (u ++ [c]).getLast? (byteLength (u ++ [c])) v) found) :
    List.Forall₂ (TrimsTo (u ++ [c] ++ v))
      (m :: methodHead.findFrom (max m.span.stop (byteLength (u ++ [c]))) (u ++ [c]).getLast?
        (byteLength (u ++ [c])) v) found := by
  have hlen : byteLength u + c.utf8Size = byteLength (u ++ [c]) := by
    rw [byteLength_append]
    rfl
  have hlast : some c = (u ++ [c]).getLast? := by simp
  have hbehind := methodHead_behind_blank hc hm
  rw [hlen, hlast] at hbehind
  cases v with
  | nil =>
    rw [matchAt?, run_eq_none_of_starts (by decide) (by simp)] at hbehind
    cases hbehind
  | cons d v =>
    have hstop := next_le_of_matchAt? (by decide) hbehind
    have hdpos := d.utf8Size_pos
    change byteLength (u ++ [c]) + d.utf8Size ≤ m.span.stop at hstop
    rw [findFrom, if_neg (Nat.not_lt_zero _), hbehind] at h
    -- the search passes the character the match behind the blank begins with
    rw [findFrom, if_pos (by omega),
      show max m.span.stop (byteLength (u ++ [c]))
        = max m.span.stop (byteLength (u ++ [c]) + d.utf8Size) by omega]
    obtain ⟨m', later, hhead, htail, rfl⟩ := List.forall₂_cons_left_iff.mp h
    exact .cons (hhead.of_blank hc (span_start_of_matchAt? hm)) htail

theorem forall₂_findFrom {u v : List Char} {r r' : Nat} (hr : SameResume (byteLength u) r r') :
    List.Forall₂ (TrimsTo (u ++ v)) (methodHead.findFrom r u.getLast? (byteLength u) v)
      (methodHead.searchAt r' (visible u.getLast? (byteLength u) v)) := by
  induction v generalizing u r r' with
  | nil =>
    have hnone : methodHead.matchAt? ⟨u.getLast?, byteLength u, []⟩ = none :=
      run_eq_none_of_starts (by decide) (by simp)
    rw [findFrom, hnone]
    split_ifs
    · exact .nil
    · exact .nil
  | cons c v ih =>
    have hlen : byteLength u + c.utf8Size = byteLength (u ++ [c]) := by
      rw [byteLength_append]
      rfl
    have hlast : some c = (u ++ [c]).getLast? := by simp
    have htext : u ++ c :: v = (u ++ [c]) ++ v := by simp
    have hle : byteLength u ≤ byteLength (u ++ [c]) := by rw [← hlen]; omega
    rw [findFrom, visible, hlen, hlast, htext]
    by_cases hlt : byteLength u < r
    · -- the place is passed over
      have hnext := ih (u := u ++ [c]) (hr.later hle)
      rw [if_pos hlt]
      by_cases hc : isBlank c = true
      · rwa [if_pos hc]
      · rwa [if_neg hc, searchAt, if_pos (hr.lt_iff.mp hlt)]
    · have hr' : r' ≤ byteLength u := Nat.le_of_not_lt fun h => hlt (hr.lt_iff.mpr h)
      rw [if_neg hlt]
      by_cases hc : isBlank c = true
      · rw [if_pos hc]
        rcases hm : methodHead.matchAt? ⟨u.getLast?, byteLength u, c :: v⟩ with - | m
        · exact ih (.inr ⟨Nat.zero_le _, Nat.le_trans hr' hle⟩)
        · exact forall₂_of_blank hc hm (ih (.inr ⟨Nat.zero_le _, Nat.le_trans hr' hle⟩))
      · rw [if_neg hc, searchAt, if_neg (Nat.not_lt_of_le hr')]
        rcases hm : methodHead.matchAt? ⟨u.getLast?, byteLength u, c :: v⟩ with - | m
        · exact ih (.inr ⟨Nat.zero_le _, Nat.le_trans hr' hle⟩)
        · have hstart : m.span.start = byteLength u := span_start_of_matchAt? hm
          refine .cons ⟨u, [], c, v, by simp, hstart, by simp, by simpa using hc, ?_, ?_⟩
            (ih (sameResume_max _ _))
          · rw [List.append_nil]
            exact next_le_of_matchAt? (by decide) hm
          · rw [List.append_nil, ← hstart]

/-- **The matches of a method's head are found at visible places**, but for the blanks they begin
with. -/
theorem forall₂_methodHead (cs : List Char) :
    List.Forall₂ (TrimsTo cs) (methodHead.findAll cs) (methodHead.searchAt 0 (visible none 0 cs)) :=
  forall₂_findFrom (u := []) (.inl rfl)

end Pattern

end Scaffold

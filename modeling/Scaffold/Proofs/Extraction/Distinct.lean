/-
Scaffold/Proofs/Extraction/Distinct.lean

No function and no class is found twice.

Matches of one pattern begin at different places, so what is found twice at a
place is found by two patterns.  Classes have one pattern, and functions have
three, of which no two match at one place (`Apart`):

* a function by its keyword begins with `async` or `function`, a binding with
  `const`, `let` or `var`;
* behind the name of a binding both patterns read words, blanks and stars up to
  the first mark, and behind it up to the next, and there one asks for a colon or
  a parenthesis where the other asks for an equals sign (`Marked`).

So the places of all functions differ, and so do those of all classes
(`pairwise_function?`, `pairwise_class?`).  Sorted by their places they come
out in one order, whatever the order of the recognizers
(`functions_classes_distinct`).
-/
import Mathlib.Data.List.Sort
import Scaffold.Proofs.Extraction.Written
import Scaffold.Proofs.Pattern.First

namespace Scaffold

open Text

namespace Pattern

/-! ### Patterns apart -/

/-- At no place two patterns both match. -/
def Apart (p q : Pattern) : Prop :=
  ∀ u v m m', p.matchAt? (.between u v) = some m → q.matchAt? (.between u v) ≠ some m'

theorem Apart.symm {p q : Pattern} (h : Apart p q) : Apart q p :=
  fun u v m m' hm hm' => h u v m' m hm' hm

/-- Matches of patterns that are apart begin at different places. -/
theorem Apart.start_ne {p q : Pattern} (h : Apart p q) {cs : List Char} {m m' : Match}
    (hm : m ∈ p.findAll cs) (hm' : m' ∈ q.findAll cs) : m.span.start ≠ m'.span.start := by
  obtain ⟨u, v, rfl, hmatch⟩ := mem_findAll hm
  have hstart : m.span.start = byteLength u :=
    (span_start_of_matchAt? hmatch).trans (Cursor.between_offset u v)
  intro heq
  exact h u v m m' hmatch (matchAt?_of_mem_findAll hm' (heq.symm.trans hstart))

/-- What a match that is not empty begins with. -/
theorem starts_of_matchAt? {p : Pattern} (hnull : p.nullable = false) {u v : List Char} {m : Match}
    (h : p.matchAt? (.between u v) = some m) : ∃ c ∈ v.head?, p.starts c = true := by
  obtain ⟨t, ht, -⟩ := exists_of_matchAt? h
  rcases ht.begins with ⟨-, hn⟩ | ⟨-, hc⟩
  · rw [hnull] at hn
    cases hn
  · exact hc

/-- Patterns are apart that begin with different characters. -/
theorem Apart.of_starts {p q : Pattern} (hp : p.nullable = false) (hq : q.nullable = false)
    (h : ∀ c, p.starts c = true → q.starts c = false) : Apart p q := by
  intro u v m m' hm hm'
  obtain ⟨c, hc, hstarts⟩ := starts_of_matchAt? hp hm
  obtain ⟨d, hd, hstarts'⟩ := starts_of_matchAt? hq hm'
  obtain rfl := Option.mem_unique hc hd
  rw [h c hstarts] at hstarts'
  cases hstarts'

/-! ### Patterns over characters of a class -/

/-- The texts of a pattern hold characters of a class only. -/
def HoldsOnly (cls : Char → Bool) (p : Pattern) : Prop := ∀ c, p.mayHold c = true → cls c = true

section HoldsOnly

variable {cls : Char → Bool} {p q : Pattern}

theorem HoldsOnly.seq (hp : HoldsOnly cls p) (hq : HoldsOnly cls q) : HoldsOnly cls (.seq p q) :=
  fun c h => (Bool.or_eq_true_iff.mp h).elim (hp c) (hq c)

theorem HoldsOnly.alt (hp : HoldsOnly cls p) (hq : HoldsOnly cls q) : HoldsOnly cls (.alt p q) :=
  fun c h => (Bool.or_eq_true_iff.mp h).elim (hp c) (hq c)

theorem HoldsOnly.empty : HoldsOnly cls .empty := fun _ => Bool.false_ne_true.elim

theorem HoldsOnly.boundary : HoldsOnly cls .boundary := fun _ => Bool.false_ne_true.elim

theorem HoldsOnly.optional (h : HoldsOnly cls p) : HoldsOnly cls (optional p) := h.alt .empty

theorem HoldsOnly.inOrder {ps : List Pattern} (h : ∀ p ∈ ps, HoldsOnly cls p) :
    HoldsOnly cls (inOrder ps) := by
  induction ps with
  | nil => exact .empty
  | cons p ps ih =>
    obtain ⟨hp, hps⟩ := List.forall_mem_cons.mp h
    cases ps with
    | nil => exact hp
    | cons q qs => exact hp.seq (ih hps)

theorem HoldsOnly.literal {l : String} (h : l.toList.all cls = true) :
    HoldsOnly cls (literal l) := by
  refine .inOrder fun p hp => ?_
  obtain ⟨c, hc, rfl⟩ := List.mem_map.mp hp
  intro d hd
  rw [beq_iff_eq.mp hd]
  exact List.all_eq_true.mp h c hc

theorem HoldsOnly.words {first : String} {others : List String}
    (h : ∀ l ∈ first :: others, l.toList.all cls = true) :
    HoldsOnly cls (Pattern.words first others) := by
  induction others generalizing first with
  | nil => exact .literal (h first List.mem_cons_self)
  | cons second others ih =>
    obtain ⟨hfirst, hothers⟩ := List.forall_mem_cons.mp h
    exact (HoldsOnly.literal hfirst).alt (ih hothers)

end HoldsOnly

/-! ### The two patterns of a binding -/

/-- A character of a word, a blank or a star. -/
def isUnmarked (c : Char) : Bool := isIdentifierPart c || isBlank c || c == '*'

theorem isUnmarked_of_isIdentifierPart {c : Char} (h : isIdentifierPart c = true) :
    isUnmarked c = true := by
  rw [isUnmarked, h]
  rfl

theorem isUnmarked_of_isBlank {c : Char} (h : isBlank c = true) : isUnmarked c = true := by
  rw [isUnmarked, h, Bool.or_true]
  rfl

theorem holdsOnly_blanks : HoldsOnly isUnmarked blanks := fun _ => isUnmarked_of_isBlank

theorem holdsOnly_blanks1 : HoldsOnly isUnmarked blanks1 :=
  HoldsOnly.seq (fun _ => isUnmarked_of_isBlank) (fun _ => isUnmarked_of_isBlank)

theorem holdsOnly_identifier : HoldsOnly isUnmarked identifier :=
  HoldsOnly.seq
    (fun _ h => isUnmarked_of_isIdentifierPart (isIdentifierPart_of_isIdentifierStart h))
    (fun _ => isUnmarked_of_isIdentifierPart)

/-- A text that has a mark behind words, blanks and stars. -/
def Marked (mark : Char) (tail : List Char → Prop) (cs : List Char) : Prop :=
  ∃ w r, cs = w ++ mark :: r ∧ (∀ c ∈ w, isUnmarked c = true) ∧ tail r

/-- The first mark of a text, and what is behind it, are known from the text. -/
theorem Marked.unique {a b : Char} {P Q : List Char → Prop} {cs : List Char}
    (h : Marked a P cs) (h' : Marked b Q cs) (ha : isUnmarked a = false)
    (hb : isUnmarked b = false) : a = b ∧ ∃ r, P r ∧ Q r := by
  obtain ⟨w, r, rfl, hw, hr⟩ := h
  obtain ⟨w', r', heq, hw', hr'⟩ := h'
  obtain ⟨-, hmarks⟩ := append_inj_of_class heq hw hw' (by rintro c ⟨⟩; exact ha)
    (by rintro c ⟨⟩; exact hb)
  obtain ⟨rfl, rfl⟩ := List.cons.inj hmarks
  exact ⟨rfl, r, hr, hr'⟩

/-- Patterns in order up to a mark. -/
theorem marked_of_spells {ps qs : List Pattern} {mark : Char} (hps : ∀ p ∈ ps, HoldsOnly isUnmarked p)
    {tail : List Char → Prop}
    (htail : ∀ before y behind, (inOrder qs).Spells before y behind → tail (y ++ behind))
    {before : Option Char} {w behind : List Char}
    (h : (inOrder (ps ++ char mark :: qs)).Spells before w behind) :
    Marked mark tail (w ++ behind) := by
  obtain ⟨x, y, rfl, hx, hy⟩ := spells_inOrder_append.mp h
  obtain ⟨m, y, rfl, hm, hy⟩ := spells_inOrder_cons.mp hy
  obtain rfl := spells_char.mp hm
  refine ⟨x, y ++ behind, by simp, fun c hc => ?_, htail _ _ _ hy⟩
  exact HoldsOnly.inOrder hps c (hx.mayHold c hc)

/-- The patterns in front of the mark behind the name of a binding. -/
def bindingFront : List Pattern :=
  [.boundary, variableKeyword, blanks1, .keep .name identifier, blanks]

theorem holdsOnly_bindingFront : ∀ p ∈ bindingFront, HoldsOnly isUnmarked p := by
  have hkeyword : HoldsOnly isUnmarked variableKeyword := HoldsOnly.words (by decide)
  simp only [bindingFront, List.forall_mem_cons]
  exact ⟨.boundary, hkeyword, holdsOnly_blanks1, holdsOnly_identifier, holdsOnly_blanks, by simp⟩

/-- A binding to an arrow function has an equals sign, and then that of the arrow. -/
theorem marked_of_boundArrow {before : Option Char} {w behind : List Char}
    (h : boundArrow.Spells before w behind) :
    Marked '=' (Marked '=' fun _ => True) (w ++ behind) := by
  have hasync : HoldsOnly isUnmarked (.keep .asyncMark (wordThenBlanks "async")) :=
    HoldsOnly.seq (.literal (by decide)) holdsOnly_blanks1
  have hvalue : ∀ p ∈ [blanks, optional (.keep .asyncMark (wordThenBlanks "async")),
      .keep .parameters identifier, blanks], HoldsOnly isUnmarked p := by
    simp only [List.forall_mem_cons]
    exact ⟨holdsOnly_blanks, hasync.optional, holdsOnly_identifier, holdsOnly_blanks, by simp⟩
  refine @marked_of_spells bindingFront ([blanks,
    optional (.keep .asyncMark (wordThenBlanks "async")), .keep .parameters identifier, blanks]
      ++ [char '=', char '>']) '=' holdsOnly_bindingFront _ (fun before y behind hy => ?_) before w
    behind h
  exact marked_of_spells hvalue (fun _ _ _ _ => trivial) hy

/-- A binding to a function has a colon first, or an equals sign, and then a parenthesis. -/
theorem marked_of_boundFunction {before : Option Char} {w behind : List Char}
    (h : boundFunction.Spells before w behind) :
    Marked ':' (fun _ => True) (w ++ behind)
      ∨ Marked '=' (Marked '(' fun _ => True) (w ++ behind) := by
  have hasync : HoldsOnly isUnmarked (.keep .asyncMark (.seq (literal "async") blanks)) :=
    HoldsOnly.seq (.literal (by decide)) holdsOnly_blanks
  have hstar : HoldsOnly isUnmarked (char '*') := fun c hc => by rw [beq_iff_eq.mp hc]; decide
  have hkeyword : HoldsOnly isUnmarked functionKeyword := by
    refine .inOrder ?_
    simp only [List.forall_mem_cons]
    exact ⟨.literal (by decide), .boundary, holdsOnly_blanks, hstar.optional, holdsOnly_blanks,
      by simp⟩
  have hfunction : HoldsOnly isUnmarked
      (inOrder [functionKeyword, optional identifier, blanks]) := by
    refine .inOrder ?_
    simp only [List.forall_mem_cons]
    exact ⟨hkeyword, holdsOnly_identifier.optional, holdsOnly_blanks, by simp⟩
  have hvalue : ∀ p ∈ [blanks, optional (.keep .asyncMark (.seq (literal "async") blanks)),
      optional (inOrder [functionKeyword, optional identifier, blanks])],
      HoldsOnly isUnmarked p := by
    simp only [List.forall_mem_cons]
    exact ⟨holdsOnly_blanks, hasync.optional, hfunction.optional, by simp⟩
  obtain ⟨x, y, rfl, hx, hy⟩ := (@spells_inOrder_append _ _ _ bindingFront _).mp h
  have hfront : ∀ c ∈ x, isUnmarked c = true := fun c hc =>
    HoldsOnly.inOrder holdsOnly_bindingFront c (hx.mayHold c hc)
  obtain ⟨a, y, rfl, hannotation, hy⟩ := spells_inOrder_cons.mp hy
  rcases hannotation with ⟨colon, a, rfl, hcolon, -⟩ | rfl
  · -- annotated: a colon comes first
    obtain rfl := spells_char.mp hcolon
    exact .inl ⟨x, a ++ y ++ behind, by simp, hfront, trivial⟩
  · -- not annotated: the equals sign, and then the parenthesis
    obtain ⟨e, y, rfl, hequals, hy⟩ := spells_inOrder_cons.mp hy
    obtain rfl := spells_char.mp hequals
    refine .inr ⟨x, y ++ behind, by simp, hfront, ?_⟩
    exact @marked_of_spells _ [.keep .parameters (longest (noneOf [')'])), char ')'] '(' hvalue
      (fun _ => True) (fun _ _ _ _ => trivial) _ y behind hy

theorem apart_boundFunction_boundArrow : Apart boundFunction boundArrow := by
  intro u v m m' hm hm'
  obtain ⟨q, r, rfl, -, hq⟩ := exists_text_of_matchAt? hm
  obtain ⟨q', r', heq, -, hq'⟩ := exists_text_of_matchAt? hm'
  have harrow := marked_of_boundArrow hq'
  rw [← heq] at harrow
  rcases marked_of_boundFunction hq with hcolon | hequals
  · obtain ⟨hmark, -⟩ := hcolon.unique harrow (by decide) (by decide)
    cases hmark
  · obtain ⟨-, r, hparenthesis, hsign⟩ := hequals.unique harrow (by decide) (by decide)
    obtain ⟨hmark, -⟩ := hparenthesis.unique hsign (by decide) (by decide)
    cases hmark

/-- A function with a keyword begins with `async` or `function`. -/
theorem eq_of_functionDeclaration_starts {c : Char} (h : functionDeclaration.starts c = true) :
    c = 'a' ∨ c = 'f' := by
  have hasync : "async".toList = ['a', 's', 'y', 'n', 'c'] := rfl
  have hfunction : "function".toList = ['f', 'u', 'n', 'c', 't', 'i', 'o', 'n'] := rfl
  simpa [functionDeclaration, functionKeyword, wordThenBlanks, Pattern.optional, inOrder, literal,
    Pattern.char, starts, nullable, hasync, hfunction] using h

/-- Nothing else that begins with another letter is a function with a keyword. -/
theorem apart_functionDeclaration {p : Pattern} (hnull : p.nullable = false)
    (ha : p.starts 'a' = false) (hf : p.starts 'f' = false) : Apart functionDeclaration p := by
  refine .of_starts rfl hnull fun c hc => ?_
  rcases eq_of_functionDeclaration_starts hc with rfl | rfl
  · exact ha
  · exact hf

end Pattern

open Pattern

/-! ### What one pattern finds -/

section FoundBy

variable {α : Type} {offset : α → Nat} {pick : Found → Option α} {r : Recognizer}
  {source : List Char} {map : CodeMap}

/-- What a recognizer finds by a pattern. -/
def Recognizer.foundBy (r : Recognizer) (p : Pattern) (source : List Char) (map : CodeMap) :
    List Found :=
  (p.findAll source).flatMap fun m => if map.isTopLevel m.span.start then r.read source m else []

theorem Recognizer.find_eq_flatMap (r : Recognizer) (source : List Char) (map : CodeMap) :
    r.find source map = r.patterns.flatMap fun p => r.foundBy p source map :=
  List.flatMap_assoc

/-- One thing at most is picked of what a match stands for, and it is where the match begins. -/
def PicksOne (pick : Found → Option α) (offset : α → Nat) (r : Recognizer) (source : List Char) :
    Prop :=
  ∀ m, ∀ x ∈ (r.read source m).filterMap pick,
    (r.read source m).filterMap pick = [x] ∧ offset x = m.span.start

/-- A match stands for one thing at most, unless it is one of a list of exports. -/
theorem eq_singleton_of_mem_read {m : Match} {f : Found} (hr : r ≠ .exportedList)
    (hf : f ∈ r.read source m) : r.read source m = [f] := by
  cases r with
  | exportedList => exact absurd rfl hr
  | boundFunction =>
    obtain rfl := List.mem_singleton.mp hf
    rfl
  | _ =>
    rw [Recognizer.read] at hf ⊢
    split_ifs at hf ⊢
    · cases hf
    · rw [List.mem_singleton.mp hf]

theorem PicksOne.of_mem_read (h : ∀ m f x, f ∈ r.read source m → pick f = some x →
    r ≠ .exportedList ∧ offset x = m.span.start) : PicksOne pick offset r source := by
  intro m x hx
  obtain ⟨f, hread, hpick⟩ := List.mem_filterMap.mp hx
  obtain ⟨hr, hoffset⟩ := h m f x hread hpick
  refine ⟨?_, hoffset⟩
  rw [eq_singleton_of_mem_read hr hread, List.filterMap_cons_some hpick, List.filterMap_nil]

theorem PicksOne.exists_match (h : PicksOne pick offset r source) {p : Pattern} {x : α}
    (hx : x ∈ (r.foundBy p source map).filterMap pick) :
    ∃ m ∈ p.findAll source, offset x = m.span.start := by
  obtain ⟨f, hf, hpick⟩ := List.mem_filterMap.mp hx
  obtain ⟨m, hm, hf⟩ := List.mem_flatMap.mp hf
  split_ifs at hf
  · exact ⟨m, hm, (h m x (List.mem_filterMap.mpr ⟨f, hf, hpick⟩)).2⟩
  · cases hf

/-- **What is picked of what one pattern finds stands in order.** -/
theorem PicksOne.pairwise_foundBy (h : PicksOne pick offset r source) (p : Pattern) :
    ((r.foundBy p source map).filterMap pick).Pairwise fun x y => offset x < offset y := by
  have hmatch : ∀ m : Match, ∀ x ∈ (if map.isTopLevel m.span.start then r.read source m
      else []).filterMap pick, offset x = m.span.start := by
    intro m x hx
    split_ifs at hx
    · exact (h m x hx).2
    · cases hx
  rw [Recognizer.foundBy, List.filterMap_flatMap, List.pairwise_flatMap]
  constructor
  · -- one match stands for one finding at most
    intro m _
    split_ifs
    · rcases hread : (r.read source m).filterMap pick with - | ⟨x, xs⟩
      · exact .nil
      · rw [← hread, (h m x (by rw [hread]; exact List.mem_cons_self)).1]
        exact List.pairwise_singleton _ _
    · exact .nil
  · -- the matches ascend
    refine (pairwise_findAll p source).imp fun {m m'} hlt x hx y hy => ?_
    rw [hmatch m x hx, hmatch m' y hy]
    exact hlt.1

/-- What patterns that are apart find is at different places. -/
theorem PicksOne.offset_ne {r' : Recognizer} (h : PicksOne pick offset r source)
    (h' : PicksOne pick offset r' source) {p q : Pattern} (hapart : Apart p q) :
    ∀ x ∈ (r.foundBy p source map).filterMap pick, ∀ y ∈ (r'.foundBy q source map).filterMap pick,
      offset x ≠ offset y := by
  intro x hx y hy
  obtain ⟨m, hm, hoffset⟩ := h.exists_match hx
  obtain ⟨m', hm', hoffset'⟩ := h'.exists_match hy
  rw [hoffset, hoffset']
  exact hapart.start_ne hm hm'

end FoundBy

/-! ### Functions and classes -/

section Found

variable {source : List Char} {map : CodeMap} {r : Recognizer}

theorem recognizer_of_function_mem_read {m : Match} {f : FunctionItem}
    (h : Found.function f ∈ r.read source m) : r = .functionKeyword ∨ r = .boundFunction := by
  cases standsFor_of_mem_read h with
  | functionKeyword => exact .inl rfl
  | boundFunction => exact .inr rfl

theorem picksOne_function? (r : Recognizer) (source : List Char) :
    PicksOne Found.function? (·.offset) r source := by
  refine .of_mem_read fun m f x hread hpick => ?_
  cases f with
  | function f =>
    obtain rfl : f = x := Option.some.inj hpick
    obtain ⟨-, rfl⟩ := eq_of_function_mem_read hread
    refine ⟨?_, rfl⟩
    rcases recognizer_of_function_mem_read hread with rfl | rfl
    · decide
    · decide
  | classNamed name offset => cases hpick
  | exporting e => cases hpick

theorem picksOne_class? (r : Recognizer) (source : List Char) (map : CodeMap) :
    PicksOne (Found.class? source map) (·.offset) r source := by
  refine .of_mem_read fun m f x hread hpick => ?_
  cases f with
  | classNamed name offset =>
    obtain rfl := Option.some.inj hpick
    obtain ⟨rfl, -⟩ := name_of_classNamed_mem_read hread
    exact ⟨by decide, offset_of_classNamed_mem hread⟩
  | function f => cases hpick
  | exporting e => cases hpick

/-- Recognizers of classes and exports find no functions. -/
theorem function?_of_ne (hkeyword : r ≠ .functionKeyword) (hbound : r ≠ .boundFunction) :
    (r.find source map).filterMap Found.function? = [] := by
  refine List.filterMap_eq_nil_iff.mpr fun f hf => ?_
  obtain ⟨p, hp, m, -, -, hread⟩ := mem_find_iff.mp hf
  cases f with
  | function f => exact absurd (recognizer_of_function_mem_read hread) (by simp [hkeyword, hbound])
  | classNamed name offset => rfl
  | exporting e => rfl

/-- Only one recognizer finds classes. -/
theorem class?_of_ne (hr : r ≠ .classKeyword) :
    (r.find source map).filterMap (Found.class? source map) = [] := by
  refine List.filterMap_eq_nil_iff.mpr fun f hf => ?_
  obtain ⟨p, hp, m, -, -, hread⟩ := mem_find_iff.mp hf
  cases f with
  | classNamed name offset => exact absurd (name_of_classNamed_mem_read hread).1 hr
  | function f => rfl
  | exporting e => rfl

theorem filterMap_function?_all (source : List Char) (map : CodeMap) :
    (findings Recognizer.all source map).filterMap Found.function?
      = (Recognizer.functionKeyword.foundBy functionDeclaration source map).filterMap
          Found.function?
        ++ ((Recognizer.boundFunction.foundBy boundFunction source map).filterMap Found.function?
        ++ (Recognizer.boundFunction.foundBy boundArrow source map).filterMap Found.function?) := by
  have hnone : ∀ r ∈ [Recognizer.classKeyword, .exportedDeclaration, .exportedName, .exportedList],
      (r.find source map).filterMap Found.function? = [] := fun r hr =>
    function?_of_ne (by rintro rfl; simp at hr) (by rintro rfl; simp at hr)
  simp only [List.forall_mem_cons] at hnone
  obtain ⟨hclass, hdeclaration, hname, hlist, -⟩ := hnone
  simp only [findings, Recognizer.all, List.flatMap_cons, List.flatMap_nil, List.filterMap_append,
    hclass, hdeclaration, hname, hlist, List.append_nil]
  simp only [Recognizer.find_eq_flatMap, Recognizer.patterns, List.flatMap_cons, List.flatMap_nil,
    List.filterMap_append, List.append_nil]

theorem filterMap_class?_all (source : List Char) (map : CodeMap) :
    (findings Recognizer.all source map).filterMap (Found.class? source map)
      = (Recognizer.classKeyword.foundBy classDeclaration source map).filterMap
          (Found.class? source map) := by
  have hnone : ∀ r ∈ [Recognizer.functionKeyword, .boundFunction, .exportedDeclaration,
      .exportedName, .exportedList], (r.find source map).filterMap (Found.class? source map) = [] :=
    fun r hr => class?_of_ne (by rintro rfl; simp at hr)
  simp only [List.forall_mem_cons] at hnone
  obtain ⟨hkeyword, hbound, hdeclaration, hname, hlist, -⟩ := hnone
  simp only [findings, Recognizer.all, List.flatMap_cons, List.flatMap_nil, List.filterMap_append,
    hkeyword, hbound, hdeclaration, hname, hlist, List.append_nil, List.nil_append]
  rw [Recognizer.find_eq_flatMap, Recognizer.patterns, List.flatMap_singleton]

/-- **All functions that are found are at different places.** -/
theorem pairwise_function? (source : List Char) (map : CodeMap) :
    ((findings Recognizer.all source map).filterMap Found.function?).Pairwise
      fun f g => f.offset ≠ g.offset := by
  have hkeyword := picksOne_function? .functionKeyword source
  have hbound := picksOne_function? .boundFunction source
  have hne : ∀ {r : Recognizer} {p : Pattern}, PicksOne Found.function? (·.offset) r source →
      ((r.foundBy p source map).filterMap Found.function?).Pairwise
        fun f g => f.offset ≠ g.offset := fun h =>
    (h.pairwise_foundBy _).imp fun {f g} hlt => Nat.ne_of_lt hlt
  rw [filterMap_function?_all, List.pairwise_append, List.pairwise_append]
  refine ⟨hne hkeyword, ⟨hne hbound, hne hbound,
    hbound.offset_ne hbound apart_boundFunction_boundArrow⟩, fun f hf g hg => ?_⟩
  rcases List.mem_append.mp hg with hg | hg
  · exact hkeyword.offset_ne hbound (apart_functionDeclaration rfl (by decide) (by decide)) f hf g hg
  · exact hkeyword.offset_ne hbound (apart_functionDeclaration rfl (by decide) (by decide)) f hf g hg

/-- **All classes that are found are at different places.** -/
theorem pairwise_class? (source : List Char) (map : CodeMap) :
    ((findings Recognizer.all source map).filterMap (Found.class? source map)).Pairwise
      fun c d => c.offset ≠ d.offset := by
  rw [filterMap_class?_all]
  exact ((picksOne_class? .classKeyword source map).pairwise_foundBy classDeclaration).imp
    fun {c d} hlt => Nat.ne_of_lt hlt

end Found

/-! ### Outlines -/

section Sorted

variable {α : Type} {offset : α → Nat} {xs ys : List α}

/-- Items at different places are sorted strictly. -/
theorem pairwise_sortByOffset (h : xs.Pairwise fun x y => offset x ≠ offset y) :
    (sortByOffset offset xs).Pairwise fun x y => offset x < offset y := by
  have hsorted : (sortByOffset offset xs).Pairwise fun x y => offset x ≤ offset y := by
    rw [sortByOffset]
    simpa using @List.pairwise_mergeSort α (fun x y => decide (offset x ≤ offset y))
      (by simpa using fun x y z => Nat.le_trans) (by simpa using fun x y => Nat.le_total _ _) xs
  have hne : (sortByOffset offset xs).Pairwise fun x y => offset x ≠ offset y :=
    ((List.mergeSort_perm xs _).pairwise_iff fun hne => hne.symm).mpr h
  exact (hsorted.and hne).imp fun h => Nat.lt_of_le_of_ne h.1 h.2

/-- Items at different places come out in one order. -/
theorem sortByOffset_eq_of_perm (hperm : xs.Perm ys)
    (h : xs.Pairwise fun x y => offset x ≠ offset y) :
    sortByOffset offset xs = sortByOffset offset ys := by
  have h' := (hperm.pairwise_iff fun {x y} (hne : offset x ≠ offset y) => hne.symm).mp h
  refine eq_of_pairwise_offset (pairwise_sortByOffset h) (pairwise_sortByOffset h') fun x => ?_
  rw [sortByOffset, sortByOffset, List.mem_mergeSort, List.mem_mergeSort]
  exact hperm.mem_iff

end Sorted

/-- **Functions and classes are found once, whatever the order of the recognizers.**  The places of
functions ascend strictly, and so do those of classes; and recognizers in any order find the same
functions and the same classes. -/
theorem functions_classes_distinct (source : String) :
    ((extract source).functions.Pairwise fun f g => f.offset < g.offset)
      ∧ ((extract source).classes.Pairwise fun c d => c.offset < d.offset)
      ∧ ∀ rs, rs.Perm Recognizer.all →
        (extractWith rs source).functions = (extract source).functions
          ∧ (extractWith rs source).classes = (extract source).classes := by
  have hfunctions := pairwise_function? source.toList (.ofText source.toList)
  have hclasses := pairwise_class? source.toList (.ofText source.toList)
  refine ⟨pairwise_sortByOffset hfunctions, pairwise_sortByOffset hclasses, fun rs hperm => ?_⟩
  have hfound : (findings Recognizer.all source.toList (.ofText source.toList)).Perm
      (findings rs source.toList (.ofText source.toList)) := (hperm.symm.flatMap_right _)
  exact ⟨(sortByOffset_eq_of_perm (hfound.filterMap _) hfunctions).symm,
    (sortByOffset_eq_of_perm (hfound.filterMap _) hclasses).symm⟩

/-- A class between a function with a keyword and one bound to a variable. -/
def mixedSource : String :=
  "function run(b) \x7b\x7d\nclass Box \x7b\x7d\nconst pick = async a => a;\n"

theorem extract_mixedSource : extract mixedSource
    = ⟨[⟨"run", ["b"], false, 0⟩, ⟨"pick", ["a"], true, 32⟩], [⟨"Box", [], 19⟩], []⟩ := by
  have hfound : findings Recognizer.all mixedSource.toList (.ofText mixedSource.toList)
      = [.function ⟨"run", ["b"], false, 0⟩, .function ⟨"pick", ["a"], true, 32⟩,
        .classNamed "Box" 19] := by
    delta mixedSource
    rw [String.toList_ofList]
    decide +kernel
  have hbody : bodyMethods mixedSource.toList (.ofText mixedSource.toList)
      (bodySpan mixedSource.toList (.ofText mixedSource.toList) 19) = [] := by
    delta mixedSource
    rw [String.toList_ofList]
    decide +kernel
  rw [extract, extractWith, hfound]
  show (⟨sortByOffset _ [_, _], sortByOffset _ [⟨_, bodyMethods _ _ _, _⟩], sortByOffset _ []⟩
    : Outline) = _
  rw [sortByOffset_of_pairwise (by simp), sortByOffset_of_pairwise (by simp),
    sortByOffset_of_pairwise (by simp), hbody]

/-- `mixedSource` read by the recognizers in reverse order. -/
theorem functions_classes_distinct_mixedSource :
    Recognizer.all.reverse.Perm Recognizer.all
      ∧ (extractWith Recognizer.all.reverse mixedSource).functions
        = [⟨"run", ["b"], false, 0⟩, ⟨"pick", ["a"], true, 32⟩]
      ∧ (extractWith Recognizer.all.reverse mixedSource).classes = [⟨"Box", [], 19⟩] := by
  have hperm : Recognizer.all.reverse.Perm Recognizer.all := List.reverse_perm _
  obtain ⟨hfunctions, hclasses⟩ := (functions_classes_distinct mixedSource).2.2 _ hperm
  rw [hfunctions, hclasses, extract_mixedSource]
  exact ⟨hperm, rfl, rfl⟩

end Scaffold

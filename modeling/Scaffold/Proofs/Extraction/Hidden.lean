/-
Scaffold/Proofs/Extraction/Hidden.lean

Which declarations a search passes over.

A recognizer searches the raw text for its patterns, one match behind the other,
and drops afterwards the matches that begin in a comment, in a string or inside
braces, and those its shape excludes (`Recognizer.keeps`).  A match that is
dropped has moved the search on all the same.

So a declaration in code outside all braces is reported unless a match of the
search runs over its place.  That a match which is reported does so is as it
should be: the place lies inside a declaration.  One that is dropped hides the
declaration (`declaration_reported_iff`).  Dropped matches that end before the code
goes on hide nothing; but the blanks behind a word can be those at the end of a
line comment, and the parameters of a function can begin in a string
(`not_declaration_reported`).
-/
import Scaffold.Proofs.Extraction.Distinct

namespace Scaffold

open Text Pattern

/-- Where a finding is. -/
def Found.offset : Found → Nat
  | .function f => f.offset
  | .classNamed _ offset => offset
  | .exporting e => e.offset

/-- Whether a recognizer reports a match, once it is found. -/
def Recognizer.keeps (r : Recognizer) (source : List Char) (m : Match) : Bool :=
  (CodeMap.ofText source).isTopLevel m.span.start && !(r.read source m).isEmpty

section Hidden

variable {r : Recognizer} {p : Pattern} {source u v : List Char} {m : Match}

theorem keeps_iff : r.keeps source m = true ↔
    (CodeMap.ofText source).isTopLevel m.span.start = true ∧ ∃ f, f ∈ r.read source m := by
  rw [Recognizer.keeps, Bool.and_eq_true, Bool.not_eq_true', List.isEmpty_eq_false_iff_exists_mem]

/-- What a match stands for is where the match begins. -/
theorem offset_of_mem_read {f : Found} (h : f ∈ r.read source m) : f.offset = m.span.start := by
  cases standsFor_of_mem_read h with
  | functionKeyword | boundFunction | classKeyword | exportedDeclaration | exportedName => rfl
  | exportedList _ _ hlisted => exact (lists_of_listedExport? hlisted).1

/-- The patterns of a recognizer are apart from each other. -/
theorem eq_or_apart_of_mem_patterns {q : Pattern} (hp : p ∈ r.patterns) (hq : q ∈ r.patterns) :
    p = q ∨ Apart p q := by
  cases r with
  | boundFunction =>
    rcases List.mem_pair.mp hp with rfl | rfl <;> rcases List.mem_pair.mp hq with rfl | rfl
    · exact .inl rfl
    · exact .inr apart_boundFunction_boundArrow
    · exact .inr apart_boundFunction_boundArrow.symm
    · exact .inl rfl
  | _ => exact .inl ((List.mem_singleton.mp hp).trans (List.mem_singleton.mp hq).symm)

/-- What a match stands for is reported where the search finds the match. -/
theorem read_subset_find (hp : p ∈ r.patterns) (hm : m ∈ p.findAll source)
    (hkeeps : r.keeps source m = true) : r.read source m ⊆ r.find source (.ofText source) :=
  fun _ hf => mem_find_iff.mpr ⟨p, hp, m, hm, (keeps_iff.mp hkeeps).1, hf⟩

/-- And only there: nothing else that is reported begins at its place. -/
theorem mem_findAll_of_read_subset (hp : p ∈ r.patterns)
    (hm : p.matchAt? (.between u v) = some m) (hkeeps : r.keeps (u ++ v) m = true)
    (hread : r.read (u ++ v) m ⊆ r.find (u ++ v) (.ofText (u ++ v))) : m ∈ p.findAll (u ++ v) := by
  have hstart : m.span.start = byteLength u :=
    (span_start_of_matchAt? hm).trans (Cursor.between_offset u v)
  obtain ⟨-, f, hf⟩ := keeps_iff.mp hkeeps
  obtain ⟨q, hq, m', hfound, -, hf'⟩ := mem_find_iff.mp (hread hf)
  have hstart' : m'.span.start = byteLength u := by
    rw [← offset_of_mem_read hf', offset_of_mem_read hf, hstart]
  have hm' : q.matchAt? (.between u v) = some m' := matchAt?_of_mem_findAll hfound hstart'
  rcases eq_or_apart_of_mem_patterns hp hq with rfl | hapart
  · obtain rfl : m = m' := Option.some.inj (hm.symm.trans hm')
    exact hfound
  · exact absurd hm' (hapart u v m m' hm)

/-- **A declaration that a recognizer would keep, inside none that it reports, is reported just
when no match that it drops runs over the place.** -/
theorem declaration_reported_iff (hp : p ∈ r.patterns) (hm : p.matchAt? (.between u v) = some m)
    (hkeeps : r.keeps (u ++ v) m = true)
    (hout : ∀ m' ∈ p.findAll (u ++ v), r.keeps (u ++ v) m' = true → ¬ m'.RunsOver (byteLength u)) :
    r.read (u ++ v) m ⊆ r.find (u ++ v) (.ofText (u ++ v)) ↔
      ∀ m' ∈ p.findAll (u ++ v), r.keeps (u ++ v) m' = false → ¬ m'.RunsOver (byteLength u) := by
  constructor
  · -- what is reported is found, and no two matches that are found overlap
    intro hread m' hm' _
    have hfound := mem_findAll_of_read_subset hp hm hkeeps hread
    have hstart : m.span.start = byteLength u :=
      (span_start_of_matchAt? hm).trans (Cursor.between_offset u v)
    exact hstart ▸ not_runsOver_of_mem_findAll hfound hm'
  · -- the search passes over the place only with a match that runs over it
    intro hclear
    refine read_subset_find hp ((mem_findAll_or_runsOver hm).resolve_right ?_) hkeeps
    rintro ⟨m', hm', hover⟩
    rcases hkept : r.keeps (u ++ v) m' with - | -
    · exact hclear m' hm' hkept hover
    · exact hout m' hm' hkept hover

end Hidden

/-- Declarations in a comment, in a string and in a block. -/
def maskedFront : List Char :=
  "// function old(a) \x7b\x7d\nconst s = 'function none() \x7b\x7d';\nif (s) \x7b function inner() \x7b\x7d \x7d\n".toList

/-- A declaration behind them. -/
def maskedBack : List Char := "function kept(a, b) \x7b return a; \x7d\n".toList

/-- The match of that declaration. -/
def maskedMatch : Match := ⟨⟨85, 104⟩, [(.parameters, ⟨99, 103⟩), (.name, ⟨94, 98⟩)]⟩

theorem declaration_reported_iff_masked :
    functionDeclaration.matchAt? (.between maskedFront maskedBack) = some maskedMatch
      ∧ Recognizer.functionKeyword.keeps (maskedFront ++ maskedBack) maskedMatch = true
      ∧ (functionDeclaration.findAll (maskedFront ++ maskedBack)).length = 4
      ∧ Recognizer.functionKeyword.read (maskedFront ++ maskedBack) maskedMatch
          ⊆ Recognizer.functionKeyword.find (maskedFront ++ maskedBack)
              (.ofText (maskedFront ++ maskedBack)) := by
  have hm : functionDeclaration.matchAt? (.between maskedFront maskedBack) = some maskedMatch := by
    decide +kernel
  have hkeeps : Recognizer.functionKeyword.keeps (maskedFront ++ maskedBack) maskedMatch = true := by
    decide +kernel
  have hclear : ∀ m' ∈ functionDeclaration.findAll (maskedFront ++ maskedBack),
      ¬ m'.RunsOver (byteLength maskedFront) := by decide +kernel
  exact ⟨hm, hkeeps, by decide +kernel,
    (declaration_reported_iff (List.mem_singleton_self _) hm hkeeps fun m' hm' _ =>
      hclear m' hm').mpr fun m' hm' _ => hclear m' hm'⟩

/-- **The last word of a line comment hides the class behind it**: the blanks behind `class` go on
over the end of the line, and the keyword there is taken for the name. -/
theorem not_declaration_reported :
    ¬ ∀ r ∈ [Recognizer.functionKeyword, .boundFunction, .classKeyword, .exportedDeclaration],
      ∀ p ∈ r.patterns, ∀ u v m, p.matchAt? (.between u v) = some m →
        r.keeps (u ++ v) m = true →
        (∀ m' ∈ p.findAll (u ++ v), r.keeps (u ++ v) m' = true → ¬ m'.RunsOver (byteLength u)) →
        r.read (u ++ v) m ⊆ r.find (u ++ v) (.ofText (u ++ v)) := by
  intro hall
  have hsub := hall .classKeyword (by decide) classDeclaration (List.mem_singleton_self _)
    "// Base class\n".toList "class Foo \x7b\x7d\n".toList ⟨⟨14, 23⟩, [(.name, ⟨20, 23⟩)]⟩
    (by decide +kernel) (by decide +kernel) (by decide +kernel)
  have hfound : Found.classNamed "Foo" 14 ∈ Recognizer.classKeyword.find
      ("// Base class\n".toList ++ "class Foo \x7b\x7d\n".toList)
      (.ofText ("// Base class\n".toList ++ "class Foo \x7b\x7d\n".toList)) :=
    hsub (by decide +kernel)
  exact absurd hfound (by decide +kernel)

end Scaffold

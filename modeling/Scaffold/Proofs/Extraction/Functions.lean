/-
Scaffold/Proofs/Extraction/Functions.lean

The text of an exported function, and how the patterns read it.

`ExportedFunction` is a declaration in its parts, and `ExportedFunction.text`
puts them together.  Where the parts are such that the patterns can read them
(`Legible`), two things hold of the text, whatever stands around it:

* the pattern for functions has a match behind `export`, and the one for
  exports at it, each with the name (`exists_functionDeclaration`,
  `exists_exportedDeclaration`);
* no match of these patterns that begins in it runs over its end
  (`Legible.closed_functionDeclaration`, `closed_exportedDeclaration`).

The second is so since a match ends with a parenthesis or a name.  The text ends
with a brace, and a match of a function only goes over that if no parenthesis is
closed behind its keyword (`ClosesFunctions`).
-/
import Mathlib.Data.Bool.AllAny
import Scaffold.Proofs.Extraction.Written
import Scaffold.Proofs.Pattern.First
import Scaffold.Proofs.Scan.Depth

namespace Scaffold

open Text Scan Pattern

/-! ### The texts -/

/-- An exported function as it is written. -/
structure ExportedFunction where
  isAsync : Bool
  name : String
  /-- What stands between angle brackets behind the name. -/
  generics : Option String
  parameters : String
  body : String
deriving DecidableEq, Repr

namespace ExportedFunction

variable (d : ExportedFunction)

/-- The mark of an asynchronous function. -/
def marker : String := if d.isAsync then "async " else ""

/-- The keyword of a function, with its mark. -/
def keyword : String := d.marker ++ "function "

/-- The type parameters in their brackets. -/
def typeList : String :=
  match d.generics with
  | some g => "<" ++ g ++ ">"
  | none => ""

/-- The text of the declaration up to its body. -/
def head : String := "export " ++ d.keyword ++ d.name ++ d.typeList ++ "(" ++ d.parameters ++ ")"

/-- The text of the declaration. -/
def text : String := d.head ++ " \x7b" ++ d.body ++ "\x7d"

end ExportedFunction

/-! ### Boundaries of words -/

namespace Pattern

theorem isBoundary_of_ends {before : Option Char} {offset : Nat} {rest : List Char}
    (hbefore : ∃ c ∈ before, isWordChar c = true) (hrest : ∀ c ∈ rest.head?, isWordChar c = false) :
    (Cursor.mk before offset rest).isBoundary = true := by
  obtain ⟨c, rfl, hc⟩ := hbefore
  rcases rest with - | ⟨d, rest⟩
  · simp [Cursor.isBoundary, hc]
  · simp [Cursor.isBoundary, hc, hrest d rfl]

theorem isBoundary_of_begins {before : Option Char} {offset : Nat} {rest : List Char}
    (hbefore : ∀ c ∈ before, isWordChar c = false) (hrest : BeginsWord rest) :
    (Cursor.mk before offset rest).isBoundary = true := by
  obtain ⟨d, hd, hword⟩ := hrest
  rcases before with - | c
  · simp [Cursor.isBoundary, Option.mem_def.mp hd, hword]
  · simp [Cursor.isBoundary, Option.mem_def.mp hd, hword, hbefore c rfl]

/-! ### What the patterns read -/

section Reads

variable {u v n : List Char} {k k₁ k₂ : Captures}

/-- The keyword of a function with one blank behind it. -/
theorem reads_functionKeyword (hv : ∀ c ∈ v.head?, isBlank c = false ∧ c ≠ '*') :
    Reads functionKeyword u "function ".toList v k k := by
  have hblank : ∀ c ∈ v.head?, isBlank c = false := fun c hc => (hv c hc).1
  have hstar : ∀ t, ¬ Leads (char '*') ⟨.between (u ++ "function".toList ++ [] ++ [' ']) v, k⟩ t :=
    fun t => not_leads rfl fun c hc => beq_false_of_ne (hv c hc).2
  have hboundary : (Cursor.mk (u ++ "function".toList).getLast? 0 (' ' :: v)).isBoundary = true :=
    isBoundary_of_ends ⟨'n', by simp, by decide⟩ (by
      rintro c ⟨⟩
      decide)
  show Reads (inOrder _) u ("function".toList ++ ([] ++ ([' '] ++ ([] ++ [])))) v k k
  exact .cons .literal (.cons (.boundary hboundary) (.cons (.longest isBlank_space hblank)
    (.cons (.absent hstar) (.longest (by simp) hblank))))

/-- A pattern for `async` reads the mark of a function, and nothing where there is none. -/
theorem reads_marker {d : ExportedFunction} {q : Pattern} (hq : Reads q u "async ".toList v k k₁)
    (hnull : q.nullable = false) (hstarts : q.starts 'f' = false) (hv : v.head? = some 'f')
    (hk : k₂ = if d.isAsync then k₁ else k) : Reads (optional q) u d.marker.toList v k k₂ := by
  rw [ExportedFunction.marker, hk]
  cases d.isAsync with
  | true => exact .altLeft hq
  | false =>
    refine .absent fun t => not_leads hnull fun c hc => ?_
    rw [Cursor.between_rest, hv] at hc
    rw [← Option.some.inj hc]
    exact hstarts

/-- Type parameters in brackets, without brackets and parentheses inside. -/
theorem reads_typeParameters (hn : ∀ c ∈ n, c ∉ ['>', '(', ')'])
    (hv : ∀ c ∈ v.head?, isBlank c = false) :
    Reads typeParameters u (['<'] ++ (n ++ (['>'] ++ []))) v k k := by
  have hnone : ∀ c ∈ n, noneOf ['>', '(', ')'] c = true := by
    intro c hc
    simpa [noneOf] using hn c hc
  exact .cons (.one rfl) (.cons (.longest hnone (by rintro c ⟨⟩; rfl))
    (.cons (.one rfl) (.longest (by simp) hv)))

/-- A parenthesis, and the text up to the next closing one. -/
theorem reads_parameterList (hn : ')' ∉ n) :
    Reads parameterList u (['('] ++ (n ++ [')'])) v k
      ((.parameters, ⟨byteLength (u ++ ['(']), byteLength (u ++ ['('] ++ n)⟩) :: k) := by
  have hnone : ∀ c ∈ n, noneOf [')'] c = true := by
    intro c hc
    simpa [noneOf] using ne_of_mem_of_not_mem hc hn
  exact .cons (.one rfl) (.cons (.keep (.longest hnone (by rintro c ⟨⟩; rfl))) (.one rfl))

end Reads

end Pattern

/-! ### Texts in front of a name -/

/-- A character that can stand in front of a name: one of a keyword, a blank or a star. -/
def isLeadChar (c : Char) : Bool := isBlank c || isWordChar c || c == '*'

section Lead

variable {cs : List Char}

theorem isLeadChar_of_isBlank {c : Char} (h : isBlank c = true) : isLeadChar c = true := by
  rw [isLeadChar, h, Bool.true_or, Bool.true_or]

/-- The words that can stand in front of a name. -/
def leadWords : List String :=
  ["export", "default", "declare", "abstract", "async", "function", "class", "const", "let", "var"]

theorem isLeadChar_of_mem_leadWords {word : String} (h : word ∈ leadWords) :
    ∀ c ∈ word.toList, isLeadChar c = true := by
  have hall : ∀ word ∈ leadWords, word.toList.all isLeadChar = true := by decide
  exact List.all_eq_true.mp (hall word h)

theorem Spaced.isLeadChar {word : String} (h : Spaced word cs) (hword : word ∈ leadWords) :
    ∀ c ∈ cs, isLeadChar c = true := by
  obtain ⟨b, rfl, -, hb⟩ := h
  exact List.forall_mem_append.mpr
    ⟨isLeadChar_of_mem_leadWords hword, fun c hc => isLeadChar_of_isBlank (hb c hc)⟩

theorem Maybe.isLeadChar {word : String} (h : Maybe (Spaced word) cs) (hword : word ∈ leadWords) :
    ∀ c ∈ cs, isLeadChar c = true := by
  rcases h with h | rfl
  · exact h.isLeadChar hword
  · simp

theorem FunctionLead.isLeadChar (h : FunctionLead cs) : ∀ c ∈ cs, isLeadChar c = true := by
  obtain ⟨b, star, b', rfl, hb, hstar, hb'⟩ := h
  have hstar : ∀ c ∈ star, Scaffold.isLeadChar c = true := by
    rcases hstar with rfl | rfl <;> exact List.all_eq_true.mp (by decide)
  simp only [List.forall_mem_append]
  exact ⟨isLeadChar_of_mem_leadWords (by simp [leadWords]),
    fun c hc => isLeadChar_of_isBlank (hb c hc), hstar,
    fun c hc => isLeadChar_of_isBlank (hb' c hc)⟩

theorem BindingLead.isLeadChar (h : BindingLead cs) : ∀ c ∈ cs, isLeadChar c = true := by
  obtain ⟨word, hword, h⟩ := h
  apply h.isLeadChar
  simp only [leadWords, List.mem_cons] at hword ⊢
  tauto

theorem ExportLead.isLeadChar (h : ExportLead cs) : ∀ c ∈ cs, isLeadChar c = true := by
  obtain ⟨e, d, c, a, s, k, rfl, he, hd, hc, ha, hs, hk⟩ := h
  simp only [List.forall_mem_append]
  exact ⟨he.isLeadChar (by simp [leadWords]), hd.isLeadChar (by simp [leadWords]),
    hc.isLeadChar (by simp [leadWords]), ha.isLeadChar (by simp [leadWords]),
    hs.isLeadChar (by simp [leadWords]), hk.elim FunctionLead.isLeadChar BindingLead.isLeadChar⟩

theorem DefaultLead.isLeadChar (h : DefaultLead cs) : ∀ c ∈ cs, isLeadChar c = true := by
  obtain ⟨e, d, rfl, he, hd⟩ := h
  exact List.forall_mem_append.mpr
    ⟨he.isLeadChar (by simp [leadWords]), hd.isLeadChar (by simp [leadWords])⟩

end Lead

/-! ### The matches of a declaration -/

/-- An export begins: with what stands in front of an exported name, or of a list in braces. -/
def OpensExport (cs : List Char) : Prop :=
  (∃ x y, cs = x ++ y ∧ (ExportLead x ∨ DefaultLead x))
    ∨ ∃ b y, cs = "export".toList ++ (b ++ '{' :: y) ∧ ∀ c ∈ b, isBlank c = true

/-- Outside the braces of a text an export begins. -/
def HasExport (cs : List Char) : Prop := ∃ w x, cs = w ++ x ∧ PairsBraces w ∧ OpensExport x

/-- The keyword of a function and a name, up to the bracket or the parenthesis behind them. -/
def FunctionHead (cs : List Char) : Prop :=
  ∃ k n b c, cs = k ++ (n ++ (b ++ [c])) ∧ FunctionLead k ∧ IsIdentifier n
    ∧ (∀ d ∈ b, isBlank d = true) ∧ (c = '<' ∨ c = '(')

/-- Behind each head of a function a parenthesis is closed. -/
def ClosesFunctions (cs : List Char) : Prop :=
  ∀ w k x, FunctionHead k → cs = w ++ (k ++ x) → ')' ∈ x

/-- What is asked of a declaration so that it is found. -/
structure ExportedFunction.Legible (d : ExportedFunction) : Prop where
  name : IsIdentifier d.name.toList
  notHeritage : d.name ∉ heritageWords
  /-- Brackets stand in each other neither among type parameters nor in parentheses there. -/
  generics : ∀ g ∈ d.generics, (∀ c ∈ g.toList, c ∉ ['>', '(', ')']) ∧ PairsBraces g.toList
    ∧ ¬ HasExport g.toList
  parameters : PairsBraces d.parameters.toList ∧ ¬ HasExport d.parameters.toList
  body : PairsBraces d.body.toList ∧ ClosesFunctions d.body.toList

section Matches

variable {d : ExportedFunction} {u v y : List Char}

theorem isIdentifierPart_eq_false_of_head {c : Char} (h : c = '<' ∨ c = '(') :
    isIdentifierPart c = false ∧ isBlank c = false := by
  rcases h with rfl | rfl <;> decide

/-- Behind the name stands a bracket or a parenthesis. -/
theorem ExportedFunction.head?_typeList (d : ExportedFunction) (y : List Char) :
    ∀ c ∈ (d.typeList.toList ++ '(' :: y).head?, c = '<' ∨ c = '(' := by
  intro c hc
  rw [typeList] at hc
  cases hg : d.generics with
  | none =>
    rw [hg] at hc
    exact .inr (Option.some.inj hc).symm
  | some g =>
    rw [hg] at hc
    simp only [String.toList_append] at hc
    exact .inl (Option.some.inj hc).symm

theorem reads_typeList (h : d.Legible) {k : Captures} :
    Reads (optional typeParameters) u d.typeList.toList ('(' :: y) k k := by
  have hparen : ∀ c ∈ ('(' :: y).head?, isBlank c = false := by
    rintro c ⟨⟩
    decide
  rw [ExportedFunction.typeList]
  cases hg : d.generics with
  | none =>
    refine .absent fun t => not_leads rfl ?_
    rintro c ⟨⟩
    decide
  | some g =>
    have htext : ("<" ++ g ++ ">").toList = ['<'] ++ (g.toList ++ (['>'] ++ [])) := by simp
    show Reads _ u ("<" ++ g ++ ">").toList _ k k
    rw [htext]
    exact .altLeft (reads_typeParameters (h.generics g hg).1 hparen)

theorem ExportedFunction.toList_keyword (d : ExportedFunction) :
    d.keyword.toList = d.marker.toList ++ "function ".toList :=
  String.toList_append

/-- The keyword of a function begins with one of two letters. -/
theorem ExportedFunction.head?_keyword (d : ExportedFunction) (y : List Char) :
    (d.keyword.toList ++ y).head? = some 'a' ∨ (d.keyword.toList ++ y).head? = some 'f' := by
  rw [toList_keyword, marker]
  cases d.isAsync with
  | true => exact .inl rfl
  | false => exact .inr rfl

theorem ExportedFunction.beginsWord_keyword (d : ExportedFunction) (y : List Char) :
    BeginsWord (d.keyword.toList ++ y) := by
  rcases d.head?_keyword y with h | h
  · exact ⟨'a', h, by decide⟩
  · exact ⟨'f', h, by decide⟩

/-- A name begins neither with a blank nor with a star. -/
theorem not_blank_of_isIdentifier {n : List Char} (hn : IsIdentifier n) (y : List Char) :
    ∀ c ∈ (n ++ y).head?, isBlank c = false ∧ c ≠ '*' := by
  obtain ⟨⟨c, hhead, hc⟩, -⟩ := hn
  intro d hd
  rw [List.head?_append, Option.mem_def.mp hhead] at hd
  obtain rfl : c = d := Option.some.inj hd
  constructor
  · cases hblank : isBlank c with
    | false => rfl
    | true =>
      have hpart := isIdentifierPart_of_isIdentifierStart hc
      rw [isIdentifierPart_of_isBlank hblank] at hpart
      cases hpart
  · rintro rfl
    revert hc
    decide

/-- The keyword of a function behind a blank, the name and the parenthesis are a match. -/
theorem exists_functionDeclaration (h : d.Legible) (hu : ∀ c ∈ u.getLast?, isWordChar c = false)
    (hy : ')' ∈ y) :
    ∃ m, functionDeclaration.matchAt? (.between u (d.keyword.toList
          ++ (d.name.toList ++ (d.typeList.toList ++ '(' :: y)))) = some m
      ∧ m.text .name (u ++ (d.keyword.toList ++ (d.name.toList ++ (d.typeList.toList ++ '(' :: y))))
        = d.name.toList := by
  obtain ⟨p, rest, rfl, hp⟩ := List.eq_append_cons_of_mem hy
  have hbehind : (∀ c ∈ (d.typeList.toList ++ '(' :: (p ++ ')' :: rest)).head?,
        isIdentifierPart c = false)
      ∧ ∀ c ∈ (d.typeList.toList ++ '(' :: (p ++ ')' :: rest)).head?, isBlank c = false := by
    have hhead := d.head?_typeList (p ++ ')' :: rest)
    exact ⟨fun c hc => (isIdentifierPart_eq_false_of_head (hhead c hc)).1,
      fun c hc => (isIdentifierPart_eq_false_of_head (hhead c hc)).2⟩
  have hletter := not_blank_of_isIdentifier h.name
    (d.typeList.toList ++ '(' :: (p ++ ')' :: rest))
  have hparts : d.keyword.toList
        ++ (d.name.toList ++ (d.typeList.toList ++ '(' :: (p ++ ')' :: rest)))
      = [] ++ (d.marker.toList ++ ("function ".toList ++ (d.name.toList
        ++ ([] ++ (d.typeList.toList ++ (['('] ++ (p ++ [')']))))))) ++ rest := by
    rw [d.toList_keyword]
    simp
  have hbegins := d.beginsWord_keyword
    (d.name.toList ++ (d.typeList.toList ++ '(' :: (p ++ ')' :: rest)))
  rw [hparts] at hbegins ⊢
  have hreads : Reads functionDeclaration u
      ([] ++ (d.marker.toList ++ ("function ".toList ++ (d.name.toList
        ++ ([] ++ (d.typeList.toList ++ (['('] ++ (p ++ [')'])))))))) rest [] _ :=
    .cons (.boundary (isBoundary_of_begins hu hbegins))
      (.cons (reads_marker (.keep (.wordThenBlanks (w := [' ']) (by simp) isBlank_space
        (by rintro c ⟨⟩; decide))) rfl (by decide) rfl rfl)
      (.cons (reads_functionKeyword (by simpa using hletter))
      (.cons (.keep (.identifier h.name (by simpa using hbehind.1)))
      (.cons (.longest (w := []) (by simp) (by simpa using hbehind.2))
      (.cons (reads_typeList h) (reads_parameterList hp))))))
  refine ⟨_, hreads.matchAt?_eq,
    text_of_capture? (v := d.typeList.toList ++ '(' :: (p ++ ')' :: rest)) rfl ?_⟩
  simp

/-- No other word stands in the place of the keyword. -/
theorem ExportedFunction.not_prefix_keyword (d : ExportedFunction) (y : List Char) {word : String}
    (hword : word ∈ ["default", "declare", "abstract"]) :
    ¬ word.toList <+: d.keyword.toList ++ y := by
  rw [toList_keyword, marker]
  simp only [List.mem_cons, List.not_mem_nil, or_false] at hword
  cases d.isAsync <;> rcases hword with rfl | rfl | rfl <;> simp

theorem not_leads_of_not_prefix {word : String} {s t : State}
    (h : ¬ word.toList <+: s.cursor.rest) : ¬ Leads (wordThenBlanks word) s t := by
  intro hlead
  cases hlead with
  | seq hword _ => exact h ⟨_, hword.literal_rest.symm⟩

/-- `export`, the keyword and the name are a match. -/
theorem exists_exportedDeclaration (h : d.Legible) (hu : ∀ c ∈ u.getLast?, isWordChar c = false)
    (hy : ∀ c ∈ y.head?, isIdentifierPart c = false) :
    ∃ m, exportedDeclaration.matchAt? (.between u
          ("export ".toList ++ (d.keyword.toList ++ (d.name.toList ++ y)))) = some m
      ∧ m.text .name (u ++ ("export ".toList ++ (d.keyword.toList ++ (d.name.toList ++ y))))
        = d.name.toList
      ∧ m.has .defaultMark = false := by
  have hletter := not_blank_of_isIdentifier h.name y
  have hkeyword : d.keyword.toList ++ (d.name.toList ++ y)
      = d.marker.toList ++ ("function ".toList ++ d.name.toList) ++ y := by
    rw [d.toList_keyword]
    simp
  have hparts : "export ".toList ++ (d.keyword.toList ++ (d.name.toList ++ y))
      = [] ++ ("export ".toList ++ ([] ++ ([] ++ ([] ++ (d.marker.toList
        ++ ("function ".toList ++ d.name.toList)))))) ++ y := by
    rw [hkeyword]
    simp
  have hnone : ∀ word ∈ ["default", "declare", "abstract"], ∀ (w : List Char) (k : Captures) t,
      ¬ Leads (wordThenBlanks word) ⟨.between w (d.marker.toList
        ++ ("function ".toList ++ d.name.toList) ++ y), k⟩ t := by
    intro word hword w k t
    rw [← hkeyword]
    exact not_leads_of_not_prefix (d.not_prefix_keyword _ hword)
  have hfirst : ∀ c ∈ (d.marker.toList ++ ("function ".toList ++ d.name.toList) ++ y).head?,
      isBlank c = false := by
    rw [← hkeyword]
    intro c hc
    rcases d.head?_keyword (d.name.toList ++ y) with hhead | hhead
    · rw [← Option.some.inj (hhead.symm.trans hc)]
      decide
    · rw [← Option.some.inj (hhead.symm.trans hc)]
      decide
  have hreads : Reads exportedDeclaration u ([] ++ ("export ".toList ++ ([] ++ ([] ++ ([]
      ++ (d.marker.toList ++ ("function ".toList ++ d.name.toList))))))) y [] _ :=
    .cons (.boundary (isBoundary_of_begins hu ⟨'e', rfl, by decide⟩))
      (.cons (.wordThenBlanks (w := [' ']) (by simp) isBlank_space hfirst)
      (.cons (.absent fun t ht => by
        cases ht with
        | keep ht => exact hnone "default" (by simp) _ _ _ ht)
      (.cons (.absent (hnone "declare" (by simp) _ _))
      (.cons (.absent (hnone "abstract" (by simp) _ _))
      (.cons (reads_marker (.wordThenBlanks (w := [' ']) (by simp) isBlank_space
        (by rintro c ⟨⟩; decide)) rfl (by decide) rfl (ite_self _).symm)
      (.cons (.altLeft (reads_functionKeyword hletter)) (.keep (.identifier h.name hy))))))))
  rw [hparts]
  refine ⟨_, hreads.matchAt?_eq, text_of_capture? (v := y) rfl ?_, rfl⟩
  simp

end Matches

/-! ### Declarations are closed -/

/-- A head of a function holds no brace and closes no parenthesis. -/
theorem FunctionHead.not_mem {k : List Char} {c : Char} (h : FunctionHead k)
    (hc : c ∈ [')', '{', '}']) : c ∉ k := by
  have hall : ∀ d ∈ [')', '{', '}'], isLeadChar d = false ∧ isIdentifierPart d = false
      ∧ isBlank d = false ∧ d ≠ '<' ∧ d ≠ '(' := List.all_iff_forall_prop.mp (by decide)
  obtain ⟨hlead, hpart, hblank, hangle, hparen⟩ := hall c hc
  obtain ⟨f, n, b, e, rfl, hf, hn, hb, he⟩ := h
  simp only [List.mem_append, List.mem_singleton, not_or]
  refine ⟨fun hmem => ?_, fun hmem => ?_, fun hmem => ?_, ?_⟩
  · rw [hf.isLeadChar c hmem] at hlead
    cases hlead
  · rw [hn.2 c hmem] at hpart
    cases hpart
  · rw [hb c hmem] at hblank
    cases hblank
  · rintro rfl
    exact he.elim hangle hparen

section Closed

variable {a b : List Char}

/-- What a match for a function has in front of its parameters begins with a head, a mark apart. -/
theorem exists_functionHead {before : Option Char} {w r : List Char}
    (h : (inOrder [.boundary, optional (.keep .asyncMark (wordThenBlanks "async")),
      functionKeyword, .keep .name identifier, blanks, optional typeParameters]).Spells before w r)
    (x : List Char) :
    ∃ async k z, w ++ '(' :: x = async ++ (k ++ z) ∧ FunctionHead k ∧ '}' ∉ async := by
  simp only [spells_inOrder_cons] at h
  obtain ⟨-, -, rfl, ⟨rfl, -⟩, async, -, rfl, hasync, k, -, rfl, hk, n, -, rfl, hn, b, -, rfl,
    ⟨hb, -⟩, types, -, rfl, htypes, rfl⟩ := h
  have hlead := functionLead_of_spells hk
  have hname := (spells_identifier.mp hn).1
  have hmark : '}' ∉ async := fun hmem => absurd (hasync.mayHold _ hmem) (by decide)
  rcases htypes with htypes | rfl
  · -- type parameters begin with an angle bracket
    rw [typeParameters, spells_inOrder_cons] at htypes
    obtain ⟨angle, rest, rfl, hangle, -⟩ := htypes
    obtain rfl := spells_char.mp hangle
    refine ⟨async, k ++ (n ++ (b ++ ['<'])), rest ++ '(' :: x, by simp, ?_, hmark⟩
    exact ⟨k, n, b, '<', rfl, hlead, hname, hb, .inl rfl⟩
  · -- without them the parenthesis comes next
    refine ⟨async, k ++ (n ++ (b ++ ['('])), x, by simp, ?_, hmark⟩
    exact ⟨k, n, b, '(', rfl, hlead, hname, hb, .inr rfl⟩

/-- A match for a function ends with the next parenthesis that closes, so it ends in the text. -/
theorem closed_functionDeclaration (h : ClosesFunctions (a ++ ['}'])) :
    Closed functionDeclaration (a ++ ['}']) := by
  refine .of_spells fun w x hwx hx y before r hy hspells => ?_
  obtain ⟨x', hx'⟩ := exists_concat_of_append hwx hx
  obtain ⟨front, list, hparts, hfront, hlist⟩ := (@spells_inOrder_append before (x ++ y) r
    [.boundary, optional (.keep .asyncMark (wordThenBlanks "async")), functionKeyword,
      .keep .name identifier, blanks, optional typeParameters] [parameterList]).mp hspells
  obtain ⟨inside, close, rfl, hinside, hclose⟩ := (@spells_inOrder_append _ list r
    [char '(', .keep .parameters (longest (noneOf [')']))] [char ')']).mp hlist
  obtain rfl := spells_char.mp hclose
  -- no parenthesis is closed in front of the last one
  have hopen : ')' ∉ front ++ inside := by
    intro hmem
    rcases List.mem_append.mp hmem with hmem | hmem
    · exact absurd (hfront.mayHold _ hmem) (by decide)
    · exact absurd (hinside.mayHold _ hmem) (by decide)
  obtain ⟨paren, inside, rfl, hparen, -⟩ := hinside
  obtain rfl := spells_char.mp hparen
  obtain ⟨async, k, z, hhead, hk, hasync⟩ := exists_functionHead hfront inside
  have hall : async ++ k ++ z ++ [')'] = x ++ y := by
    rw [List.append_assoc async, ← hhead, hparts]
    simp
  obtain ⟨y', rfl⟩ := exists_concat_of_append hall hy
  rw [← List.append_assoc] at hall
  have hy' := List.append_cancel_right hall
  -- the text has the head in it, for it ends in a brace
  rcases List.append_eq_append_iff.mp hy' with ⟨x'', rfl, hx''⟩ | ⟨x'', hkey, -⟩
  · have hclosed : ')' ∈ x'' := by
      apply h (w ++ async) k x'' hk
      rw [hwx]
      simp
    apply hopen
    show ')' ∈ front ++ '(' :: inside
    rw [hhead, hx'']
    simp [hclosed]
  · have hbrace : '}' ∈ async ++ k := by
      rw [hkey, hx']
      simp
    exact (List.mem_append.mp hbrace).elim hasync (hk.not_mem (by simp))

end Closed

/-! ### Texts in which keywords are looked for -/

section Keywords

variable {a b w x k : List Char} {c : Char}

/-- A text without the character that parts two others begins the first, if it begins them both. -/
theorem exists_append_of_append_cons (hc : c ∉ k) (h : a ++ c :: b = k ++ x) :
    ∃ x', a = k ++ x' ∧ x = x' ++ c :: b := by
  rcases List.append_eq_append_iff.mp h with ⟨y, rfl, hy⟩ | ⟨y, ha, hy⟩
  · cases y with
    | nil => exact ⟨[], by simp, hy.symm⟩
    | cons d y =>
      obtain rfl : c = d := (List.cons.inj hy).1
      exact absurd (by simp) hc
  · exact ⟨y, ha, hy⟩

/-- A text without the character that parts two others stands in one of them. -/
theorem append_cons_eq_append (hk : k ≠ []) (hc : c ∉ k) (h : a ++ c :: b = w ++ (k ++ x)) :
    (∃ x', a = w ++ (k ++ x') ∧ x = x' ++ c :: b)
      ∨ ∃ w', w = a ++ c :: w' ∧ b = w' ++ (k ++ x) := by
  rcases List.append_eq_append_iff.mp h with ⟨y, rfl, hy⟩ | ⟨y, rfl, hy⟩
  · cases y with
    | nil =>
      obtain ⟨x', hnil, -⟩ := @exists_append_of_append_cons [] b x k c hc hy
      exact absurd (List.append_eq_nil_iff.mp hnil.symm).1 hk
    | cons d y =>
      obtain ⟨rfl, hb⟩ := List.cons.inj hy
      exact .inr ⟨y, rfl, hb⟩
  · obtain ⟨x', rfl, hx⟩ := exists_append_of_append_cons hc hy.symm
    exact .inl ⟨x', rfl, hx⟩

theorem FunctionHead.begins (h : FunctionHead k) : "function".toList <+: k := by
  obtain ⟨f, n, b, c, rfl, ⟨b', star, b'', rfl, -⟩, -⟩ := h
  rw [List.append_assoc]
  exact List.prefix_append _ _

theorem FunctionHead.ne_nil (h : FunctionHead k) : k ≠ [] := by
  rintro rfl
  cases List.prefix_nil.mp h.begins

theorem ClosesFunctions.close (h : ClosesFunctions b) (a : List Char) :
    ClosesFunctions (a ++ ')' :: b) := by
  intro w k x hk hx
  rcases append_cons_eq_append hk.ne_nil (hk.not_mem (by simp)) hx with ⟨x', -, rfl⟩ | ⟨w', -, hb⟩
  · simp
  · exact h w' k x hk hb

theorem ClosesFunctions.append_cons (hc : c ∈ [')', '{', '}']) (ha : ClosesFunctions a)
    (hb : ClosesFunctions b) : ClosesFunctions (a ++ c :: b) := by
  intro w k x hk hx
  rcases append_cons_eq_append hk.ne_nil (hk.not_mem hc) hx with ⟨x', h, rfl⟩ | ⟨w', -, h⟩
  · exact List.mem_append_left _ (ha w k x' hk h)
  · exact hb w' k x hk h

theorem ClosesFunctions.of_not_isInfix (h : ¬ "function".toList <:+: a) : ClosesFunctions a := by
  rintro w k x hk rfl
  obtain ⟨y, rfl⟩ := hk.begins
  exact absurd ⟨w, y ++ x, by simp⟩ h

end Keywords

namespace ExportedFunction

variable {d : ExportedFunction}

theorem toList_head (d : ExportedFunction) :
    d.head.toList = "export ".toList ++ (d.keyword.toList ++ (d.name.toList
      ++ (d.typeList.toList ++ '(' :: (d.parameters.toList ++ [')'])))) := by
  have hopen : "(".toList = ['('] := rfl
  have hclose : ")".toList = [')'] := rfl
  simp only [head, String.toList_append, hopen, hclose, List.append_assoc, List.cons_append,
    List.nil_append]

theorem toList_text (d : ExportedFunction) :
    d.text.toList = d.head.toList ++ ' ' :: '{' :: (d.body.toList ++ ['}']) := by
  have hopen : " \x7b".toList = [' ', '{'] := rfl
  have hclose : "\x7d".toList = ['}'] := rfl
  simp only [text, String.toList_append, hopen, hclose, List.append_assoc, List.cons_append,
    List.nil_append]

theorem exists_text_eq_concat (d : ExportedFunction) : ∃ a, d.text.toList = a ++ ['}'] := by
  refine ⟨d.head.toList ++ ' ' :: '{' :: d.body.toList, ?_⟩
  rw [toList_text]
  simp

theorem Legible.closesFunctions (h : d.Legible) : ClosesFunctions d.text.toList := by
  have hbody : ClosesFunctions ([' '] ++ '{' :: (d.body.toList ++ '}' :: [])) :=
    .append_cons (by decide) (.of_not_isInfix (by decide))
      (.append_cons (by decide) h.body.2 (.of_not_isInfix (by decide)))
  have htext := hbody.close ("export ".toList ++ (d.keyword.toList
    ++ (d.name.toList ++ (d.typeList.toList ++ '(' :: d.parameters.toList))))
  rw [toList_text, toList_head]
  simp only [List.append_assoc, List.cons_append, List.nil_append] at htext ⊢
  exact htext

/-- No match for a function runs over the end of a declaration. -/
theorem Legible.closed_functionDeclaration (h : d.Legible) :
    Closed functionDeclaration d.text.toList := by
  have hcloses := h.closesFunctions
  obtain ⟨a, ha⟩ := d.exists_text_eq_concat
  rw [ha] at hcloses ⊢
  exact Scaffold.closed_functionDeclaration hcloses

/-- No match for an export runs over the end of a declaration. -/
theorem closed_exportedDeclaration (d : ExportedFunction) :
    Closed exportedDeclaration d.text.toList := by
  obtain ⟨a, ha⟩ := d.exists_text_eq_concat
  rw [ha]
  exact .of_mayHold (by decide) a

theorem Legible.pairsBraces_name (h : d.Legible) : PairsBraces d.name.toList := by
  apply PairsBraces.of_forall
  intro c hc
  have hpart := h.name.2 c hc
  constructor
  all_goals
    rintro rfl
    revert hpart
    decide

theorem pairsBraces_keyword (d : ExportedFunction) : PairsBraces d.keyword.toList := by
  rw [toList_keyword, marker]
  cases d.isAsync <;> decide

theorem Legible.pairsBraces_typeList (h : d.Legible) : PairsBraces d.typeList.toList := by
  rw [typeList]
  cases hg : d.generics with
  | none => decide
  | some g =>
    have hopen : PairsBraces "<".toList := by decide
    have hclose : PairsBraces ">".toList := by decide
    show PairsBraces ("<" ++ g ++ ">").toList
    rw [String.toList_append, String.toList_append]
    exact (hopen.append (h.generics g hg).2.1).append hclose

theorem Legible.pairsBraces_head (h : d.Legible) : PairsBraces d.head.toList := by
  have hexport : PairsBraces "export ".toList := by decide
  have hopen : PairsBraces ['('] := by decide
  have hclose : PairsBraces [')'] := by decide
  rw [toList_head]
  exact hexport.append (d.pairsBraces_keyword.append (h.pairsBraces_name.append
    (h.pairsBraces_typeList.append (hopen.append (h.parameters.1.append hclose)))))

theorem Legible.pairsBraces (h : d.Legible) : PairsBraces d.text.toList := by
  have hblank : PairsBraces [' '] := by decide
  rw [toList_text]
  exact h.pairsBraces_head.append (hblank.append h.body.1.block)

end ExportedFunction

end Scaffold

/-
Scaffold/Proofs/Extraction/Written.lean

What a source text writes where something is found in it.

A function, a class and an export of an outline each stand for a piece of the
text: a keyword with what may stand in front of it, and a name (`Introduces`),
or a list of names in braces (`ExportList`).  The texts are described here
without the patterns they are found by:

* `function_of_mem`, `introduced_of_class_mem` — every function and every class
  is a name behind the keyword of a declaration;
* `export_of_mem` — every export is the name of a declaration behind `export`, a
  name behind `export default`, or stands in a list.
-/
import Mathlib.Data.List.Sort
import Scaffold.Extraction
import Scaffold.Proofs.Extraction.Body
import Scaffold.Proofs.Pattern.Spelling

namespace Scaffold

open Text Pattern

/-! ### Keywords -/

/-- A word and the blanks behind it. -/
def Spaced (word : String) (cs : List Char) : Prop :=
  ∃ b, cs = word.toList ++ b ∧ b ≠ [] ∧ ∀ c ∈ b, isBlank c = true

theorem isBlank_space : ∀ c ∈ [' '], isBlank c = true := List.all_eq_true.mp (by decide)

/-- A text of some kind, or none. -/
def Maybe (P : List Char → Prop) (cs : List Char) : Prop := P cs ∨ cs = []

/-- The keyword of a function, perhaps with the star of a generator. -/
def FunctionLead (cs : List Char) : Prop :=
  ∃ b star b', cs = "function".toList ++ (b ++ (star ++ b')) ∧ (∀ c ∈ b, isBlank c = true)
    ∧ Maybe (· = ['*']) star ∧ ∀ c ∈ b', isBlank c = true

/-- The keyword of a class or of a variable. -/
def BindingLead (cs : List Char) : Prop := ∃ word ∈ ["class", "const", "let", "var"], Spaced word cs

/-- What stands in front of the name of a declaration. -/
def DeclarationLead (cs : List Char) : Prop :=
  (∃ a k, cs = a ++ k ∧ Maybe (Spaced "async") a ∧ FunctionLead k) ∨ BindingLead cs

/-- What stands in front of the name of an exported declaration. -/
def ExportLead (cs : List Char) : Prop :=
  ∃ e d c a s k, cs = e ++ (d ++ (c ++ (a ++ (s ++ k)))) ∧ Spaced "export" e
    ∧ Maybe (Spaced "default") d ∧ Maybe (Spaced "declare") c ∧ Maybe (Spaced "abstract") a
    ∧ Maybe (Spaced "async") s ∧ (FunctionLead k ∨ BindingLead k)

/-- What stands in front of a name that is exported as the default. -/
def DefaultLead (cs : List Char) : Prop :=
  ∃ e d, cs = e ++ d ∧ Spaced "export" e ∧ Spaced "default" d

/-! ### Places of names -/

/-- Between texts of some kinds stands a name, at `place`; the text in front begins at `start`, in
code outside all braces. -/
def Introduces (lead tail : List Char → Prop) (source : List Char) (start place : Nat)
    (name : String) : Prop :=
  ∃ u x v, source = u ++ (x ++ (name.toList ++ v)) ∧ start = byteLength u
    ∧ place = byteLength (u ++ x) ∧ lead x ∧ tail v ∧ (∀ c ∈ u.getLast?, isWordChar c = false)
    ∧ (CodeMap.ofText source).isTopLevel start = true ∧ IsIdentifier name.toList
    ∧ ∀ c ∈ v.head?, isIdentifierPart c = false

/-- A declaration of a name. -/
def Declares : List Char → Nat → Nat → String → Prop := Introduces DeclarationLead fun _ => True

/-- A declaration of a name that is exported. -/
def ExportDeclares : List Char → Nat → Nat → String → Prop := Introduces ExportLead fun _ => True

/-- A statement ends here, with a semicolon or with a line. -/
def StatementEnd (cs : List Char) : Prop :=
  ∃ b w, cs = b ++ w ∧ (∀ c ∈ b, isBlank c = true) ∧ ∀ c ∈ w.head?, c = ';' ∨ c = '\n'

/-- A name that is exported as the default. -/
def ExportsDefault : List Char → Nat → Nat → String → Prop := Introduces DefaultLead StatementEnd

/-- A list of names in braces behind `export`, in code outside all braces. -/
structure ExportList (source : List Char) where
  front : List Char
  gap : List Char
  body : List Char
  back : List Char
  eq : source = front ++ ("export".toList ++ (gap ++ '{' :: (body ++ '}' :: back)))
  apart : ∀ c ∈ front.getLast?, isWordChar c = false
  isTopLevel : (CodeMap.ofText source).isTopLevel (byteLength front) = true
  blank : ∀ c ∈ gap, isBlank c = true
  closed : '}' ∉ body

/-- The entries of a list, as they are written. -/
def ExportList.entries {source : List Char} (l : ExportList source) : List (List Char) :=
  splitWhere (· == ',') l.body

/-- A list is known by where it begins. -/
theorem ExportList.eq_of_length {source : List Char} {l l' : ExportList source}
    (h : l.front.length = l'.front.length) : l = l' := by
  rcases l with ⟨front, gap, body, back, heq, hapart, htop, hgap, hbody⟩
  rcases l' with ⟨front', gap', body', back', heq', hapart', htop', hgap', hbody'⟩
  have hbrace : ∀ (cs : List Char), ∀ c ∈ ('{' :: cs).head?, isBlank c = false := by
    rintro cs c ⟨⟩
    decide
  have hother : ∀ {cs : List Char}, '}' ∉ cs → ∀ c ∈ cs, (c != '}') = true := by
    intro cs hcs c hc
    have : c ≠ '}' := fun h => hcs (h ▸ hc)
    simpa using this
  have hclose : ∀ (cs : List Char), ∀ c ∈ ('}' :: cs).head?, (c != '}') = false := by
    rintro cs c ⟨⟩
    rfl
  obtain ⟨rfl, hrest⟩ := List.append_inj (heq.symm.trans heq') h
  obtain ⟨rfl, hlist⟩ := append_inj_of_class (List.append_cancel_left hrest) hgap hgap' (hbrace _)
    (hbrace _)
  obtain ⟨rfl, hback⟩ := append_inj_of_class (List.cons.inj hlist).2 (hother hbody) (hother hbody')
    (hclose _) (hclose _)
  obtain rfl := (List.cons.inj hback).2
  rfl

/-- An entry that lists a name, perhaps under another one. -/
def Lists (entry : List Char) (inner outer : String) : Prop :=
  ((Text.words entry).map String.ofList = [inner] ∧ outer = inner)
    ∨ (Text.words entry).map String.ofList = [inner, "as", outer]

/-! ### From patterns to words -/

section Spelled

variable {before : Option Char} {w behind : List Char}

theorem spaced_of_spells {word : String}
    (h : (wordThenBlanks word).Spells before w behind) : Spaced word w := by
  obtain ⟨x, y, rfl, hx, hy⟩ := h
  obtain ⟨hne, hblank, -⟩ := spells_blanks1.mp hy
  exact ⟨y, by rw [spells_literal.mp hx], hne, hblank⟩

theorem maybe_of_spells {p : Pattern} {P : List Char → Prop}
    (hp : p.Spells before w behind → P w) (h : (optional p).Spells before w behind) : Maybe P w :=
  h.imp hp id

theorem functionLead_of_spells (h : functionKeyword.Spells before w behind) : FunctionLead w := by
  rw [functionKeyword] at h
  simp only [spells_inOrder_cons] at h
  obtain ⟨f, -, rfl, hf, -, -, rfl, ⟨rfl, -⟩, b, -, rfl, ⟨hb, -⟩, star, -, rfl, hstar, b', -, rfl,
    ⟨hb', -⟩, rfl⟩ := h
  refine ⟨b, star, b', ?_, hb, maybe_of_spells spells_char.mp hstar, hb'⟩
  rw [spells_literal.mp hf]
  simp

theorem spaced_of_words {first : String} {others : List String}
    (h : (seq (Pattern.words first others) blanks1).Spells before w behind) :
    ∃ word ∈ first :: others, Spaced word w := by
  obtain ⟨x, y, rfl, hx, hy⟩ := h
  obtain ⟨word, hword, rfl⟩ := spells_words.mp hx
  obtain ⟨hne, hblank, -⟩ := spells_blanks1.mp hy
  exact ⟨word, hword, y, rfl, hne, hblank⟩

theorem bindingLead_of_spells {first : String} {others : List String}
    (hwords : first :: others ⊆ ["class", "const", "let", "var"])
    (h : (seq (Pattern.words first others) blanks1).Spells before w behind) : BindingLead w := by
  obtain ⟨word, hword, hspaced⟩ := spaced_of_words h
  exact ⟨word, hwords hword, hspaced⟩

end Spelled

/-- A keyword begins with a character of a word. -/
def BeginsWord (cs : List Char) : Prop := ∃ c ∈ cs.head?, isWordChar c = true

theorem BeginsWord.append {x : List Char} (h : BeginsWord x) (y : List Char) :
    BeginsWord (x ++ y) := by
  obtain ⟨c, hc, hword⟩ := h
  cases x with
  | nil => cases hc
  | cons d x => exact ⟨c, hc, hword⟩

theorem Spaced.beginsWord {word : String} {cs : List Char} (h : Spaced word cs)
    (hword : BeginsWord word.toList) : BeginsWord cs := by
  obtain ⟨b, rfl, -⟩ := h
  exact hword.append b

theorem FunctionLead.beginsWord {cs : List Char} (h : FunctionLead cs) : BeginsWord cs := by
  obtain ⟨b, star, b', rfl, -⟩ := h
  exact BeginsWord.append ⟨'f', rfl, by decide⟩ _

theorem BindingLead.beginsWord {cs : List Char} (h : BindingLead cs) : BeginsWord cs := by
  obtain ⟨word, hword, hspaced⟩ := h
  refine hspaced.beginsWord ?_
  have hall : ∀ word ∈ ["class", "const", "let", "var"],
      word.toList.head?.any isWordChar = true := by decide
  rcases hhead : word.toList.head? with - | c
  · have := hall word hword
    rw [hhead] at this
    cases this
  · have hc := hall word hword
    rw [hhead] at hc
    exact ⟨c, hhead, hc⟩

theorem Maybe.beginsWord {word : String} {x y : List Char} (h : Maybe (Spaced word) x)
    (hword : BeginsWord word.toList) (hy : BeginsWord y) : BeginsWord (x ++ y) := by
  rcases h with h | rfl
  · exact (h.beginsWord hword).append y
  · exact hy

/-! ### Where `export` stands -/

/-- The word `export`, blanks, and a word. -/
def BeginsExport (cs : List Char) : Prop :=
  ∃ b y, cs = "export".toList ++ (b ++ y) ∧ b ≠ [] ∧ (∀ c ∈ b, isBlank c = true) ∧ BeginsWord y

theorem ExportLead.beginsExport {cs : List Char} (h : ExportLead cs) : BeginsExport cs := by
  obtain ⟨e, d, c, a, s, k, rfl, ⟨b, rfl, hne, hb⟩, hd, hc, ha, hs, hk⟩ := h
  have hlead : BeginsWord k := hk.elim FunctionLead.beginsWord BindingLead.beginsWord
  refine ⟨b, d ++ (c ++ (a ++ (s ++ k))), List.append_assoc _ _ _, hne, hb, ?_⟩
  refine hd.beginsWord ⟨'d', rfl, by decide⟩ ?_
  refine hc.beginsWord ⟨'d', rfl, by decide⟩ ?_
  refine ha.beginsWord ⟨'a', rfl, by decide⟩ ?_
  exact hs.beginsWord ⟨'a', rfl, by decide⟩ hlead

theorem DefaultLead.beginsExport {cs : List Char} (h : DefaultLead cs) : BeginsExport cs := by
  obtain ⟨e, d, rfl, ⟨b, rfl, hne, hb⟩, hd⟩ := h
  exact ⟨b, d, List.append_assoc _ _ _, hne, hb, hd.beginsWord ⟨'d', rfl, by decide⟩⟩

/-- A declaration is exported by `export` in front of it. -/
theorem DeclarationLead.exported {cs : List Char} (h : DeclarationLead cs) :
    ExportLead ("export ".toList ++ cs) := by
  have hexport : Spaced "export" "export ".toList := ⟨[' '], rfl, by simp, isBlank_space⟩
  rcases h with ⟨a, k, rfl, ha, hk⟩ | h
  · exact ⟨_, [], [], [], a, k, rfl, hexport, .inr rfl, .inr rfl, .inr rfl, ha, .inl hk⟩
  · exact ⟨_, [], [], [], [], cs, rfl, hexport, .inr rfl, .inr rfl, .inr rfl, .inr rfl, .inr h⟩

/-! ### Matches -/

/-- In front of a word no word ends. -/
theorem apart_of_isBoundary {before : Option Char} {behind : List Char}
    (h : (Cursor.mk before 0 behind).isBoundary = true) (hword : BeginsWord behind) :
    ∀ c ∈ before, isWordChar c = false := by
  obtain ⟨d, hd, hword⟩ := hword
  intro c hc
  rw [Cursor.isBoundary] at h
  simpa [hword, Option.mem_def.mp hd, Option.mem_def.mp hc] using h

/-- A pattern that keeps a name between texts of some kinds, and begins where a word begins. -/
def Names (p : Pattern) (lead tail : List Char → Prop) : Prop :=
  ∃ ps qs, p = inOrder (.boundary :: ps ++ .keep .name identifier :: qs)
    ∧ .name ∉ (inOrder qs).slots
    ∧ (∀ before w behind, (inOrder ps).Spells before w behind → lead w ∧ BeginsWord w)
    ∧ ∀ before w behind, (inOrder qs).Spells before w behind → tail (w ++ behind)

/-- **A match that keeps a name introduces it.** -/
theorem Names.introduces {p : Pattern} {lead tail : List Char → Prop} (hp : Names p lead tail)
    {source : List Char} {m : Match} (hm : m ∈ p.findAll source)
    (htop : (CodeMap.ofText source).isTopLevel m.span.start = true) :
    ∃ place,
      Introduces lead tail source m.span.start place (String.ofList (m.text .name source)) := by
  obtain ⟨ps, qs, rfl, hslot, hlead, htail⟩ := hp
  obtain ⟨u, v, rfl, hmatch⟩ := mem_findAll hm
  obtain ⟨t, ht, rfl⟩ := exists_of_matchAt? hmatch
  obtain ⟨x, n, y, z, rfl, -, htext, hx, hn, hy⟩ := ht.exists_parts hslot
  obtain ⟨e, x, rfl, ⟨rfl, hboundary⟩, hx⟩ := spells_inOrder_cons.mp hx
  obtain ⟨hx, hword⟩ := hlead _ _ _ hx
  obtain ⟨hname, hbehind⟩ := spells_identifier.mp hn
  rw [matchOf] at htext
  rw [htext]
  refine ⟨byteLength (u ++ x), u, x, y ++ z, ?_, Cursor.between_offset _ _, rfl, hx,
    htail _ _ _ hy, ?_, htop, ?_, hbehind⟩
  · rw [String.toList_ofList]
    rfl
  · exact apart_of_isBoundary hboundary (hword.append _)
  · rw [String.toList_ofList]
    exact hname

/-! ### Findings -/

/-- What a recognizer finds is what a match outside all braces stands for. -/
theorem mem_find_iff {r : Recognizer} {source : List Char} {map : CodeMap} {f : Found} :
    f ∈ r.find source map ↔ ∃ p ∈ r.patterns, ∃ m ∈ p.findAll source,
      map.isTopLevel m.span.start = true ∧ f ∈ r.read source m := by
  rw [Recognizer.find, List.mem_flatMap]
  constructor
  · rintro ⟨m, hm, hread⟩
    obtain ⟨p, hp, hm⟩ := List.mem_flatMap.mp hm
    split_ifs at hread with htop
    · exact ⟨p, hp, m, hm, htop, hread⟩
    · cases hread
  · rintro ⟨p, hp, m, hm, htop, hread⟩
    refine ⟨m, List.mem_flatMap.mpr ⟨p, hp, hm⟩, ?_⟩
    rw [if_pos htop]
    exact hread

/-- Everything found in a source is what a match stands for. -/
theorem exists_match_of_mem {source : List Char} {f : Found}
    (hf : f ∈ findings Recognizer.all source (.ofText source)) :
    ∃ r ∈ Recognizer.all, ∃ p ∈ r.patterns, ∃ m ∈ p.findAll source,
      (CodeMap.ofText source).isTopLevel m.span.start = true ∧ f ∈ r.read source m := by
  obtain ⟨r, hr, hfind⟩ := List.mem_flatMap.mp hf
  exact ⟨r, hr, mem_find_iff.mp hfind⟩

/-! ### The patterns of declarations and exports -/

theorem names_functionDeclaration : Names functionDeclaration DeclarationLead fun _ => True := by
  refine ⟨[optional (.keep .asyncMark (wordThenBlanks "async")), functionKeyword],
    [blanks, optional typeParameters, parameterList], rfl, by decide,
    fun before w behind h => ?_, fun _ _ _ _ => trivial⟩
  simp only [spells_inOrder_cons] at h
  obtain ⟨a, -, rfl, ha, k, -, rfl, hk, rfl⟩ := h
  have hasync : Maybe (Spaced "async") a := maybe_of_spells spaced_of_spells ha
  have hfunction := functionLead_of_spells hk
  rw [List.append_nil]
  refine ⟨.inl ⟨a, k, rfl, hasync, hfunction⟩, ?_⟩
  rcases hasync with hasync | rfl
  · exact (hasync.beginsWord ⟨'a', rfl, by decide⟩).append k
  · exact hfunction.beginsWord

theorem declarationLead_of_variableKeyword {before : Option Char} {w behind : List Char}
    (h : (inOrder [variableKeyword, blanks1]).Spells before w behind) :
    DeclarationLead w ∧ BeginsWord w := by
  have hlead : BindingLead w := bindingLead_of_spells (by simp) h
  exact ⟨.inr hlead, hlead.beginsWord⟩

theorem names_boundFunction : Names boundFunction DeclarationLead fun _ => True :=
  ⟨[variableKeyword, blanks1], _, rfl, by decide, fun _ _ _ => declarationLead_of_variableKeyword,
    fun _ _ _ _ => trivial⟩

theorem names_boundArrow : Names boundArrow DeclarationLead fun _ => True :=
  ⟨[variableKeyword, blanks1], _, rfl, by decide, fun _ _ _ => declarationLead_of_variableKeyword,
    fun _ _ _ _ => trivial⟩

theorem names_classDeclaration : Names classDeclaration DeclarationLead fun _ => True := by
  refine ⟨[wordThenBlanks "class"], [], rfl, by decide, fun before w behind h => ?_,
    fun _ _ _ _ => trivial⟩
  have hlead : BindingLead w := ⟨"class", by simp, spaced_of_spells h⟩
  exact ⟨.inr hlead, hlead.beginsWord⟩

theorem names_exportedDeclaration : Names exportedDeclaration ExportLead fun _ => True := by
  refine ⟨[wordThenBlanks "export", optional (.keep .defaultMark (wordThenBlanks "default")),
    optional (wordThenBlanks "declare"), optional (wordThenBlanks "abstract"),
    optional (wordThenBlanks "async"),
    alt functionKeyword (seq (Pattern.words "class" ["const", "let", "var"]) blanks1)], [], rfl,
    by decide, fun before w behind h => ?_, fun _ _ _ _ => trivial⟩
  simp only [spells_inOrder_cons] at h
  obtain ⟨e, -, rfl, he, d, -, rfl, hd, c, -, rfl, hc, a, -, rfl, ha, s, -, rfl, hs, k, -, rfl, hk,
    rfl⟩ := h
  have hexport := spaced_of_spells he
  rw [List.append_nil]
  refine ⟨⟨e, d, c, a, s, k, rfl, hexport, maybe_of_spells spaced_of_spells hd,
    maybe_of_spells spaced_of_spells hc, maybe_of_spells spaced_of_spells ha,
    maybe_of_spells spaced_of_spells hs, ?_⟩,
    (hexport.beginsWord ⟨'e', rfl, by decide⟩).append _⟩
  exact hk.imp functionLead_of_spells (bindingLead_of_spells (by simp))

theorem names_exportedName : Names exportedName DefaultLead StatementEnd := by
  refine ⟨[wordThenBlanks "export", wordThenBlanks "default"],
    [many isBlank, alt (char ';') .lineEnd], rfl, by decide, fun before w behind h => ?_,
    fun before w behind h => ?_⟩
  · simp only [spells_inOrder_cons] at h
    obtain ⟨e, -, rfl, he, d, -, rfl, hd, rfl⟩ := h
    have hexport := spaced_of_spells he
    rw [List.append_nil]
    exact ⟨⟨e, d, rfl, hexport, spaced_of_spells hd⟩,
      (hexport.beginsWord ⟨'e', rfl, by decide⟩).append _⟩
  · obtain ⟨b, y, rfl, hb, hy⟩ := h
    rw [List.append_assoc]
    refine ⟨b, y ++ behind, rfl, hb, fun c hc => ?_⟩
    rcases hy with hsemicolon | ⟨rfl, hline⟩
    · -- a semicolon ends the statement
      rw [spells_char.mp hsemicolon] at hc
      exact .inl (Option.some.inj hc).symm
    · -- the line ends it
      cases behind with
      | nil => cases hc
      | cons d behind =>
        obtain rfl := Option.some.inj hc
        exact .inr (beq_iff_eq.mp hline)

/-- **A match of a list is a list of the source.** -/
theorem exists_exportList {source : List Char} {m : Match} (hm : m ∈ exportedList.findAll source)
    (htop : (CodeMap.ofText source).isTopLevel m.span.start = true)
    (htype : m.has .typeMark = false) :
    ∃ l : ExportList source,
      m.span.start = byteLength l.front ∧ m.text .entries source = l.body := by
  obtain ⟨u, v, rfl, hmatch⟩ := mem_findAll hm
  have hstart : m.span.start = byteLength u :=
    (span_start_of_matchAt? hmatch).trans (Cursor.between_offset u v)
  rw [hstart] at htop ⊢
  obtain ⟨t, ht, rfl⟩ := exists_of_matchAt? hmatch
  obtain ⟨r, hfront, hrest⟩ :=
    (@leads_inOrder_append [.boundary, literal "export", blanks] _ _ _).mp ht
  obtain ⟨r', htypes, hbody⟩ := leads_inOrder_cons.mp hrest
  cases htypes with
  | altLeft htypes =>
    -- the mark of a list of types would have been kept
    obtain ⟨kept, hkept, hslots⟩ := hbody.captures
    have hmark : Slot.typeMark ∉ kept.map (·.1) := by
      intro hmem
      obtain ⟨c, hc, hslot⟩ := List.mem_map.mp hmem
      exact absurd (hslots c hc) (by rw [hslot]; decide)
    cases htypes with
    | keep htypes =>
      rw [Match.has, Match.capture?, hkept, find?_slot_append,
        List.find?_cons_of_pos (by simp)] at htype
      · cases htype
      · intro c hc heq
        exact hmark (List.mem_map.mpr ⟨c, hc, heq⟩)
  | altRight hnone =>
    cases hnone
    have hway : Leads (inOrder ([.boundary, literal "export", blanks, char '{']
        ++ .keep .entries (longest (noneOf ['}'])) :: [char '}'])) ⟨Cursor.between u v, []⟩ t :=
      (@leads_inOrder_append [.boundary, literal "export", blanks] _ _ _).mpr ⟨r, hfront, hbody⟩
    obtain ⟨x, n, y, z, rfl, -, htext, hx, ⟨hn, -⟩, hy⟩ := hway.exists_parts (by decide)
    simp only [spells_inOrder_cons] at hx
    obtain ⟨-, -, rfl, ⟨rfl, hboundary⟩, e, -, rfl, he, gap, -, rfl, ⟨hgap, -⟩, brace, -, rfl,
      hbrace, rfl⟩ := hx
    obtain rfl := spells_literal.mp he
    obtain rfl := spells_char.mp hbrace
    obtain rfl := spells_char.mp hy
    refine ⟨⟨u, gap, n, z, by simp, ?_, htop, hgap, fun hmem => ?_⟩, rfl, htext⟩
    · exact apart_of_isBoundary hboundary ⟨'e', rfl, by decide⟩
    · exact absurd (hn _ hmem) (by decide)

/-! ### Outlines -/

/-- Items that are in order stay as they are. -/
theorem sortByOffset_of_pairwise {α : Type} {offset : α → Nat} {xs : List α}
    (h : xs.Pairwise fun x y => offset x ≤ offset y) : sortByOffset offset xs = xs :=
  List.mergeSort_of_pairwise (by simpa using h)

/-- Changing items so that their order stays, after or before sorting. -/
theorem map_sortByOffset_of_le_iff {α β : Type} {offset : α → Nat} {offset' : β → Nat} {f : α → β}
    (h : ∀ a b, offset' (f a) ≤ offset' (f b) ↔ offset a ≤ offset b) (xs : List α) :
    (sortByOffset offset xs).map f = sortByOffset offset' (xs.map f) := by
  refine List.map_mergeSort fun a _ b _ => ?_
  simp only [h]

/-- Sorting by offset, and then something of each item that keeps the offset. -/
theorem map_sortByOffset {α β : Type} {offset : α → Nat} (offset' : β → Nat) (f : α → β)
    (h : ∀ a, offset' (f a) = offset a) (xs : List α) :
    (sortByOffset offset xs).map f = sortByOffset offset' (xs.map f) :=
  map_sortByOffset_of_le_iff (fun a b => by rw [h, h]) xs

/-- Items at strictly ascending places are known by what is among them. -/
theorem eq_of_pairwise_offset {α : Type} {offset : α → Nat} {xs ys : List α}
    (hxs : xs.Pairwise fun x y => offset x < offset y)
    (hys : ys.Pairwise fun x y => offset x < offset y) (hmem : ∀ x, x ∈ xs ↔ x ∈ ys) : xs = ys := by
  have hirrefl : Std.Irrefl fun x y => offset x < offset y := ⟨fun x => Nat.lt_irrefl (offset x)⟩
  have hantisymm : Std.Antisymm fun x y => offset x < offset y :=
    ⟨fun x y hlt hlt' => absurd (Nat.lt_trans hlt hlt') (Nat.lt_irrefl _)⟩
  exact hxs.eq_of_mem_iff hys hmem

section Outline

variable {source : String}

/-- A function of an outline is one of the findings. -/
theorem function_mem_findings {f : FunctionItem} (hf : f ∈ (extract source).functions) :
    .function f ∈ findings Recognizer.all source.toList (.ofText source.toList) := by
  obtain ⟨found, hfound, hfunction⟩ := List.mem_filterMap.mp (List.mem_mergeSort.mp hf)
  cases found with
  | function g =>
    obtain rfl : g = f := Option.some.inj hfunction
    exact hfound
  | classNamed name offset => cases hfunction
  | exporting e => cases hfunction

/-- An export of an outline is one of the findings. -/
theorem exporting_mem_findings {e : ExportItem} (he : e ∈ (extract source).exports) :
    .exporting e ∈ findings Recognizer.all source.toList (.ofText source.toList) := by
  obtain ⟨found, hfound, hexport⟩ := List.mem_filterMap.mp (List.mem_mergeSort.mp he)
  cases found with
  | exporting e' =>
    obtain rfl : e' = e := Option.some.inj hexport
    exact hfound
  | function f => cases hexport
  | classNamed name offset => cases hexport

theorem eq_of_function_mem_read {r : Recognizer} {cs : List Char} {m : Match} {f : FunctionItem}
    (h : Found.function f ∈ r.read cs m) :
    (∀ p ∈ r.patterns, Names p DeclarationLead fun _ => True) ∧ f = Recognizer.functionOf cs m := by
  cases standsFor_of_mem_read h with
  | functionKeyword => exact ⟨by simpa [Recognizer.patterns] using names_functionDeclaration, rfl⟩
  | boundFunction =>
    exact ⟨by simpa [Recognizer.patterns] using ⟨names_boundFunction, names_boundArrow⟩, rfl⟩

theorem name_of_classNamed_mem_read {r : Recognizer} {cs : List Char} {m : Match} {name : String}
    {offset : Nat} (h : Found.classNamed name offset ∈ r.read cs m) :
    r = .classKeyword ∧ name = String.ofList (m.text .name cs) := by
  cases standsFor_of_mem_read h
  exact ⟨rfl, rfl⟩

/-- **Every function is a name behind the keyword of a declaration.** -/
theorem declares_of_function_mem {f : FunctionItem} (hf : f ∈ (extract source).functions) :
    ∃ place, Declares source.toList f.offset place f.name := by
  obtain ⟨r, -, p, hp, m, hm, htop, hread⟩ := exists_match_of_mem (function_mem_findings hf)
  obtain ⟨hnames, rfl⟩ := eq_of_function_mem_read hread
  exact (hnames p hp).introduces hm htop

/-- **Every class is a name behind the keyword of a declaration.** -/
theorem declares_of_class_mem {c : ClassItem} (hc : c ∈ (extract source).classes) :
    ∃ place, Declares source.toList c.offset place c.name := by
  obtain ⟨r, -, p, hp, m, hm, htop, hread⟩ := exists_match_of_mem (classNamed_mem_findings hc).1
  obtain ⟨rfl, hname⟩ := name_of_classNamed_mem_read hread
  obtain rfl := List.mem_singleton.mp hp
  rw [offset_of_classNamed_mem hread, hname]
  exact names_classDeclaration.introduces hm htop

/-- What an entry of a list stands for is where the list is, and is one of the names in the
entry. -/
theorem lists_of_listedExport? {entry : List Char} {offset : Nat} {e : ExportItem}
    (h : listedExport? entry offset = some e) :
    e.offset = offset ∧ ∃ inner outer, Lists entry inner outer
      ∧ e.name = if outer = "default" then inner else outer := by
  have hitem : ∀ inner outer, (listedExport?.item offset inner outer).offset = offset
      ∧ (listedExport?.item offset inner outer).name
        = if outer = "default" then inner else outer := by
    intro inner outer
    rw [listedExport?.item]
    split_ifs <;> exact ⟨rfl, rfl⟩
  rw [listedExport?] at h
  split at h
  · -- no word
    cases h
  · -- a type
    cases h
  · -- a default that is only passed on
    cases h
  · next name _ _ hwords =>
    -- a name alone
    obtain rfl := Option.some.inj h
    obtain ⟨hoffset, hname⟩ := hitem name name
    exact ⟨hoffset, name, name, .inl ⟨hwords, rfl⟩, hname⟩
  · next inner outer _ hwords =>
    -- a name under another one
    obtain rfl := Option.some.inj h
    obtain ⟨hoffset, hname⟩ := hitem inner outer
    exact ⟨hoffset, inner, outer, .inr hwords, hname⟩
  · -- other words
    cases h

/-- **Every export** is the name of a declaration behind `export`, a name behind `export default`,
or stands in a list. -/
theorem export_of_mem {e : ExportItem} (he : e ∈ (extract source).exports) :
    (∃ start place, ExportDeclares source.toList start place e.name)
      ∨ (∃ start place, ExportsDefault source.toList start place e.name)
      ∨ ∃ l : ExportList source.toList, ∃ entry ∈ l.entries, ∃ inner outer,
        Lists entry inner outer ∧ e.name = if outer = "default" then inner else outer := by
  obtain ⟨r, -, p, hp, m, hm, htop, hread⟩ := exists_match_of_mem (exporting_mem_findings he)
  cases standsFor_of_mem_read hread with
  | exportedDeclaration =>
    obtain rfl := List.mem_singleton.mp hp
    exact .inl ⟨_, names_exportedDeclaration.introduces hm htop⟩
  | exportedName =>
    obtain rfl := List.mem_singleton.mp hp
    exact .inr (.inl ⟨_, names_exportedName.introduces hm htop⟩)
  | exportedList htype hentry hlisted =>
    obtain rfl := List.mem_singleton.mp hp
    obtain ⟨l, -, hbody⟩ := exists_exportList hm htop htype
    rw [hbody] at hentry
    exact .inr (.inr ⟨l, _, hentry, (lists_of_listedExport? hlisted).2⟩)

end Outline

end Scaffold

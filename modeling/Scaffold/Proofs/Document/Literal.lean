/-
Scaffold/Proofs/Document/Literal.lean

What the import of a document names its module by.

A document puts the import path between single quotes as it is.  The language
reads what stands between them as a string literal: most characters stand for
themselves, a backslash begins an escape, and neither a quote nor a line break
can stand there alone.  `LiteralBody cs units` is its grammar in strict code, as
that of a module is, with the value in code units of UTF-16.

* `LiteralBody.plain_or_shorter` — a text stands for itself if it has no escape,
  and otherwise for less than is written;
* `LiteralBody.breaks` — a line break in it stands behind a backslash;
* `document_importsFrom_iff` — so the import of a document names the module by
  the import path exactly if no character of the path is a quote, a backslash or
  a line break (`isItself`).

Design.  `ImportsFrom` supposes nothing of a reading but that it begins behind
the line of the framework and follows the grammar: a path with a quote may end
its literal early, and one with a backslash late (`LiteralBody.exists_behind`).
-/
import Mathlib.Data.List.Chain
import Scaffold.Proofs.Document.Groups
import Scaffold.Proofs.Document.Imports
import Scaffold.Proofs.Pattern.Search
import Scaffold.Proofs.Run.Specifier

namespace Scaffold

open Text Pattern

/-! ### Code units -/

/-- The code units of a code point. -/
def utf16 (n : Nat) : List Nat :=
  if n < 0x10000 then [n] else [0xD800 + (n - 0x10000) / 0x400, 0xDC00 + (n - 0x10000) % 0x400]

/-- The code units of a text. -/
def codeUnits (cs : List Char) : List Nat := cs.flatMap fun c => utf16 c.toNat

theorem utf16_ne_nil (n : Nat) : utf16 n ≠ [] := by
  rw [utf16]
  split_ifs
  · exact List.cons_ne_nil _ _
  · exact List.cons_ne_nil _ _

theorem length_utf16_le (n : Nat) : (utf16 n).length ≤ 2 := by
  rw [utf16]
  split_ifs
  · exact Nat.le_succ 1
  · exact Nat.le_refl 2

theorem codeUnits_cons (c : Char) (cs : List Char) :
    codeUnits (c :: cs) = utf16 c.toNat ++ codeUnits cs := rfl

theorem codeUnits_append (cs ds : List Char) :
    codeUnits (cs ++ ds) = codeUnits cs ++ codeUnits ds := List.flatMap_append

/-- A text has no fewer code units than characters. -/
theorem length_le_codeUnits (cs : List Char) : cs.length ≤ (codeUnits cs).length := by
  induction cs with
  | nil => exact Nat.le_refl 0
  | cons c cs ih =>
    have hpos := List.length_pos_iff.mpr (utf16_ne_nil c.toNat)
    rw [codeUnits_cons, List.length_cons, List.length_append]
    omega

/-! ### String literals -/

namespace Literal

/-- The value of a hexadecimal digit. -/
def hexDigit? (c : Char) : Option Nat :=
  if c.isDigit then some (c.toNat - '0'.toNat)
  else if 'a' ≤ c ∧ c ≤ 'f' then some (c.toNat - 'a'.toNat + 10)
  else if 'A' ≤ c ∧ c ≤ 'F' then some (c.toNat - 'A'.toNat + 10)
  else none

/-- Hexadecimal digits. -/
def AreDigits (ds : List Char) : Prop := ∀ d ∈ ds, (hexDigit? d).isSome = true

/-- The number some digits write. -/
def hexValue (ds : List Char) : Nat := ds.foldl (fun n d => 16 * n + (hexDigit? d).getD 0) 0

/-- The characters that mean a single character behind a backslash. -/
def singleEscapes : List (Char × Nat) :=
  [('\'', 0x27), ('"', 0x22), ('\\', 0x5C), ('b', 0x8), ('t', 0x9), ('n', 0xA), ('v', 0xB),
    ('f', 0xC), ('r', 0xD)]

/-- The line breaks that can be left out behind a backslash. -/
def lineBreaks : List (List Char) :=
  [['\n'], ['\r'], ['\r', '\n'], [Char.ofNat 0x2028], [Char.ofNat 0x2029]]

/-- The characters that do not stand for themselves behind a backslash. -/
def escapeChars : List Char :=
  singleEscapes.map Prod.fst ++ "0123456789xu".toList ++ lineBreaks.flatten

/-- What can be written behind a backslash, with its value. -/
inductive Escape : List Char → List Nat → Prop where
  | single {c : Char} {n : Nat} (h : (c, n) ∈ singleEscapes) : Escape [c] [n]
  | nul : Escape ['0'] [0]
  | hex {ds : List Char} (hlength : ds.length = 2) (h : AreDigits ds) :
    Escape ('x' :: ds) [hexValue ds]
  | unit {ds : List Char} (hlength : ds.length = 4) (h : AreDigits ds) :
    Escape ('u' :: ds) [hexValue ds]
  | point {ds : List Char} (hne : ds ≠ []) (h : AreDigits ds) (hmax : hexValue ds ≤ 0x10FFFF) :
    Escape ('u' :: '{' :: (ds ++ ['}'])) (utf16 (hexValue ds))
  | itself {c : Char} (h : c ∉ escapeChars) : Escape [c] (utf16 c.toNat)
  | continuation {cs : List Char} (h : cs ∈ lineBreaks) : Escape cs []

/-- Whether a character stands for itself in a literal. -/
def isItself (c : Char) : Bool := c != '\'' && c != '\\' && c != '\n' && c != '\r'

/-- What can be written between single quotes, with its value. -/
inductive LiteralBody : List Char → List Nat → Prop where
  | nil : LiteralBody [] []
  | plain {c : Char} {cs : List Char} {ns : List Nat} (hc : isItself c = true)
    (h : LiteralBody cs ns) : LiteralBody (c :: cs) (utf16 c.toNat ++ ns)
  /-- Behind the escape `0` there is no digit. -/
  | escape {written cs : List Char} {meant ns : List Nat} (he : Escape written meant)
    (hnul : written = ['0'] → ∀ d ∈ cs.head?, d.isDigit = false) (h : LiteralBody cs ns) :
    LiteralBody ('\\' :: (written ++ cs)) (meant ++ ns)

/-- A text in which every character stands for itself is a literal for itself. -/
theorem LiteralBody.of_itself {cs : List Char} (h : ∀ c ∈ cs, isItself c = true) :
    LiteralBody cs (codeUnits cs) := by
  induction cs with
  | nil => exact .nil
  | cons c cs ih =>
    obtain ⟨hc, hcs⟩ := List.forall_mem_cons.mp h
    exact .plain hc (ih hcs)

/-- Behind a backslash a quote is itself. -/
example : LiteralBody "\\'".toList (codeUnits "'".toList) :=
  .escape (.single (by decide)) (fun h => absurd h (by decide)) .nil

/-! ### Lengths -/

/-- What an escape means is no longer than what stands behind its backslash. -/
theorem Escape.length_le {written : List Char} {meant : List Nat} (h : Escape written meant) :
    meant.length ≤ (codeUnits written).length := by
  cases h with
  | single => exact length_le_codeUnits [_]
  | nul => exact length_le_codeUnits ['0']
  | @hex ds _ _ => exact le_trans (Nat.le_add_left 1 ds.length) (length_le_codeUnits ('x' :: ds))
  | @unit ds _ _ => exact le_trans (Nat.le_add_left 1 ds.length) (length_le_codeUnits ('u' :: ds))
  | point =>
    apply (length_utf16_le _).trans
    apply le_trans _ (length_le_codeUnits _)
    simp only [List.length_cons]
    omega
  | itself => rw [codeUnits_cons, List.length_append]; exact Nat.le_add_right _ _
  | continuation => exact Nat.zero_le _

/-- **A literal stands for itself, or for less than is written.** -/
theorem LiteralBody.plain_or_shorter {cs : List Char} {ns : List Nat} (h : LiteralBody cs ns) :
    (∀ c ∈ cs, isItself c = true) ∧ ns = codeUnits cs ∨ ns.length < (codeUnits cs).length := by
  induction h with
  | nil => exact .inl ⟨nofun, rfl⟩
  | plain hc _ ih =>
    rcases ih with ⟨hcs, rfl⟩ | ih
    · exact .inl ⟨List.forall_mem_cons.mpr ⟨hc, hcs⟩, rfl⟩
    · right
      rw [codeUnits_cons, List.length_append, List.length_append]
      omega
  | escape he _ _ ih =>
    right
    have hmeant := he.length_le
    have hrest := ih.elim (fun h => (congrArg List.length h.2).le) le_of_lt
    have hslash := List.length_pos_iff.mpr (utf16_ne_nil '\\'.toNat)
    rw [codeUnits_cons, codeUnits_append, List.length_append, List.length_append,
      List.length_append]
    omega

/-! ### Line breaks -/

/-- A line feed stands behind a backslash, or behind a return. -/
def Breaks (a b : Char) : Prop := b = '\n' → a = '\\' ∨ a = '\r'

theorem breaks_of_ne {a b : Char} (h : b ≠ '\n') : Breaks a b := fun hb => absurd hb h

/-- Without a line feed nothing is to be shown. -/
theorem isChain_breaks {c : Char} {cs : List Char} (h : '\n' ∉ cs) :
    List.IsChain Breaks (c :: cs) := by
  induction cs generalizing c with
  | nil => exact .singleton c
  | cons d cs ih =>
    rw [List.mem_cons, not_or] at h
    exact .cons_cons (breaks_of_ne (Ne.symm h.1)) (ih h.2)

theorem not_mem_of_areDigits {ds : List Char} (h : AreDigits ds) : '\n' ∉ ds :=
  fun hmem => absurd (h _ hmem) (by decide)

theorem Escape.breaks {written : List Char} {meant : List Nat} (h : Escape written meant) :
    List.IsChain Breaks ('\\' :: written) := by
  cases h with
  | single h =>
    apply isChain_breaks
    rw [List.mem_singleton]
    rintro rfl
    have hnone : ∀ p ∈ singleEscapes, p.1 ≠ '\n' := List.all_iff_forall_prop.mp (by decide)
    exact hnone _ h rfl
  | nul => exact isChain_breaks (by decide)
  | hex _ h => exact isChain_breaks (List.not_mem_cons_of_ne_of_not_mem (by decide)
      (not_mem_of_areDigits h))
  | unit _ h => exact isChain_breaks (List.not_mem_cons_of_ne_of_not_mem (by decide)
      (not_mem_of_areDigits h))
  | point _ h _ =>
    apply isChain_breaks
    simp [not_mem_of_areDigits h]
  | itself h =>
    apply isChain_breaks
    rw [List.mem_singleton]
    rintro rfl
    exact h (by decide)
  | continuation h =>
    simp only [lineBreaks, List.mem_cons, List.not_mem_nil, or_false] at h
    rcases h with rfl | rfl | rfl | rfl | rfl
    · exact .cons_cons (fun _ => .inl rfl) (.singleton _)
    · exact isChain_breaks (by decide)
    · exact .cons_cons (breaks_of_ne (by decide)) (.cons_cons (fun _ => .inr rfl) (.singleton _))
    · exact isChain_breaks (by decide)
    · exact isChain_breaks (by decide)

/-- **A line feed in a literal stands behind a backslash, or behind a return.** -/
theorem LiteralBody.breaks {cs : List Char} {ns : List Nat} (h : LiteralBody cs ns) :
    cs.head? ≠ some '\n' ∧ cs.IsChain Breaks := by
  have hjoin : ∀ {front back : List Char}, front.IsChain Breaks → back.head? ≠ some '\n' →
      back.IsChain Breaks → (front ++ back).IsChain Breaks := by
    intro front back hfront hhead hback
    refine List.isChain_append.mpr ⟨hfront, hback, fun a _ b hb => breaks_of_ne ?_⟩
    rintro rfl
    exact hhead hb
  induction h with
  | nil => exact ⟨nofun, .nil⟩
  | @plain c cs ns hc _ ih =>
    refine ⟨?_, hjoin (.singleton c) ih.1 ih.2⟩
    intro hhead
    obtain rfl : c = '\n' := Option.some.inj hhead
    cases hc
  | @escape written cs meant ns he _ _ ih => exact ⟨nofun, hjoin he.breaks ih.1 ih.2⟩

/-! ### Ends -/

/-- Where a quote, a semicolon and a line feed stand behind a text, a literal ends with the text or
before it. -/
theorem LiteralBody.exists_behind {cs body rest rest' : List Char} {ns : List Nat}
    (h : LiteralBody body ns)
    (heq : cs ++ '\'' :: ';' :: '\n' :: rest = body ++ '\'' :: ';' :: rest') :
    ∃ behind, cs = body ++ behind := by
  rcases List.append_eq_append_iff.mp heq with ⟨ext, hbody, hext⟩ | ⟨behind, hcs, -⟩
  · -- a longer one goes on behind the quote, the semicolon and the line feed
    rcases ext with - | ⟨a, - | ⟨b, - | ⟨c, ext⟩⟩⟩
    · exact ⟨[], by rw [hbody, List.append_nil, List.append_nil]⟩
    · cases (List.cons.inj (List.cons.inj hext).2).1
    · cases (List.cons.inj (List.cons.inj (List.cons.inj hext).2).2).1
    · obtain ⟨-, hsemicolon⟩ := List.cons.inj hext
      obtain ⟨rfl, hfeed⟩ := List.cons.inj hsemicolon
      obtain ⟨rfl, -⟩ := List.cons.inj hfeed
      have hchain := h.breaks.2
      rw [hbody, List.isChain_append] at hchain
      obtain hbreak : Breaks ';' '\n' := hchain.2.1.tail.rel
      exact absurd (hbreak rfl) (by decide)
  · exact ⟨behind, hcs⟩

/-- A literal that means what it begins is all of it, and means itself. -/
theorem LiteralBody.itself_of_codeUnits {body behind : List Char}
    (h : LiteralBody body (codeUnits (body ++ behind))) :
    ∀ c ∈ body ++ behind, isItself c = true := by
  have hbehind := length_le_codeUnits behind
  rcases h.plain_or_shorter with ⟨hbody, hunits⟩ | hshort
  · have hlength := congrArg List.length hunits
    rw [codeUnits_append, List.length_append] at hlength
    have hnil : behind = [] := List.eq_nil_of_length_eq_zero (by omega)
    rwa [hnil, List.append_nil]
  · rw [codeUnits_append, List.length_append] at hshort
    omega

end Literal

/-! ### Import clauses -/

theorem isIdentifier_moduleBinding (unitName : String) :
    isIdentifier (moduleBinding unitName) = true := by
  obtain ⟨c, cs, hname, hdigit, hchars⟩ := moduleBinding_eq unitName
  obtain ⟨hc, hcs⟩ := List.forall_mem_cons.mp hchars
  have hstart : isIdentifierStart c = true := by
    rwa [isBindingChar, Char.isAlphanum, hdigit, Bool.or_false] at hc
  have hpart : ∀ d ∈ cs, isIdentifierPart d = true := by
    intro d hd
    have hd := hcs d hd
    rw [isBindingChar, Bool.or_eq_true, Bool.or_eq_true, beq_iff_eq, beq_iff_eq] at hd
    rcases hd with (hd | rfl) | rfl
    · exact isIdentifierPart_of_isAlphanum hd
    · decide
    · decide
  rw [isIdentifier, hname, String.toList_ofList]
  show (isIdentifierStart c && cs.all isIdentifierPart) = true
  rw [hstart, Bool.true_and, List.all_eq_true]
  exact hpart

/-- What is written in a list of names is the separator's or a name's. -/
theorem mem_intercalate {separator : String} {names : List String} {c : Char}
    (h : c ∈ (separator.intercalate names).toList) :
    c ∈ separator.toList ∨ ∃ name ∈ names, c ∈ name.toList := by
  rw [String.toList_intercalate] at h
  induction names with
  | nil => cases h
  | cons name names ih =>
    rcases names with - | ⟨name', names⟩
    · -- the only name
      rw [List.map_cons, List.map_nil, List.intercalate_singleton] at h
      exact .inr ⟨name, List.mem_cons_self, h⟩
    · rw [List.map_cons, List.map_cons, List.intercalate_cons_cons, List.mem_append,
        List.mem_append] at h
      rcases h with (h | h) | h
      · -- in the first name
        exact .inr ⟨name, List.mem_cons_self, h⟩
      · -- in the separator behind it
        exact .inl h
      · -- further on
        refine (ih h).imp_right ?_
        rintro ⟨other, hother, h⟩
        exact ⟨other, List.mem_cons_of_mem _ hother, h⟩

/-- A character parts a text in one way into what is before its first occurrence and what is
behind. -/
theorem append_cons_inj {c : Char} {a b a' b' : List Char} (h : c ∉ a) (h' : c ∉ a')
    (heq : a ++ c :: b = a' ++ c :: b') : a = a' ∧ b = b' := by
  induction a generalizing a' with
  | nil =>
    cases a' with
    | nil => exact ⟨rfl, (List.cons.inj heq).2⟩
    | cons d a' =>
      rw [← (List.cons.inj heq).1] at h'
      exact absurd List.mem_cons_self h'
  | cons d a ih =>
    cases a' with
    | nil =>
      rw [(List.cons.inj heq).1] at h
      exact absurd List.mem_cons_self h
    | cons d' a' =>
      obtain ⟨rfl, hrest⟩ := List.cons.inj heq
      obtain ⟨rfl, rfl⟩ := ih (mt (List.mem_cons_of_mem d) h) (mt (List.mem_cons_of_mem d) h') hrest
      exact ⟨rfl, rfl⟩

namespace ImportClause

/-- The names of a clause are identifiers. -/
def NamedByIdentifiers (c : ImportClause) : Prop := ∀ name ∈ c.bound, isIdentifier name = true

/-- No quote is in a clause. -/
theorem quote_not_mem_written {c : ImportClause} (h : c.NamedByIdentifiers) :
    '\'' ∉ c.written.toList := by
  have hname : ∀ name ∈ c.bound, '\'' ∉ name.toList := fun name hname hquote =>
    not_mem_markedChars (h name hname) _ hquote (by decide)
  have hbraced : '\'' ∉ c.braced.toList := by
    have hnames : '\'' ∉ (", ".intercalate c.named).toList := by
      intro hquote
      rcases mem_intercalate hquote with hquote | ⟨name, hnamed, hquote⟩
      · exact absurd hquote (by decide)
      · exact hname name (mem_bound.mpr (.inr hnamed)) hquote
    rw [braced, String.toList_append, String.toList_append]
    simp only [List.mem_append, not_or]
    exact ⟨⟨by decide, hnames⟩, by decide⟩
  rw [written]
  rcases hdefault : c.default? with - | name <;> rcases c.named with - | ⟨n, ns⟩
  · exact hbraced
  · exact hbraced
  · exact hname name (mem_bound.mpr (.inl hdefault))
  · have := hname name (mem_bound.mpr (.inl hdefault))
    simp [this, hbraced]

end ImportClause

/-- The import statement of an outline has a clause, whether something is exported or not. -/
theorem Outline.exists_importClause {o : Outline} (h : o.NamedByIdentifiers) (unitName : String) :
    ∃ c : ImportClause, c.NamedByIdentifiers
      ∧ ∀ importPath, o.importStatement importPath unitName = c.statement importPath := by
  by_cases hexports : o.exports = []
  · refine ⟨⟨some (moduleBinding unitName), []⟩, ?_, fun importPath => ?_⟩
    · intro name hname
      rw [List.mem_singleton.mp hname]
      exact isIdentifier_moduleBinding unitName
    · rw [importStatement, defaults, namedExports, hexports]
      rfl
  · refine ⟨o.importClause, fun name hname => ?_, fun importPath =>
      importStatement_eq hexports importPath unitName⟩
    rcases ImportClause.mem_bound.mp hname with hname | hname
    · exact h.default hname
    · exact h.namedExports name hname

/-! ### The import of a document -/

/-- Behind the line that brings in a framework, a document imports from a module: the literal that
names it ends the statement. -/
def ImportsFrom (framework : Framework) (text : List Char) (module : List Nat) : Prop :=
  ∃ (c : ImportClause) (body rest : List Char),
    text = writtenLines (framework.importLine Framework.globals).toList
        ++ (("import " ++ c.written ++ " from ").toList ++ '\'' :: (body ++ '\'' :: ';' :: rest))
      ∧ c.NamedByIdentifiers ∧ Literal.LiteralBody body module

section Document

variable {framework : Framework} {o : Outline} {importPath unitName : String}

theorem quote_not_mem_statement {c : ImportClause} (hc : c.NamedByIdentifiers) :
    '\'' ∉ ("import " ++ c.written ++ " from ").toList := by
  rw [String.toList_append, String.toList_append]
  simp only [List.mem_append, not_or]
  exact ⟨⟨by decide, ImportClause.quote_not_mem_written hc⟩, by decide⟩

/-- The import path stands in a document between quotes, behind a clause and in front of the end of
the line. -/
theorem exists_document_eq (framework : Framework) (h : o.NamedByIdentifiers)
    (importPath unitName : String) :
    ∃ (c : ImportClause) (groups : List Char), c.NamedByIdentifiers
      ∧ (document framework o importPath unitName).toList
        = writtenLines (framework.importLine Framework.globals).toList
          ++ (("import " ++ c.written ++ " from ").toList
            ++ '\'' :: (importPath.toList ++ '\'' :: ';' :: '\n' :: groups)) := by
  obtain ⟨c, hc, hstatement⟩ := o.exists_importClause h unitName
  refine ⟨c, writtenLines (groupsOf framework o.targets), hc, ?_⟩
  rw [document_eq, documentLines_eq, headLines, writtenLines_append, writtenLines_append,
    writtenLines_cons, hstatement, ImportClause.statement]
  simp only [String.toList_append, List.append_assoc]
  rfl

/-- A path all of whose characters stand for themselves comes through its quotes. -/
theorem importsFrom_of_itself (h : o.NamedByIdentifiers)
    (hpath : ∀ c ∈ importPath.toList, Literal.isItself c = true) :
    ImportsFrom framework (document framework o importPath unitName).toList
      (codeUnits importPath.toList) := by
  obtain ⟨c, groups, hc, htext⟩ := exists_document_eq framework h importPath unitName
  exact ⟨c, importPath.toList, '\n' :: groups, htext, hc, .of_itself hpath⟩

/-- A path that comes through its quotes has no other characters, however the text is read. -/
theorem itself_of_importsFrom (h : o.NamedByIdentifiers)
    (himport : ImportsFrom framework (document framework o importPath unitName).toList
      (codeUnits importPath.toList)) :
    ∀ c ∈ importPath.toList, Literal.isItself c = true := by
  obtain ⟨c, groups, hc, htext⟩ := exists_document_eq framework h importPath unitName
  obtain ⟨c', body, rest, hread, hc', hbody⟩ := himport
  rw [htext] at hread
  -- both clauses end at the first quote
  obtain ⟨-, hquoted⟩ := append_cons_inj (quote_not_mem_statement hc) (quote_not_mem_statement hc')
    (List.append_cancel_left hread)
  obtain ⟨behind, hpath⟩ := hbody.exists_behind hquoted
  rw [hpath] at hbody ⊢
  exact hbody.itself_of_codeUnits

end Document

/-- **The import path comes through its quotes** exactly if every character of it stands for
itself there: it has no quote, no backslash and no line break.  Otherwise there is no reading of the
document in which its first import from a module names the module by that path. -/
theorem document_importsFrom_iff (framework : Framework) {o : Outline} (h : o.NamedByIdentifiers)
    (importPath unitName : String) :
    ImportsFrom framework (document framework o importPath unitName).toList
        (codeUnits importPath.toList)
      ↔ ∀ c ∈ importPath.toList, Literal.isItself c = true :=
  ⟨itself_of_importsFrom h, importsFrom_of_itself h⟩

/-- A path with blanks, and with letters beyond the first plane. -/
theorem document_importsFrom_storeOutline :
    storeOutline.NamedByIdentifiers
      ∧ ImportsFrom .vitest (document .vitest storeOutline "../src/my \"𝒮tore\"" "store").toList
        (codeUnits "../src/my \"𝒮tore\"".toList) := by
  have h : storeOutline.NamedByIdentifiers := by decide +kernel
  refine ⟨h, (document_importsFrom_iff .vitest h _ _).mpr ?_⟩
  exact List.all_iff_forall_prop.mp (by decide)

/-- A tree with a source whose name has a quote in it. -/
def quotedSource : FileTree :=
  ⟨[(["src".toList], .directory), (["src".toList, "it's.js".toList], .file ⟨#[]⟩)], by decide⟩

theorem wellFormed_quotedSource : quotedSource.WellFormed := by
  apply FileTree.wellFormed_of_entries
  intro x hx
  simp only [quotedSource, List.mem_cons, List.not_mem_nil, or_false] at hx
  rcases hx with rfl | rfl
  all_goals exact ⟨by decide, rfl⟩

theorem plan_quotedSource :
    plan quotedSource linkedTreeSettings = .ok [.ofString "/src/it's.js"] :=
  @plan_of_found _ _ ["src".toList] _ rfl (by decide +kernel) (by decide +kernel)

/-- Not every import path comes through its quotes: that of a file with a quote in its name does
not. -/
theorem not_document_importsFrom :
    ¬ ∀ (t : FileTree) (r : Resolved) (units : List Path) (source : Path) (framework : Framework)
      (o : Outline) (unitName : String), t.WellFormed → plan t r = .ok units → source ∈ units →
      o.NamedByIdentifiers →
      ImportsFrom framework (document framework o (specifierOf r source) unitName).toList
        (codeUnits (specifierOf r source).toList) := by
  intro h
  have hnames : storeOutline.NamedByIdentifiers := by decide +kernel
  have hway : specifierOf linkedTreeSettings (.ofString "/src/it's.js") = "../src/it's" := by
    decide +kernel
  have himport := h quotedSource linkedTreeSettings _ (.ofString "/src/it's.js") .jest storeOutline
    "it's" wellFormed_quotedSource plan_quotedSource List.mem_cons_self hnames
  rw [hway] at himport
  have hquote := itself_of_importsFrom hnames himport '\'' (by decide)
  exact absurd hquote (by decide)

end Scaffold

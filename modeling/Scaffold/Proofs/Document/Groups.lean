/-
Scaffold/Proofs/Document/Groups.lean

A document scans as it is meant.

Where all names are identifiers and the path of the import can stand in plain
quotes, every part of a document is a fragment of lines, from the arguments of
a call up to the whole (`fragment_documentLines`).  So the map of the document
finds each brace paired, and each target's group outside all braces, in the
order of the targets.  The block of a group has the groups of its methods
directly inside, and no others (`groupOf_enclosed`).

`WellFormed` says all of this about a text; `wellFormed_document` is the
theorem.
-/
import Mathlib.Data.Bool.AllAny
import Scaffold.Proofs.Document.Lines
import Scaffold.Proofs.Document.Targets
import Scaffold.Proofs.Text.Pieces
import Scaffold.Recognizer

namespace Scaffold

open Text Scan Pattern

/-! ### Names -/

/-- Whether a name is an identifier. -/
def isIdentifier (name : String) : Bool :=
  match name.toList with
  | [] => false
  | c :: cs => isIdentifierStart c && cs.all isIdentifierPart

/-- All names of an outline are identifiers. -/
structure Outline.NamedByIdentifiers (o : Outline) : Prop where
  functions : ∀ f ∈ o.functions, isIdentifier f.name = true
  classes : ∀ c ∈ o.classes, isIdentifier c.name = true
  methods : ∀ c ∈ o.classes, ∀ m ∈ c.methods, isIdentifier m.name = true
  exports : ∀ e ∈ o.exports, isIdentifier e.name = true

instance (o : Outline) : Decidable o.NamedByIdentifiers :=
  decidable_of_iff (_ ∧ _ ∧ _ ∧ _)
    ⟨fun ⟨h₁, h₂, h₃, h₄⟩ => ⟨h₁, h₂, h₃, h₄⟩,
      fun h => ⟨h.functions, h.classes, h.methods, h.exports⟩⟩

/-- The characters that are more than themselves to a scan. -/
def markedChars : List Char := ['/', '\'', '"', '`', '{', '}', '\\', '\n']

/-- No character of an identifier means anything to a scan. -/
theorem not_mem_markedChars {name : String} (h : isIdentifier name = true) :
    ∀ c ∈ name.toList, c ∉ markedChars := by
  have hstart : ∀ d ∈ markedChars, isIdentifierStart d = false :=
    List.all_iff_forall_prop.mp (by decide +kernel)
  have hpart : ∀ d ∈ markedChars, isIdentifierPart d = false :=
    List.all_iff_forall_prop.mp (by decide +kernel)
  rw [isIdentifier] at h
  rcases hname : name.toList with - | ⟨c, cs⟩ <;> rw [hname] at h
  · cases h
  · obtain ⟨hc, hcs⟩ := Bool.and_eq_true_iff.mp h
    rw [List.all_eq_true] at hcs
    intro d hd hmarked
    rcases List.mem_cons.mp hd with rfl | hd
    · rw [hstart _ hmarked] at hc
      cases hc
    · have hd := hcs d hd
      rw [hpart _ hmarked] at hd
      cases hd

theorem plain_of_not_mem_markedChars {c : Char} (h : c ∉ markedChars) :
    isPlain c = true ∧ c ≠ '\n' := by
  simp only [markedChars, List.mem_cons, List.not_mem_nil, or_false, not_or] at h
  simp [isPlain, h]

theorem flatPiece_name {name : String} (h : isIdentifier name = true) : FlatPiece name :=
  .of_plain fun c hc => plain_of_not_mem_markedChars (not_mem_markedChars h c hc)

theorem quotable_name {name : String} (h : isIdentifier name = true) :
    ∀ c ∈ name.toList, c ≠ '\'' ∧ c ≠ '\\' ∧ c ≠ '\n' := by
  intro c hc
  have hmarked := not_mem_markedChars h c hc
  simp only [markedChars, List.mem_cons, List.not_mem_nil, or_false, not_or] at hmarked
  exact ⟨hmarked.2.1, hmarked.2.2.2.2.2.2⟩

/-! ### Calls -/

/-- What is passed for a parameter is a piece, whatever the parameter. -/
theorem piece_placeholder (raw : String) : Piece (placeholder raw) := by
  have hempty : Piece "\x7b\x7d" := (@FlatPiece.of_all "" (by decide)).piece.braced
  have hrules : ∀ rule ∈ placeholderRules, Piece rule.2 := by
    intro rule hrule
    simp only [placeholderRules, List.mem_cons, List.not_mem_nil, or_false] at hrule
    rcases hrule with rfl | rfl | rfl | rfl | rfl
    · exact (@FlatPiece.of_all "() => " (by decide)).piece.append hempty
    · exact (FlatPiece.of_all (by decide)).piece
    · exact (@FlatPiece.quoted_of_all "test" (by decide)).piece
    · exact hempty
    · exact hempty
  rw [placeholder]
  split
  next rule expression hfind => exact hrules _ (List.mem_of_find?_eq_some hfind)
  next => exact (FlatPiece.of_all (by decide)).piece

theorem piece_argumentList (parameters : List String) : Piece (argumentList parameters) := by
  apply Piece.intercalate (FlatPiece.of_all (by decide)).piece
  intro s hs
  obtain ⟨raw, -, rfl⟩ := List.mem_map.mp hs
  exact piece_placeholder raw

/-- A call is a piece. -/
theorem piece_call {called : String} (h : Piece called) (parameters : List String) :
    Piece (called ++ "(" ++ argumentList parameters ++ ")") :=
  ((h.append (FlatPiece.of_all (by decide)).piece).append (piece_argumentList parameters)).append
    (FlatPiece.of_all (by decide)).piece

/-! ### Statements -/

/-- A piece that can be a line of its own, and opens no group. -/
structure Statement (text : String) : Prop where
  piece : Piece text
  word : ∀ c ∈ text.toList.head?, c ≠ ' ' ∧ c ≠ 'd'

/-- Whether a text begins with a word that opens no group. -/
def beginsOtherwise (s : String) : Bool := s.toList.head?.any (fun c => c != ' ' && c != 'd')

theorem beginsOtherwise_append {s : String} (h : beginsOtherwise s = true) (t : String) :
    beginsOtherwise (s ++ t) = true := by
  rw [beginsOtherwise] at h ⊢
  rw [String.toList_append, List.head?_append]
  rcases hs : s.toList.head? with - | c
  · rw [hs] at h
    cases h
  · rw [hs] at h
    exact h

theorem word_of_beginsOtherwise {s : String} (h : beginsOtherwise s = true) :
    ∀ c ∈ s.toList.head?, c ≠ ' ' ∧ c ≠ 'd' := by
  intro c hc
  rw [beginsOtherwise, Option.mem_def.mp hc] at h
  simpa using h

/-- A piece that begins with a fixed word. -/
theorem Statement.of_word {first rest : String} (h : Piece (first ++ rest))
    (hfirst : beginsOtherwise first = true) : Statement (first ++ rest) :=
  ⟨h, word_of_beginsOtherwise (beginsOtherwise_append hfirst rest)⟩

theorem Fragment.statement {level : Nat} {text : String} (h : Statement text) (n : Nat) :
    Fragment level [line n text] [] := .piece h.piece h.word n

theorem Fragment.statements {level n : Nat} {texts : List String} (h : ∀ t ∈ texts, Statement t) :
    Fragment level (texts.map (line n)) [] := by
  induction texts with
  | nil => exact .nil level
  | cons t texts ih =>
    obtain ⟨ht, htexts⟩ := List.forall_mem_cons.mp h
    exact (Fragment.statement ht n).append (ih htexts)

/-- An empty line. -/
theorem Fragment.blank (level : Nat) : Fragment level [""] [] := by
  have h : Statement "" := ⟨(FlatPiece.of_all (by decide)).piece, by simp⟩
  exact Fragment.statement h 0

theorem statement_construction {name : String} (h : isIdentifier name = true) :
    Statement (construction name) := by
  have hflat : FlatPiece (construction name) :=
    ((FlatPiece.of_all (by decide)).append (flatPiece_name h)).append (.of_all (by decide))
  exact .of_word hflat.piece (beginsOtherwise_append (by decide) _)

theorem statement_definedAssertion (framework : Framework) :
    Statement (framework.definedAssertion "result") := by
  cases framework <;>
    exact ⟨(FlatPiece.of_all (by decide)).piece, word_of_beginsOtherwise (by decide)⟩

theorem statement_instanceAssertion (framework : Framework) {name : String}
    (h : isIdentifier name = true) : Statement (framework.instanceAssertion "instance" name) := by
  cases framework <;>
    exact .of_word (((FlatPiece.of_all (by decide)).append (flatPiece_name h)).append
      (.of_all (by decide))).piece (beginsOtherwise_append (by decide) _)

/-! ### Cases -/

/-- What the case that calls something begins with, up to its brace. -/
def callHead (isAsync : Bool) : String :=
  "it(" ++ ("'" ++ "should work correctly" ++ "'") ++ ", "
    ++ (if isAsync then "async () =>" else "() =>") ++ " "

theorem flatPiece_callHead (isAsync : Bool) : FlatPiece (callHead isAsync) := by
  have hopening : FlatPiece ("it(" ++ ("'" ++ "should work correctly" ++ "'") ++ ", ") :=
    ((FlatPiece.of_all (by decide)).append (.quoted_of_all (by decide))).append
      (.of_all (by decide))
  have harrow : FlatPiece (if isAsync then "async () =>" else "() =>") := by
    cases isAsync <;> exact .of_all (by decide)
  exact (hopening.append harrow).append (.of_all (by decide))

/-- The statement that keeps the result of a call. -/
def resultStatement (isAsync : Bool) (call : String) : String :=
  "const result = " ++ (if isAsync then "await " else "") ++ call ++ ";"

theorem statement_result (isAsync : Bool) {call : String} (hcall : Piece call) :
    Statement (resultStatement isAsync call) := by
  have hawaiting : FlatPiece (if isAsync then "await " else "") := by
    cases isAsync <;> exact .of_all (by decide)
  refine .of_word ?_ (beginsOtherwise_append (beginsOtherwise_append (by decide) _) _)
  exact (((FlatPiece.of_all (by decide)).append hawaiting).piece.append hcall).append
    (FlatPiece.of_all (by decide)).piece

/-- The case that calls something is a brace and its partner around statements. -/
theorem callCase_eq (framework : Framework) (level : Nat) (isAsync : Bool) (setup : List String)
    (call : String) :
    callCase framework level isAsync setup call
      = [line level (callHead isAsync ++ "\x7b")]
        ++ (setup ++ [resultStatement isAsync call, framework.definedAssertion "result"]).map
          (line (level + 1))
        ++ [closing level] := by
  have hopening : callHead isAsync ++ "\x7b"
      = "it('should work correctly', " ++ (if isAsync then "async () =>" else "() =>")
        ++ " \x7b" := by
    apply String.toList_inj.mp
    simp [callHead]
  rw [callCase, hopening, List.map_append, List.append_assoc, List.append_assoc, List.append_assoc]
  rfl

/-- The case that calls something is a fragment. -/
theorem fragment_callCase (framework : Framework) (level : Nat) (isAsync : Bool)
    {setup : List String} (hsetup : ∀ s ∈ setup, Statement s) {call : String} (hcall : Piece call) :
    Fragment level (callCase framework level isAsync setup call) [] := by
  have hstatements : ∀ s ∈ setup ++ [resultStatement isAsync call,
      framework.definedAssertion "result"], Statement s := by
    intro s hs
    simp only [List.mem_append, List.mem_cons, List.not_mem_nil, or_false] at hs
    rcases hs with hs | rfl | rfl
    · exact hsetup s hs
    · exact statement_result isAsync hcall
    · exact statement_definedAssertion framework
  have hword : beginsOtherwise (callHead isAsync ++ "\x7b") = true := by
    rw [callHead]
    repeat' apply beginsOtherwise_append
    decide
  rw [callCase_eq]
  exact Fragment.case (flatPiece_callHead isAsync).piece (word_of_beginsOtherwise hword)
    (.statements hstatements)

/-- A case left to the author is a fragment. -/
theorem fragment_openCase {level : Nat} {todo case : String} (htodo : '\n' ∉ todo.toList)
    (hcase : '\n' ∉ case.toList) : Fragment level (openCase todo case) [] := by
  have hlines : openCase todo case
      = [line 1 ("//" ++ (" TODO: " ++ todo))]
        ++ ([line 1 ("//" ++ (" it('" ++ case ++ "', () => \x7b"))]
          ++ [line 1 ("//" ++ " \x7d);")]) := by
    have h₁ : "// TODO: " ++ todo = "//" ++ (" TODO: " ++ todo) := by
      apply String.toList_inj.mp
      simp
    have h₂ : "// it('" ++ case ++ "', () => \x7b"
        = "//" ++ (" it('" ++ case ++ "', () => \x7b") := by
      apply String.toList_inj.mp
      simp
    rw [openCase, h₁, h₂]
    rfl
  rw [hlines]
  refine (Fragment.comment ?_ 1).append ((Fragment.comment ?_ 1).append (.comment ?_ 1))
  · simpa using htodo
  · simpa using hcase
  · decide

/-! ### Groups -/

/-- The names of the groups inside the group of a target. -/
def Target.memberNames : Target → List String
  | .function _ => []
  | .classItem c => c.methods.map (·.name)

/-- A target whose names are identifiers. -/
structure Target.NamedByIdentifiers (t : Target) : Prop where
  name : isIdentifier t.name = true
  members : ∀ name ∈ t.memberNames, isIdentifier name = true

/-- The lines of a target's group between its first and its last. -/
def targetInside (framework : Framework) : Target → List String
  | .function f =>
    callCase framework 1 f.isAsync [] (f.name ++ "(" ++ argumentList f.parameters ++ ")")
      ++ [""] ++ openCase "add edge case tests" "should handle edge cases"
      ++ [""] ++ openCase "add error case tests" "should handle invalid input"
  | .classItem c =>
    [line 1 "it('should create an instance', () => \x7b"]
      ++ [construction c.name, framework.instanceAssertion "instance" c.name].map (line 2)
      ++ [closing 1] ++ c.methods.flatMap (fun m => "" :: methodGroup framework c.name m)

theorem targetGroup_eq (framework : Framework) (t : Target) :
    targetGroup framework t
      = [groupOpening 0 t.name] ++ targetInside framework t ++ [closing 0] := by
  cases t with
  | function f => simp [targetGroup, functionGroup, targetInside, Target.name]
  | classItem c => simp [targetGroup, classGroup, targetInside, Target.name]

/-- The group of a method is a fragment that opens that one group. -/
theorem fragment_methodGroup (framework : Framework) {className : String} {m : MethodItem}
    (hclass : isIdentifier className = true) (hname : isIdentifier m.name = true) :
    Fragment 1 (methodGroup framework className m) [(1, m.name)] := by
  have hcall : Piece ("instance." ++ m.name ++ "(" ++ argumentList m.parameters ++ ")") :=
    piece_call ((FlatPiece.of_all (by decide)).append (flatPiece_name hname)).piece m.parameters
  have hsetup : ∀ s ∈ [construction className], Statement s := by
    intro s hs
    rw [List.mem_singleton.mp hs]
    exact statement_construction hclass
  exact .group (quotable_name hname) (fragment_callCase framework 2 m.isAsync hsetup hcall)

/-- The inside of a target's group opens the groups of its members. -/
theorem fragment_targetInside (framework : Framework) {t : Target} (h : t.NamedByIdentifiers) :
    Fragment 1 (targetInside framework t) (t.memberNames.map (fun name => (1, name))) := by
  cases t with
  | function f =>
    have hcall := piece_call (flatPiece_name h.name).piece f.parameters
    have hfirst := fragment_callCase framework 1 f.isAsync (by simp : ∀ s ∈ [], Statement s) hcall
    have hedge := @fragment_openCase 1 "add edge case tests" "should handle edge cases"
      (by decide) (by decide)
    have herror := @fragment_openCase 1 "add error case tests" "should handle invalid input"
      (by decide) (by decide)
    exact (((hfirst.append (.blank 1)).append hedge).append (.blank 1)).append herror
  | classItem c =>
    -- the case that makes an instance, and then a group for each method
    have hhead : FlatPiece ("it(" ++ ("'" ++ "should create an instance" ++ "'") ++ ", () => ") :=
      ((FlatPiece.of_all (by decide)).append (.quoted_of_all (by decide))).append
        (.of_all (by decide))
    have hstatements : ∀ s ∈ [construction c.name, framework.instanceAssertion "instance" c.name],
        Statement s := by
      intro s hs
      simp only [List.mem_cons, List.not_mem_nil, or_false] at hs
      rcases hs with rfl | rfl
      · exact statement_construction h.name
      · exact statement_instanceAssertion framework h.name
    have hcreate := @Fragment.case 1 _ _ _ hhead.piece (word_of_beginsOtherwise (by decide))
      (@Fragment.statements 2 2 _ hstatements)
    have hmethods : Fragment 1 (c.methods.flatMap (fun m => "" :: methodGroup framework c.name m))
        (c.methods.flatMap (fun m => [(1, m.name)])) := by
      apply Fragment.flatMap
      intro m hm
      have hname := h.members m.name (List.mem_map_of_mem hm)
      exact (Fragment.blank 1).append (fragment_methodGroup framework h.name hname)
    have hgroups : c.methods.flatMap (fun m => [(1, m.name)])
        = (Target.classItem c).memberNames.map (fun name => (1, name)) := by
      rw [Target.memberNames, List.map_map, List.map_eq_flatMap]
      rfl
    rw [← hgroups]
    exact hcreate.append hmethods

/-- The group of a target opens itself and the groups of its members. -/
theorem fragment_targetGroup (framework : Framework) {t : Target} (h : t.NamedByIdentifiers) :
    Fragment 0 (targetGroup framework t)
      ((0, t.name) :: t.memberNames.map (fun name => (1, name))) := by
  rw [targetGroup_eq]
  exact .group (quotable_name h.name) (fragment_targetInside framework h)

/-! ### The head of a document -/

theorem isBindingChar_toUpper {c : Char} (h : isBindingChar c = true) :
    isBindingChar c.toUpper = true := by
  -- a small letter becomes a capital, and nothing else changes
  by_cases hlower : 'a'.val ≤ c.val ∧ c.val ≤ 'z'.val
  · have hupper : c.toUpper.isUpper = true := by
      delta Char.toUpper
      rw [dif_pos hlower]
      delta Char.isUpper
      simp at hlower ⊢
      grind
    have halpha : c.toUpper.isAlpha = true := by
      delta Char.isAlpha
      rw [hupper, Bool.true_or]
    simp [isBindingChar, Char.isAlphanum, halpha]
  · delta Char.toUpper
    rw [dif_neg hlower]
    exact h

/-- Characters of a binding can stand in code. -/
theorem flatPiece_of_bindingChars {cs : List Char} (h : ∀ c ∈ cs, isBindingChar c = true) :
    FlatPiece (String.ofList cs) := by
  have hplain : ∀ d ∈ markedChars, isBindingChar d = false :=
    List.all_iff_forall_prop.mp (by decide)
  apply FlatPiece.of_plain
  intro c hc
  rw [String.toList_ofList] at hc
  apply plain_of_not_mem_markedChars
  intro hmarked
  have hc := h c hc
  rw [hplain c hmarked] at hc
  cases hc

theorem isBindingChar_capitalize {cs : List Char} (h : ∀ c ∈ cs, isBindingChar c = true) :
    ∀ c ∈ capitalize cs, isBindingChar c = true := by
  intro c hc
  rcases cs with - | ⟨d, ds⟩
  · cases hc
  · rcases List.mem_cons.mp hc with rfl | hc
    · exact isBindingChar_toUpper (h d List.mem_cons_self)
    · exact h c (List.mem_cons_of_mem _ hc)

/-- The name a module is bound to: characters of a binding, no digit first. -/
theorem moduleBinding_eq (unitName : String) :
    ∃ c cs, moduleBinding unitName = String.ofList (c :: cs) ∧ c.isDigit = false
      ∧ ∀ d ∈ c :: cs, isBindingChar d = true := by
  have hparts : ∀ c ∈ ((splitWhere (fun c => !isBindingChar c) unitName.toList).map
      capitalize).flatten, isBindingChar c = true := by
    intro c hc
    obtain ⟨word, hmem, hc⟩ := List.mem_flatten.mp hc
    obtain ⟨piece, hpiece, rfl⟩ := List.mem_map.mp hmem
    refine isBindingChar_capitalize (fun d hd => ?_) c hc
    simpa using of_mem_splitWhere hpiece d hd
  rw [moduleBinding]
  rcases hcs : ((splitWhere (fun c => !isBindingChar c) unitName.toList).map capitalize).flatten
    with - | ⟨c, cs⟩
  · exact ⟨'M', "odule".toList, rfl, by decide, List.all_iff_forall_prop.mp (by decide)⟩
  · rw [hcs] at hparts
    simp only
    -- an underscore keeps a digit from coming first
    split_ifs with hdigit
    · exact ⟨'_', c :: cs, rfl, by decide, List.forall_mem_cons.mpr ⟨by decide, hparts⟩⟩
    · exact ⟨c, cs, rfl, Bool.eq_false_iff.mpr hdigit, hparts⟩

/-- It can stand in code, whatever the name of its file. -/
theorem flatPiece_moduleBinding (unitName : String) : FlatPiece (moduleBinding unitName) := by
  obtain ⟨c, cs, hname, -, hchars⟩ := moduleBinding_eq unitName
  rw [hname]
  exact flatPiece_of_bindingChars hchars

/-- Names in braces are a piece. -/
theorem piece_braced {names : List String} (h : ∀ name ∈ names, isIdentifier name = true) :
    Piece ("\x7b " ++ ", ".intercalate names ++ " \x7d") := by
  have hnames : Piece (", ".intercalate names) :=
    .intercalate (FlatPiece.of_all (by decide)).piece fun name hname =>
      (flatPiece_name (h name hname)).piece
  have hblank : FlatPiece " " := .of_all (by decide)
  have htext : "\x7b " ++ ", ".intercalate names ++ " \x7d"
      = "\x7b" ++ (" " ++ ", ".intercalate names ++ " ") ++ "\x7d" := by
    apply String.toList_inj.mp
    simp
  rw [htext]
  exact ((hblank.piece.append hnames).append hblank.piece).braced

/-- An import of something from a quoted path. -/
theorem statement_import {bindings path : String} (hbindings : Piece bindings)
    (hpath : ∀ c ∈ path.toList, c ≠ '\'' ∧ c ≠ '\\' ∧ c ≠ '\n') :
    Statement ("import " ++ bindings ++ " from '" ++ path ++ "';") := by
  have htext : "import " ++ bindings ++ " from '" ++ path ++ "';"
      = "import " ++ (bindings ++ " from " ++ ("'" ++ path ++ "'") ++ ";") := by
    apply String.toList_inj.mp
    simp
  rw [htext]
  refine .of_word ?_ (by decide)
  exact (FlatPiece.of_all (by decide)).piece.append
    (((hbindings.append (FlatPiece.of_all (by decide)).piece).append
      (FlatPiece.quoted hpath).piece).append (FlatPiece.of_all (by decide)).piece)

/-- The line that imports what every document uses is a statement. -/
theorem statement_importLine (framework : Framework) :
    ∀ l ∈ framework.importLine Framework.globals, Statement l := by
  intro l hl
  cases framework with
  | jest => cases hl
  | mocha =>
    cases hl
    exact @statement_import _ "chai" (@piece_braced ["expect"] (by decide +kernel))
      (List.all_iff_forall_prop.mp (by decide))
  | vitest =>
    cases hl
    exact @statement_import _ "vitest" (@piece_braced Framework.globals (by decide +kernel))
      (List.all_iff_forall_prop.mp (by decide))

/-! ### The fragments of a document -/

theorem line_zero (text : String) : line 0 text = text := by
  apply String.toList_inj.mp
  rw [toList_line]
  rfl

/-- The lines of a document above its groups. -/
def headLines (framework : Framework) (o : Outline) (importPath unitName : String) : List String :=
  (framework.importLine Framework.globals).toList ++ [o.importStatement importPath unitName]

/-- The groups of some targets, an empty line in front of each. -/
def groupsOf (framework : Framework) (ts : List Target) : List String :=
  ts.flatMap (fun t => "" :: targetGroup framework t)

theorem documentLines_eq (framework : Framework) (o : Outline) (importPath unitName : String) :
    documentLines framework o importPath unitName
      = headLines framework o importPath unitName ++ groupsOf framework o.targets := rfl

theorem document_eq (framework : Framework) (o : Outline) (importPath unitName : String) :
    (document framework o importPath unitName).toList
      = writtenLines (documentLines framework o importPath unitName) := rfl

namespace Outline

variable {o : Outline}

theorem NamedByIdentifiers.target (h : o.NamedByIdentifiers) {t : Target} (ht : t ∈ o.targets) :
    t.NamedByIdentifiers := by
  have hfind := target?_of_mem_targets ht
  rw [target?_eq_find?] at hfind
  have hmem := List.mem_of_find?_eq_some hfind
  rw [declared, List.mem_append] at hmem
  rcases hmem with hmem | hmem
  · obtain ⟨f, hf, rfl⟩ := List.mem_map.mp hmem
    exact ⟨h.functions f hf, by simp [Target.memberNames]⟩
  · obtain ⟨c, hc, rfl⟩ := List.mem_map.mp hmem
    refine ⟨h.classes c hc, ?_⟩
    intro name hname
    obtain ⟨m, hm, rfl⟩ := List.mem_map.mp hname
    exact h.methods c hc m hm

theorem NamedByIdentifiers.default (h : o.NamedByIdentifiers) {name : String}
    (hname : o.defaults.head? = some name) : isIdentifier name = true := by
  obtain ⟨e, he, rfl⟩ := List.mem_map.mp (List.mem_of_head? hname)
  exact h.exports e (List.mem_filter.mp he).1

theorem NamedByIdentifiers.namedExports (h : o.NamedByIdentifiers) :
    ∀ name ∈ o.namedExports, isIdentifier name = true := by
  intro name hname
  have hmem := (List.mem_filter.mp (mem_of_mem_distinctBy hname)).1
  obtain ⟨e, he, rfl⟩ := List.mem_map.mp hmem
  exact h.exports e (List.mem_filter.mp he).1

/-- The import statement of a document is a statement. -/
theorem statement_importStatement (h : o.NamedByIdentifiers) {importPath : String}
    (hpath : ∀ c ∈ importPath.toList, c ≠ '\'' ∧ c ≠ '\\' ∧ c ≠ '\n') (unitName : String) :
    Statement (o.importStatement importPath unitName) := by
  have hnamed := piece_braced h.namedExports
  rw [importStatement]
  apply statement_import _ hpath
  rcases hhead : o.defaults.head? with - | name <;> rcases o.namedExports.isEmpty with - | -
  · exact hnamed
  · exact (flatPiece_moduleBinding unitName).piece
  · exact (((flatPiece_name (h.default hhead)).append (.of_all (by decide))).piece.append hnamed)
  · exact (flatPiece_name (h.default hhead)).piece

end Outline

theorem fragment_headLines (framework : Framework) {o : Outline} (h : o.NamedByIdentifiers)
    {importPath : String} (hpath : ∀ c ∈ importPath.toList, c ≠ '\'' ∧ c ≠ '\\' ∧ c ≠ '\n')
    (unitName : String) : Fragment 0 (headLines framework o importPath unitName) [] := by
  have hlines : ∀ l ∈ headLines framework o importPath unitName, Statement l := by
    intro l hl
    rcases List.mem_append.mp hl with hl | hl
    · exact statement_importLine framework l (Option.mem_toList.mp hl)
    · rw [List.mem_singleton.mp hl]
      exact Outline.statement_importStatement h hpath unitName
  have hmap : (headLines framework o importPath unitName).map (line 0)
      = headLines framework o importPath unitName := by
    rw [funext line_zero, List.map_id']
  rw [← hmap]
  exact .statements hlines

/-- The groups a target opens, with their levels. -/
def Target.shown (t : Target) : List (Nat × String) :=
  (0, t.name) :: t.memberNames.map (fun name => (1, name))

theorem fragment_groupsOf (framework : Framework) {ts : List Target}
    (h : ∀ t ∈ ts, t.NamedByIdentifiers) :
    Fragment 0 (groupsOf framework ts) (ts.flatMap Target.shown) := by
  apply Fragment.flatMap
  intro t ht
  exact (Fragment.blank 0).append (fragment_targetGroup framework (h t ht))

/-! ### The block of a group -/

/-- What a scan finds about the group of a target. -/
structure GroupOf (cs : List Char) (g : GroupLine) (t : Target) : Prop where
  name : g.name = t.name
  /-- The groups inside its block are those of its members, in order, and stand directly in it. -/
  members : ∃ span, (CodeMap.ofText cs).blockFrom g.offset = some span
    ∧ ((groupLines cs).filter (fun m => span.contains m.offset)).map
        (fun m => ((CodeMap.ofText cs).depthAt m.offset, m.name))
      = t.memberNames.map (fun name => (1, name))

section Block

variable {pre inner post : List String} {name : String}

theorem toList_groupOpening (name : String) :
    (groupOpening 0 name).toList = (groupHead name).toList ++ ['{'] := by
  rw [groupOpening_eq, line_zero, String.toList_append]
  rfl

/-- Behind the line that opens a group one more brace is open. -/
theorem leaves_groupOpening (hpre : Balanced (writtenLines pre))
    (hname : isIdentifier name = true) :
    Leaves 1 (writtenLines (pre ++ [groupOpening 0 name])) := by
  rw [writtenLines_append, writtenLines_cons, writtenLines_nil, groupOpening_eq]
  exact leaves_openingLine hpre 0 (flatPiece_groupHead (quotable_name hname)).piece

/-- The block of a group is what stands between the brace that ends its first line and the one that
begins its last. -/
theorem blockFrom_groupOpening (hpre : Balanced (writtenLines pre))
    (hname : isIdentifier name = true) (hinner : Balanced (writtenLines inner)) :
    ∃ span, (CodeMap.ofText (writtenLines
        (pre ++ [groupOpening 0 name] ++ inner ++ ([closing 0] ++ post)))).blockFrom
          (byteLength (writtenLines pre)) = some span
      ∧ span.start + 1 = byteLength (writtenLines (pre ++ [groupOpening 0 name]))
      ∧ span.stop = byteLength (writtenLines (pre ++ [groupOpening 0 name]))
          + byteLength (writtenLines inner) := by
  have hclose : (closing 0).toList = ['}', ')', ';'] := by
    rw [closing, line_zero]
    rfl
  have htext : writtenLines (pre ++ [groupOpening 0 name] ++ inner ++ ([closing 0] ++ post))
      = writtenLines pre ++ ((groupHead name).toList ++ '{' :: (('\n' :: writtenLines inner)
        ++ '}' :: ([')', ';', '\n'] ++ writtenLines post))) := by
    simp only [writtenLines_append, writtenLines_cons, toList_groupOpening, hclose,
      List.append_assoc, List.cons_append, List.nil_append]
  -- the block begins in the line that opens it, so it has that line's break as well
  have hinside : Balanced ('\n' :: writtenLines inner) := by
    have hnewline : Balanced ['\n'] := .flat (.of_all (by decide))
    exact hnewline.append hinner
  have hline : byteLength (writtenLines (pre ++ [groupOpening 0 name]))
      = byteLength (writtenLines pre ++ (groupHead name).toList) + 2 := by
    rw [writtenLines_append, writtenLines_cons, writtenLines_nil, toList_groupOpening,
      byteLength_append, byteLength_append, byteLength_append, byteLength_append, ← Nat.add_assoc,
      ← Nat.add_assoc]
    rfl
  refine ⟨insideOf (writtenLines pre ++ (groupHead name).toList) ('\n' :: writtenLines inner), ?_,
    ?_, ?_⟩
  · rw [htext]
    exact blockFrom_leaves hpre (flatPiece_groupHead (quotable_name hname)).flat hinside _
  · rw [hline]
    rfl
  · rw [hline, insideOf]
    show _ + 1 + (1 + _) = _
    omega

/-- **The groups inside a group that stands outside all braces** are those of the lines it
encloses. -/
theorem groupOf_enclosed {t : Target} (hpre : Balanced (writtenLines pre))
    (hname : isIdentifier t.name = true)
    (hinner : Fragment 1 inner (t.memberNames.map (fun name => (1, name))))
    (hlines : ∀ l ∈ pre ++ [groupOpening 0 t.name] ++ inner ++ ([closing 0] ++ post),
      '\n' ∉ l.toList) :
    GroupOf (writtenLines (pre ++ [groupOpening 0 t.name] ++ inner ++ ([closing 0] ++ post)))
      ⟨byteLength (writtenLines pre), 0, t.name⟩ t := by
  obtain ⟨span, hblock, hstart, hstop⟩ :=
    @blockFrom_groupOpening pre inner post t.name hpre hname hinner.balanced
  -- the block begins behind the word of its own group
  have hbefore : ∀ g ∈ groupsIn 0 (pre ++ [groupOpening 0 t.name]), g.offset < span.start := by
    intro g hg
    have hlength : byteLength (writtenLines pre) + 1
        < byteLength (writtenLines (pre ++ [groupOpening 0 t.name])) := by
      rw [writtenLines_append, byteLength_append, writtenLines_cons, byteLength_append,
        toList_groupOpening, byteLength_append]
      simp only [byteLength_cons, byteLength_nil]
      have := '{'.utf8Size_pos
      have := '\n'.utf8Size_pos
      omega
    rw [groupsIn_append, List.mem_append] at hg
    rcases hg with hg | hg
    · have := (groupsIn_range hg).2
      omega
    · rw [groupsIn_cons, groupLine?_groupOpening _ _ fun c hc => (quotable_name hname c hc).1] at hg
      rw [Nat.zero_add] at hg
      obtain rfl := List.mem_singleton.mp hg
      show byteLength (writtenLines pre) < span.start
      omega
  have hfilter := @filter_groupsIn _ inner ([closing 0] ++ post) span hbefore (by omega) hstop
  rw [← groupLines_writtenLines hlines] at hfilter
  have hopen := leaves_groupOpening hpre hname
  have hshown := hinner.shown _ (writtenLines ([closing 0] ++ post)) hopen
  rw [← writtenLines_append, ← writtenLines_append, ← List.append_assoc] at hshown
  -- of what is shown, the depth and the name
  have hview := congrArg (List.map fun s : Bool × Nat × Nat × String => (s.2.1, s.2.2.2)) hshown
  rw [List.map_map, List.map_map, List.map_map] at hview
  refine ⟨rfl, span, hblock, ?_⟩
  rw [hfilter]
  exact hview

end Block

/-! ### The whole document -/

/-- Of the groups a target opens only its own begins its line. -/
theorem filter_indent_targetGroup (framework : Framework) {t : Target} (h : t.NamedByIdentifiers)
    {pre : List String} (hpre : Balanced (writtenLines pre)) :
    (groupsIn (byteLength (writtenLines pre)) (targetGroup framework t)).filter (·.indent == 0)
      = [⟨byteLength (writtenLines pre), 0, t.name⟩] := by
  have hopening : groupsIn (byteLength (writtenLines pre)) [groupOpening 0 t.name]
      = [⟨byteLength (writtenLines pre), 0, t.name⟩] := by
    rw [groupsIn_cons, groupLine?_groupOpening _ _ fun c hc => (quotable_name h.name c hc).1]
    rfl
  have hclosing : ∀ offset, groupsIn offset [closing 0] = [] := by
    intro offset
    rw [groupsIn_cons, closing, groupLine?_eq_none _ _ (word_of_beginsOtherwise (by decide))]
    rfl
  have hmembers : (groupsIn (byteLength (writtenLines (pre ++ [groupOpening 0 t.name])))
      (targetInside framework t)).filter (·.indent == 0) = [] := by
    -- the groups of the members are indented by two
    have hshown := (fragment_targetInside framework h).shown _ [] (leaves_groupOpening hpre h.name)
    have hindent := congrArg (List.map fun s : Bool × Nat × Nat × String => s.2.2.1) hshown
    rw [List.map_map, List.map_map, List.map_map] at hindent
    apply List.filter_eq_nil_iff.mpr
    intro g hg hzero
    have hmem : g.indent ∈ t.memberNames.map fun _ => 2 := by
      change _ = t.memberNames.map fun _ => 2 at hindent
      rw [← hindent]
      exact List.mem_map_of_mem hg
    obtain ⟨-, -, htwo⟩ := List.mem_map.mp hmem
    rw [← htwo] at hzero
    cases hzero
  rw [targetGroup_eq, groupsIn_append, groupsIn_append, hclosing, List.append_nil, hopening,
    ← byteLength_append, ← writtenLines_append, List.filter_append, hmembers]
  rfl

/-- The groups of targets that begin their lines are one for each target. -/
theorem forall₂_groupsOf (framework : Framework) {ts : List Target}
    (hts : ∀ t ∈ ts, t.NamedByIdentifiers) {pre : List String} {groups : List (Nat × String)}
    (hpre : Fragment 0 pre groups) :
    List.Forall₂ (GroupOf (writtenLines (pre ++ groupsOf framework ts)))
      ((groupsIn (byteLength (writtenLines pre)) (groupsOf framework ts)).filter (·.indent == 0))
      ts := by
  -- on the targets, the groups of those before them being part of what stands in front
  induction ts generalizing pre groups with
  | nil => exact .nil
  | cons t ts ih =>
    obtain ⟨ht, hts⟩ := List.forall_mem_cons.mp hts
    have hblank := hpre.append (Fragment.blank 0)
    have hbehind := hblank.append (fragment_targetGroup framework ht)
    have hwhole := (hbehind.append (fragment_groupsOf framework hts)).oneLine
    have hrest := ih hts hbehind
    have hcons : groupsOf framework (t :: ts)
        = [""] ++ (targetGroup framework t ++ groupsOf framework ts) := by
      rw [groupsOf, List.flatMap_cons]
      rfl
    have hlines : pre ++ groupsOf framework (t :: ts)
        = pre ++ [""] ++ targetGroup framework t ++ groupsOf framework ts := by
      rw [hcons, List.append_assoc, List.append_assoc]
    have hfirst : GroupOf (writtenLines (pre ++ groupsOf framework (t :: ts)))
        ⟨byteLength (writtenLines (pre ++ [""])), 0, t.name⟩ t := by
      have henclosed : pre ++ [""] ++ targetGroup framework t ++ groupsOf framework ts
          = pre ++ [""] ++ [groupOpening 0 t.name] ++ targetInside framework t
            ++ ([closing 0] ++ groupsOf framework ts) := by
        rw [targetGroup_eq]
        simp only [List.append_assoc]
      rw [hlines, henclosed]
      rw [henclosed] at hwhole
      exact groupOf_enclosed hblank.balanced ht.name (fragment_targetInside framework ht) hwhole
    have hnone : groupsIn (byteLength (writtenLines pre)) [""] = [] := by
      have hshown := (Fragment.blank 0).shown _ [] hpre.balanced
      exact List.map_eq_nil_iff.mp hshown
    -- the groups of the first target, and those of the others behind it
    rw [hlines, hcons, groupsIn_append, hnone, List.nil_append, groupsIn_append, List.filter_append,
      ← byteLength_append, ← writtenLines_append, filter_indent_targetGroup framework ht
        hblank.balanced, ← byteLength_append, ← writtenLines_append]
    rw [hlines] at hfirst
    exact .cons hfirst hrest

/-- What a scan finds in the document of an outline. -/
structure WellFormed (o : Outline) (cs : List Char) : Prop where
  /-- Each closing brace in code closes an open block. -/
  closes : ∀ b ∈ (CodeMap.ofText cs).braces, b.opens = false →
    0 < (CodeMap.ofText cs).depthAt b.offset
  closed : (CodeMap.ofText cs).depthAt (byteLength cs) = 0
  /-- The word that opens a group is code. -/
  code : ∀ g ∈ groupLines cs, (CodeMap.ofText cs).isCode g.offset = true
  /-- The lines that begin with that word are those outside all braces. -/
  outermost : ∀ g ∈ groupLines cs, g.indent = 0 ↔ (CodeMap.ofText cs).depthAt g.offset = 0
  /-- There is one of them for each target, in order, with the groups of its members inside. -/
  groups : List.Forall₂ (GroupOf cs) ((groupLines cs).filter (·.indent == 0)) o.targets
  /-- The targets have the names the outline selects. -/
  selected : o.Selects (o.targets.map Target.name)
  /-- Each target is the declaration of its name. -/
  declared : ∀ t ∈ o.targets, o.target? t.name = some t

/-- **A document scans as it is meant**: where all names are identifiers and the path of the import
can stand in quotes, its braces are paired, and its groups are those of the targets. -/
theorem wellFormed_document (framework : Framework) {o : Outline} (h : o.NamedByIdentifiers)
    {importPath : String} (hpath : ∀ c ∈ importPath.toList, c ≠ '\'' ∧ c ≠ '\\' ∧ c ≠ '\n')
    (unitName : String) :
    WellFormed o (document framework o importPath unitName).toList := by
  have hhead := fragment_headLines framework h hpath unitName
  have hgroups := fragment_groupsOf framework fun t ht => h.target ht
  have hwhole := hhead.append hgroups
  have hshown := hwhole.shown [] [] .nil
  have hlines := groupLines_writtenLines hwhole.oneLine
  rw [← documentLines_eq] at hwhole hshown hlines
  rw [List.nil_append, List.append_nil, byteLength_nil, ← hlines] at hshown
  rw [document_eq]
  -- every group is in code, and indented by two for each brace that is open
  have hview : ∀ g ∈ groupLines (writtenLines (documentLines framework o importPath unitName)),
      (CodeMap.ofText (writtenLines (documentLines framework o importPath unitName))).isCode
          g.offset = true
        ∧ g.indent = 2 * (CodeMap.ofText
            (writtenLines (documentLines framework o importPath unitName))).depthAt g.offset := by
    intro g hg
    have hmem := List.mem_map_of_mem (f := GroupLine.shown (CodeMap.ofText
      (writtenLines (documentLines framework o importPath unitName)))) hg
    rw [hshown] at hmem
    obtain ⟨s, -, hs⟩ := List.mem_map.mp hmem
    simp only [GroupLine.shown, Prod.mk.injEq] at hs
    exact ⟨hs.1.symm, by rw [← hs.2.1, hs.2.2.1]⟩
  constructor
  case closes =>
    intro b hb hcloses
    exact pos_depthAt_of_closes hwhole.balanced hb hcloses
  case closed =>
    have hdepth := depthAt_leaves hwhole.balanced []
    rwa [List.append_nil] at hdepth
  case code => exact fun g hg => (hview g hg).1
  case outermost =>
    intro g hg
    have hindent := (hview g hg).2
    omega
  case groups =>
    have hfirst : groupsIn 0 (headLines framework o importPath unitName) = [] := by
      have h := hhead.shown [] [] .nil
      exact List.map_eq_nil_iff.mp h
    rw [hlines, documentLines_eq, groupsIn_append, hfirst, List.nil_append, Nat.zero_add]
    exact forall₂_groupsOf framework (fun t ht => h.target ht) hhead
  case selected => exact o.selects_targets
  case declared => exact fun t ht => Outline.target?_of_mem_targets ht

/-- A module with a function and a class that it exports, and a function that it does not. -/
def storeOutline : Outline where
  functions := [⟨"open_$1", ["callback", "...names"], true, 0⟩, ⟨"hidden", [], false, 30⟩]
  classes := [⟨"Store", [⟨"get", ["id"], false⟩, ⟨"put", ["\x7b a, b \x7d", "options"], true⟩], 60⟩]
  exports := [⟨"Store", true, 60⟩, ⟨"open_$1", false, 90⟩, ⟨"Store", false, 95⟩]

theorem wellFormed_document_storeOutline :
    storeOutline.NamedByIdentifiers
      ∧ (∀ c ∈ "../src/\x7bstore\x7d".toList, c ≠ '\'' ∧ c ≠ '\\' ∧ c ≠ '\n')
      ∧ WellFormed storeOutline
          (document .vitest storeOutline "../src/\x7bstore\x7d" "store").toList := by
  have h : storeOutline.NamedByIdentifiers := by decide +kernel
  have hpath : ∀ c ∈ "../src/\x7bstore\x7d".toList, c ≠ '\'' ∧ c ≠ '\\' ∧ c ≠ '\n' :=
    List.all_iff_forall_prop.mp (by decide)
  exact ⟨h, hpath, wellFormed_document .vitest h hpath "store"⟩

end Scaffold

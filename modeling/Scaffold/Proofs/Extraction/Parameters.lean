/-
Scaffold/Proofs/Extraction/Parameters.lean

The parameters of a function and those of a method.

A function's parameters are read by its pattern, up to the next closing
parenthesis.  A method's are read by going over the parentheses in code, up to
the one that closes them.  A list that holds no closing parenthesis of its own
is read alike (`functions_functionSource`): the parenthesis behind it is the
only one, so both readers stop there.  With one, in a default value say, the
function's list is cut short (`not_functions_functionSource`).

* `parameters_of_methodSource` — what the method of a class with one member is,
  from the body of the class and the parenthesis depths in it;
* `findAll_functionSource` — the one match of the pattern for functions.
-/
import Scaffold.Proofs.Extraction.Functions
import Scaffold.Proofs.Extraction.Located
import Scaffold.Proofs.Scan.Nesting

namespace Scaffold

open Text Scan Pattern

/-! ### Two sources with one parameter list -/

/-- A class with one method. -/
def methodSource (f parameters : String) : String :=
  "class A \x7b " ++ f ++ "(" ++ parameters ++ ") \x7b\x7d \x7d"

/-- A function. -/
def functionSource (f parameters : String) : String :=
  "function " ++ f ++ "(" ++ parameters ++ ") \x7b\x7d"

theorem toList_methodSource (f parameters : String) :
    (methodSource f parameters).toList
      = "class A ".toList ++ '{' :: (' ' :: f.toList
          ++ '(' :: (parameters.toList ++ ')' :: " \x7b\x7d \x7d".toList)) := by
  simp [methodSource]

theorem toList_functionSource (f parameters : String) :
    (functionSource f parameters).toList
      = "function ".toList ++ (f.toList ++ '(' :: (parameters.toList ++ ')' :: " \x7b\x7d".toList)) := by
  simp [functionSource]

/-- An identifier opens nothing, and holds no parenthesis. -/
theorem isPlain_of_isIdentifierPart {c : Char} (h : isIdentifierPart c = true) :
    isPlain c = true ∧ c ≠ '(' ∧ c ≠ ')' := by
  have hmarks : ∀ d ∈ ['/', '\'', '"', '`', '{', '}', '(', ')'], (!isIdentifierPart d) = true :=
    List.all_eq_true.mp (by decide +kernel)
  have hne : ∀ d ∈ ['/', '\'', '"', '`', '{', '}', '(', ')'], c ≠ d := by
    rintro d hd rfl
    simpa [h] using hmarks c hd
  refine ⟨?_, hne _ (by simp), hne _ (by simp)⟩
  simp only [List.forall_mem_cons] at hne
  simp [isPlain, hne]

/-- A text that opens nothing begins in code outside all braces. -/
theorem isTopLevel_start {v : List Char} (hv : ∀ c ∈ v.head?, isPlain c = true) :
    (CodeMap.ofText v).isTopLevel 0 = true :=
  isTopLevel_iff.mpr ⟨isCode_leaves .nil hv, depthAt_leaves .nil v⟩

/-! ### The method -/

/-- The first block of a text opens at its first brace. -/
theorem start_of_blockFrom_flat {w y : List Char} (hw : Flat w) {span : Span}
    (h : (CodeMap.ofText (w ++ '{' :: y)).blockFrom 0 = some span) :
    span.start = byteLength w + 1 := by
  obtain ⟨spans, hspans, -⟩ := hw.crossed 0 0 ('{' :: y)
  have hbraces : (CodeMap.ofText (w ++ '{' :: y)).braces
      = ⟨byteLength w, true, 1⟩ :: bracesOf (marksFrom 0 (byteLength w + 1) 1 y) := by
    rw [braces_ofText]
    show bracesOf (marksFrom 0 0 0 (w ++ '{' :: y)) = _
    rw [hspans, marksFrom_open, bracesOf, List.filterMap_append, ← bracesOf, bracesOf_map_quiet,
      Nat.zero_add]
    rfl
  rw [CodeMap.blockFrom, hbraces] at h
  rw [← Option.some.inj h]

section Within

variable {cs front inside back : List Char} {method : MethodItem}

/-- In front of the first closing parenthesis, a place outside parentheses has no opening one
before it. -/
theorem not_mem_of_parenDepthAt_eq_zero {u v w x parameters : List Char} (hinside : inside = u ++ v)
    (hlist : w ++ '(' :: parameters = u ++ x) (hw : ∀ c ∈ w, c ≠ '(' ∧ c ≠ ')')
    (hparameters : ')' ∉ parameters)
    (hcode : (CodeMap.ofText cs).isCode ((insideOf front inside).start + byteLength w) = true)
    (hparen : parenDepthAt (parenDepths (.ofText cs) (insideOf front inside).start 0 inside)
      ((insideOf front inside).start + byteLength u) = 0) : '(' ∉ u := by
  intro hmem
  rcases List.append_eq_append_iff.mp hlist with ⟨z, rfl, hz⟩ | ⟨z, rfl, -⟩
  · -- the place is no earlier than the parenthesis
    cases z with
    | nil =>
      rw [List.append_nil] at hmem
      exact (hw _ hmem).1 rfl
    | cons d z =>
      obtain ⟨rfl, rfl⟩ := List.cons.inj hz
      have hopen : ')' ∉ z := fun hmem => hparameters (List.mem_append_left _ hmem)
      have hpos := parenDepthAt_pos (v := v) hw hopen hcode
      rw [hinside, List.append_assoc] at hparen
      exact absurd hparen (Nat.ne_of_gt hpos)
  · -- the place is in front of it
    exact (hw _ (List.mem_append_left _ hmem)).1 rfl

/-- **In a body with one closing parenthesis, what a method's parameters are is the text from the
first parenthesis up to that.** -/
theorem parameters_of_mem_methods (h : Block cs front inside back)
    (hmem : method ∈ (ClassBody.within cs front inside).methods) {w parameters tail : List Char}
    (htext : inside ++ back = w ++ '(' :: (parameters ++ ')' :: tail))
    (hw : ∀ c ∈ w, c ≠ '(' ∧ c ≠ ')') (hparameters : ')' ∉ parameters) (htail : ')' ∉ tail)
    (hcode : (CodeMap.ofText cs).isCode ((insideOf front inside).start + byteLength w) = true) :
    method.parameters = splitParameters parameters := by
  obtain ⟨p, hp, m, hm, _, place, hmember⟩ := ClassBody.exists_head_of_mem_methods hmem
  obtain ⟨hcounts, parameters', rest, name, hafter, hname, -, -, hmparameters, -⟩ :=
    ClassBody.parts_of_member? hmember
  obtain ⟨hprivate, -, -, hparen, -⟩ := ClassBody.of_isMember hcounts hname
  rw [(ClassBody.within cs front inside).parens_eq, ClassBody.text_within h] at hparen
  rw [ClassBody.text_within h] at hm hprivate
  obtain ⟨u, n, y, v, hinside, hcapture, hn, hhead, hy⟩ := parts_of_head hp hm
  obtain rfl := Option.some.inj (hcapture.symm.trans hname)
  obtain ⟨rfl, -⟩ := ClassBody.parts_of_parametersAfter h hhead hafter
  rw [text_of_capture? hcapture hinside] at hprivate
  have hidentifier : IsIdentifier n := hn.resolve_left hprivate
  -- there is one closing parenthesis, so both lists end there
  have hlist : w ++ '(' :: parameters = u ++ (n ++ y) ++ '(' :: parameters' := by
    have heq : (w ++ '(' :: parameters) ++ ')' :: tail
        = (u ++ (n ++ y) ++ '(' :: parameters') ++ ')' :: (rest ++ back) := by
      have htext' := htext
      rw [hinside] at htext'
      simpa using htext'.symm
    have hfront : ')' ∉ w ++ '(' :: parameters := by
      simpa [hparameters] using fun hmem => (hw _ hmem).2 rfl
    exact ((List.append_cons_inj_of_notMem hfront htail).mp heq).1
  -- the name stands outside parentheses, so the first one is that behind it
  have hu : '(' ∉ u := not_mem_of_parenDepthAt_eq_zero hinside
    (hlist.trans (List.append_assoc _ _ _)) hw hparameters hcode hparen
  have hopening : ∀ c ∈ u ++ (n ++ y), (c != '(') = true := by
    intro c hc
    rw [bne_iff_ne]
    rintro rfl
    rcases List.mem_append.mp hc with hc | hc
    · exact hu hc
    rcases List.mem_append.mp hc with hc | hc
    · exact (isPlain_of_isIdentifierPart (hidentifier.2 _ hc)).2.1 rfl
    · exact hy hc
  have hfirst : ∀ c ∈ w, (c != '(') = true := fun c hc => bne_iff_ne.mpr (hw c hc).1
  have hclass : ∀ x, ∀ c ∈ ('(' :: x).head?, (c != '(') = false := by
    rintro x c ⟨⟩
    rfl
  obtain ⟨-, hsame⟩ := append_inj_of_class hlist hfirst hopening (hclass _) (hclass _)
  rw [hmparameters, (List.cons.inj hsame).2]

end Within

section Method

variable {f parameters : String}

/-- The class stands at the beginning. -/
theorem exists_class_methodSource (f parameters : String) :
    ∃ c ∈ (extract (methodSource f parameters)).classes, c.offset = 0 := by
  have htop : (CodeMap.ofText (methodSource f parameters).toList).isTopLevel 0 = true := by
    refine isTopLevel_start ?_
    rw [toList_methodSource]
    rintro c ⟨⟩
    decide
  obtain ⟨rest, hsource, hrest⟩ : ∃ rest, (methodSource f parameters).toList
      = ([] ++ ("class ".toList ++ "A".toList)) ++ rest
        ∧ ∀ c ∈ rest.head?, isIdentifierPart c = false := by
    refine ⟨_, toList_methodSource f parameters, ?_⟩
    rintro c ⟨⟩
    decide
  obtain ⟨m, hm, htext, hstart⟩ : ∃ m,
      classDeclaration.matchAt? (.between [] (methodSource f parameters).toList) = some m
        ∧ m.text .name (methodSource f parameters).toList = "A".toList ∧ m.span.start = 0 := by
    have hletter : IsIdentifier "A".toList :=
      ⟨⟨'A', rfl, by decide⟩, List.all_eq_true.mp (by decide +kernel)⟩
    have hreads : Reads classDeclaration [] ([] ++ ("class ".toList ++ "A".toList)) rest [] _ :=
      .cons (.boundary (by rfl)) (.cons (.wordThenBlanks (l := "class") (w := [' ']) (by simp)
        isBlank_space (by rintro c ⟨⟩; decide)) (.keep (.identifier hletter hrest)))
    rw [hsource]
    exact ⟨_, hreads.matchAt?_eq, text_of_capture? (v := rest) rfl rfl, rfl⟩
  have hfound : Found.classNamed "A" 0 ∈ findings Recognizer.all (methodSource f parameters).toList
      (.ofText (methodSource f parameters).toList) := by
    refine List.mem_flatMap.mpr ⟨.classKeyword, by decide, mem_find_iff.mpr ⟨classDeclaration,
      List.mem_singleton_self _, m, mem_findAll_of_start hm, hstart ▸ htop, ?_⟩⟩
    rw [Recognizer.read, htext, hstart]
    exact List.mem_singleton_self _
  exact ⟨_, List.mem_mergeSort.mpr (List.mem_filterMap.mpr ⟨_, hfound, rfl⟩), rfl⟩

theorem parameters_of_methodSource (hf : IsIdentifier f.toList) (hclose : ')' ∉ parameters.toList)
    {c : ClassItem} (hc : c ∈ (extract (methodSource f parameters)).classes) (hoffset : c.offset = 0)
    {method : MethodItem} (hmethod : method ∈ c.methods) :
    method.parameters = splitParameters parameters.toList := by
  obtain ⟨htop, hmethods⟩ := class_of_mem hc
  rw [hoffset] at htop hmethods
  rw [hmethods] at hmethod
  have hplain : Flat "class A ".toList := .of_all (by decide)
  have hname : ∀ c ∈ ' ' :: f.toList, isPlain c = true ∧ c ≠ '(' ∧ c ≠ ')' :=
    List.forall_mem_cons.mpr ⟨by decide, fun c hc => isPlain_of_isIdentifierPart (hf.2 c hc)⟩
  rw [toList_methodSource] at hmethod htop
  generalize hcs : "class A ".toList ++ '{' :: (' ' :: f.toList
    ++ '(' :: (parameters.toList ++ ')' :: " \x7b\x7d \x7d".toList)) = cs at hmethod htop
  rcases hspan : bodySpan cs (.ofText cs) 0 with - | span
  · rw [hspan] at hmethod
    cases hmethod
  rw [hspan] at hmethod
  obtain ⟨front, inside, back, hblock, rfl⟩ := block_of_bodySpan (depthAt_of_isTopLevel htop) hspan
  obtain ⟨body, hfrom, hbody⟩ := Option.bind_eq_some_iff.mp hspan
  split_ifs at hbody
  obtain rfl := Option.some.inj hbody
  -- the body opens at the first brace
  have hstart : byteLength front + 1 = byteLength "class A ".toList + 1 := by
    rw [← hcs] at hfrom
    exact start_of_blockFrom_flat hplain hfrom
  obtain ⟨x, hx, hrest⟩ := eq_append_of_byteLength_le (hcs.trans hblock.text_eq)
    (Nat.le_of_eq (Nat.succ.inj hstart).symm)
  obtain rfl : x = [] := by
    rw [hx, byteLength_append] at hstart
    exact byteLength_eq_zero.mp (by omega)
  rw [List.append_nil] at hx
  subst hx
  refine parameters_of_mem_methods hblock hmethod (List.cons.inj hrest).2.symm
    (fun c hc => (hname c hc).2) hclose (by decide) ?_
  have hleaves : Leaves (0 + 1 + 0) ("class A ".toList ++ ['{'] ++ ' ' :: f.toList) :=
    .append (.append (.flat hplain) .opening) (.flat (.plain fun c hc => (hname c hc).1))
  have hcode := isCode_leaves hleaves
    (v := '(' :: (parameters.toList ++ ')' :: " \x7b\x7d \x7d".toList)) (by rintro c ⟨⟩; decide)
  have htext : "class A ".toList ++ ['{'] ++ ' ' :: f.toList
      ++ '(' :: (parameters.toList ++ ')' :: " \x7b\x7d \x7d".toList) = cs := by
    rw [← hcs]
    simp
  rw [htext, byteLength_append, byteLength_append] at hcode
  exact hcode

end Method

/-! ### The function -/

/-- The keyword of a variable. -/
def VariableLead (cs : List Char) : Prop := ∃ word ∈ ["const", "let", "var"], Spaced word cs

/-- What is bound to a variable is introduced by the keyword of one. -/
theorem names_variable {p : Pattern} (hp : p ∈ Recognizer.boundFunction.patterns) :
    Names p VariableLead fun _ => True := by
  have hlead : ∀ before w behind, (inOrder [variableKeyword, blanks1]).Spells before w behind →
      VariableLead w ∧ BeginsWord w := fun _ _ _ h =>
    ⟨spaced_of_words h, (declarationLead_of_variableKeyword h).2⟩
  rcases List.mem_pair.mp hp with rfl | rfl
  · exact ⟨[variableKeyword, blanks1], _, rfl, by decide, hlead, fun _ _ _ _ => trivial⟩
  · exact ⟨[variableKeyword, blanks1], _, rfl, by decide, hlead, fun _ _ _ _ => trivial⟩

section Function

variable {f parameters : String}

/-- At the beginning the pattern for functions goes over the text up to the closing parenthesis. -/
theorem matchAt?_functionSource (hf : IsIdentifier f.toList) (hclose : ')' ∉ parameters.toList) :
    ∃ w m, (functionSource f parameters).toList = w ++ " \x7b\x7d".toList
      ∧ functionDeclaration.matchAt? (.between [] (functionSource f parameters).toList) = some m
      ∧ m.span = ⟨0, byteLength w⟩
      ∧ Recognizer.functionOf (functionSource f parameters).toList m
        = ⟨f, splitParameters parameters.toList, false, 0⟩ := by
  have hname : ∀ y, ∀ c ∈ ((f.toList ++ y) ++ " \x7b\x7d".toList).head?,
      isBlank c = false ∧ c ≠ '*' := by
    intro y
    rw [List.append_assoc]
    exact not_blank_of_isIdentifier hf _
  have hreads : Reads functionDeclaration [] ([] ++ ([] ++ ("function ".toList ++ (f.toList
      ++ ([] ++ ([] ++ (['('] ++ (parameters.toList ++ [')'])))))))) " \x7b\x7d".toList [] _ :=
    .cons (.boundary (by rfl)) (.cons (.absent fun t => not_leads rfl (by rintro c ⟨⟩; decide))
      (.cons (reads_functionKeyword (hname _))
      (.cons (.keep (.identifier hf (by rintro c ⟨⟩; decide)))
      (.cons (.longest (w := []) (by simp) (by rintro c ⟨⟩; decide))
      (.cons (.absent fun t => not_leads rfl (by rintro c ⟨⟩; decide))
        (reads_parameterList hclose))))))
  have hsource : (functionSource f parameters).toList
      = ([] ++ ([] ++ ("function ".toList ++ (f.toList
        ++ ([] ++ ([] ++ (['('] ++ (parameters.toList ++ [')'])))))))) ++ " \x7b\x7d".toList := by
    rw [toList_functionSource]
    simp
  have hmatch := hreads.matchAt?_eq
  rw [← hsource] at hmatch
  refine ⟨_, _, hsource, hmatch, rfl, ?_⟩
  rw [Recognizer.functionOf,
    text_of_capture? (n := f.toList) (v := '(' :: (parameters.toList ++ ')' :: " \x7b\x7d".toList)) rfl
      (by rw [toList_functionSource]; simp),
    text_of_capture? (n := parameters.toList) (v := ')' :: " \x7b\x7d".toList) rfl
      (by rw [toList_functionSource]; simp), String.ofList_toList]
  rfl

/-- It has no other match. -/
theorem findAll_functionSource (hf : IsIdentifier f.toList) (hclose : ')' ∉ parameters.toList) :
    ∃ m, functionDeclaration.findAll (functionSource f parameters).toList = [m]
      ∧ Recognizer.functionOf (functionSource f parameters).toList m
        = ⟨f, splitParameters parameters.toList, false, 0⟩ := by
  obtain ⟨w, m, hsource, hmatch, hspan, hread⟩ := matchAt?_functionSource hf hclose
  have hm := mem_findAll_of_start hmatch
  refine ⟨m, findAll_eq_singleton hm fun m' hm' => ?_, hread⟩
  by_cases hstart : m'.span.start = 0
  · exact Option.some.inj ((matchAt?_of_mem_findAll (u := []) hm' hstart).symm.trans hmatch)
  -- any other begins behind it, where no letter stands
  have hbehind : byteLength w ≤ m'.span.start := by
    refine Nat.le_of_not_lt fun hlt => not_runsOver_of_mem_findAll hm' hm ⟨?_, ?_⟩
    · rw [hspan]
      exact Nat.pos_of_ne_zero hstart
    · rw [hspan]
      exact hlt
  obtain ⟨u, v, huv, hmatch'⟩ := mem_findAll hm'
  rw [span_start_of_matchAt? hmatch', Cursor.between_offset] at hbehind
  obtain ⟨x, rfl, hrest⟩ := eq_append_of_byteLength_le (hsource.symm.trans huv) hbehind
  obtain ⟨c, hc, hstarts⟩ := starts_of_matchAt? (by decide) hmatch'
  have hmem : c ∈ " \x7b\x7d".toList := by
    rw [hrest]
    exact List.mem_append_right _ (List.mem_of_head? hc)
  rcases eq_of_functionDeclaration_starts hstarts with rfl | rfl
  · exact absurd hmem (by decide)
  · exact absurd hmem (by decide)

/-- So it is read as one function. -/
theorem foundBy_functionSource (hf : IsIdentifier f.toList) (hclose : ')' ∉ parameters.toList) :
    Recognizer.functionKeyword.foundBy functionDeclaration (functionSource f parameters).toList
        (.ofText (functionSource f parameters).toList)
      = [.function ⟨f, splitParameters parameters.toList, false, 0⟩] := by
  obtain ⟨m, hfind, hread⟩ := findAll_functionSource hf hclose
  have hstart : m.span.start = 0 := congrArg FunctionItem.offset hread
  have htop : (CodeMap.ofText (functionSource f parameters).toList).isTopLevel 0 = true := by
    refine isTopLevel_start ?_
    rw [toList_functionSource]
    rintro c ⟨⟩
    decide
  have hplace : inExpression (functionSource f parameters).toList 0 = false := by
    rw [inExpression, takeBytes_zero]
    rfl
  rw [Recognizer.foundBy, hfind, List.flatMap_singleton, hstart, if_pos htop, Recognizer.read,
    hstart, hplace, if_neg Bool.false_ne_true, hread]

end Function

/-- Nothing is found that is bound to a variable where no variable is declared outside braces. -/
theorem foundBy_boundFunction {source : List Char}
    (hvariable : ∀ start place name,
      ¬ Introduces VariableLead (fun _ => True) source start place name)
    {p : Pattern} (hp : p ∈ Recognizer.boundFunction.patterns) :
    Recognizer.boundFunction.foundBy p source (.ofText source) = [] := by
  refine List.flatMap_eq_nil_iff.mpr fun m hm => if_neg fun htop => ?_
  obtain ⟨place, hintroduces⟩ := (names_variable hp).introduces hm htop
  exact hvariable _ _ _ hintroduces

/-- **A function and a method read a parameter list alike**, where the list holds no closing
parenthesis and declares no variable outside braces. -/
theorem functions_functionSource {f parameters : String} {entries : List String} {isAsync : Bool}
    {offset : Nat} (hf : IsIdentifier f.toList)
    (hclass : (extract (methodSource f parameters)).classes
      = [⟨"A", [⟨f, entries, isAsync⟩], offset⟩])
    (hclose : ')' ∉ parameters.toList)
    (hvariable : ∀ start place name, ¬ Introduces VariableLead (fun _ => True)
      (functionSource f parameters).toList start place name) :
    (extract (functionSource f parameters)).functions = [⟨f, entries, false, 0⟩] := by
  have hentries : entries = splitParameters parameters.toList := by
    obtain ⟨c, hc, hoffset⟩ := exists_class_methodSource f parameters
    have hwritten : c = ⟨"A", [⟨f, entries, isAsync⟩], offset⟩ := by
      rwa [hclass, List.mem_singleton] at hc
    have hmethod : (⟨f, entries, isAsync⟩ : MethodItem) ∈ c.methods := by
      rw [hwritten]
      exact List.mem_singleton_self _
    exact parameters_of_methodSource hf hclose hc hoffset hmethod
  rw [extract, extractWith, filterMap_function?_all, foundBy_functionSource hf hclose, hentries,
    foundBy_boundFunction hvariable (List.mem_cons_self),
    foundBy_boundFunction hvariable (List.mem_cons_of_mem _ (List.mem_singleton_self _))]
  exact sortByOffset_of_pairwise (List.pairwise_singleton _ _)

/-- A destructuring pattern with defaults, an arrow, a string with an open parenthesis and a comment
in a list. -/
def richParameters : String :=
  "\x7b a = [1, 2], b \x7d = \x7b\x7d, wait = x => x, // no (\n mark = '(', ...rest"

theorem functions_functionSource_richParameters :
    ∃ entries, entries.length = 3 ∧ IsIdentifier "load".toList
      ∧ (extract (methodSource "load" richParameters)).classes
        = [⟨"A", [⟨"load", entries, false⟩], 0⟩]
      ∧ ')' ∉ richParameters.toList
      ∧ (∀ start place name, ¬ Introduces VariableLead (fun _ => True)
        (functionSource "load" richParameters).toList start place name)
      ∧ (extract (functionSource "load" richParameters)).functions
        = [⟨"load", entries, false, 0⟩] := by
  have hf : IsIdentifier "load".toList :=
    ⟨⟨'l', rfl, by decide⟩, List.all_eq_true.mp (by decide +kernel)⟩
  have hclass : (extract (methodSource "load" richParameters)).classes
      = [⟨"A", [⟨"load", ["\x7b a = [1, 2], b \x7d = \x7b\x7d", "wait = x => x",
        "// no (\n mark = '(', ...rest"], false⟩], 0⟩] := by decide +kernel
  have hclose : ')' ∉ richParameters.toList := by decide
  have hwords : ∀ word ∈ ["const", "let", "var"],
      ¬ word.toList <:+: (functionSource "load" richParameters).toList := by decide +kernel
  have hvariable : ∀ start place name, ¬ Introduces VariableLead (fun _ => True)
      (functionSource "load" richParameters).toList start place name := by
    rintro start place name ⟨u, x, v, hsource, -, -, ⟨word, hword, b, rfl, -⟩, -⟩
    refine hwords word hword ⟨u, b ++ (name.toList ++ v), ?_⟩
    rw [hsource]
    simp
  exact ⟨_, rfl, hf, hclass, hclose, hvariable,
    functions_functionSource hf hclass hclose hvariable⟩

/-- **A parenthesis in a default value closes the list of a function**, and not that of a method. -/
theorem not_functions_functionSource :
    ¬ ∀ (f parameters : String) (entries : List String) (isAsync : Bool) (offset : Nat),
      IsIdentifier f.toList → f ∉ nonMethodNames →
        (extract (methodSource f parameters)).classes
          = [⟨"A", [⟨f, entries, isAsync⟩], offset⟩] →
        ∃ isAsync' offset',
          (extract (functionSource f parameters)).functions = [⟨f, entries, isAsync', offset'⟩] := by
  intro hall
  have hclass : (extract (methodSource "f" "a = (1 + 2), b")).classes
      = [⟨"A", [⟨"f", ["a = (1 + 2)", "b"], false⟩], 0⟩] := by decide +kernel
  have hfunctions : (extract (functionSource "f" "a = (1 + 2), b")).functions
      = [⟨"f", ["a = (1 + 2"], false, 0⟩] := by decide +kernel
  obtain ⟨isAsync, offset, heq⟩ := hall "f" _ _ _ _
    ⟨⟨'f', rfl, by decide⟩, List.all_eq_true.mp (by decide +kernel)⟩ (by decide) hclass
  rw [hfunctions] at heq
  simp at heq

end Scaffold

/-
Scaffold/Proofs/Document/Calls.lean

The calls of a document, and their arguments.

A placeholder is a parameter by itself, and closes its brackets: the arrow of a
callback is a closing bracket to the counter, but it stands where no bracket is
open, and is absorbed.  So placeholders are parameters side by side, and a list of
arguments splits into the placeholders it was made of
(`splitParameters_argumentList`), however many there are.

In a document the results of calls are kept on lines of their own (`callLines`).
Every other line begins with other words, whatever the names in it, so these lines
are one for each function and each method of a class that is tested, in their order,
and each has one argument for each parameter (`calls_keep_arity`).
-/
import Scaffold.Proofs.Document.Groups
import Scaffold.Proofs.Text.Commas

namespace Scaffold

open Text

/-! ### Lists of arguments -/

/-- What can be passed for a parameter. -/
def placeholders : List String := fallbackPlaceholder :: placeholderRules.map Prod.snd

theorem placeholder_mem (raw : String) : placeholder raw ∈ placeholders := by
  rw [placeholder]
  split
  next rule expression hfind =>
    exact List.mem_cons_of_mem _ (List.mem_map_of_mem (List.mem_of_find?_eq_some hfind))
  next => exact List.mem_cons_self

/-- A placeholder is its own list of parameters, and closes its brackets. -/
theorem whole_and_closed_of_placeholder :
    ∀ p ∈ placeholders, splitParameters p.toList = [p] ∧ ClosesBrackets p.toList := by
  decide +kernel

theorem areParameters_placeholders (parameters : List String) :
    AreParameters (parameters.map placeholder) := by
  induction parameters with
  | nil => exact .nil
  | cons raw parameters ih =>
    obtain ⟨hwhole, hclose⟩ := whole_and_closed_of_placeholder _ (placeholder_mem raw)
    exact .cons hwhole hclose ih

/-- **A list of arguments splits into its placeholders.** -/
theorem splitParameters_argumentList (parameters : List String) :
    splitParameters (argumentList parameters).toList = parameters.map placeholder :=
  (areParameters_placeholders parameters).splitParameters_eq

/-- What stands between the first opening parenthesis of a text and the last closing one. -/
def betweenParentheses (cs : List Char) : List Char :=
  (dropEndWhile (· != ')') ((cs.dropWhile (· != '(')).drop 1)).dropLast

theorem betweenParentheses_append {u : List Char} (h : '(' ∉ u) (args : List Char) :
    betweenParentheses (u ++ '(' :: (args ++ [')', ';'])) = args := by
  have hopen : (u ++ '(' :: (args ++ [')', ';'])).dropWhile (· != '(')
      = '(' :: (args ++ [')', ';']) := by
    rw [List.dropWhile_append_of_pos fun c hc => by simpa using ne_of_mem_of_not_mem hc h]
    rfl
  have hclose : dropEndWhile (· != ')') (args ++ [')', ';']) = args ++ [')'] :=
    dropEndWhile_append (by decide) args
  rw [betweenParentheses, hopen, List.drop_one, List.tail_cons, hclose, List.dropLast_concat]

/-! ### Lines with a call -/

/-- The words in front of a call whose result is kept. -/
def callWords : String := "const result = "

/-- Whether a line keeps the result of a call. -/
def isCallLine (l : String) : Bool := callWords.toList.isPrefixOf (trimStart l.toList)

/-- The lines that keep the result of a call. -/
def callLines (lines : List String) : List String := lines.filter isCallLine

/-- Whether a text begins with other words than a call, and with no blank. -/
def beginsNoCall (s : String) : Bool :=
  s.toList.head?.any (fun c => !isBlank c)
    && !callWords.toList.isPrefixOf s.toList && !s.toList.isPrefixOf callWords.toList

theorem callLines_append (xs ys : List String) :
    callLines (xs ++ ys) = callLines xs ++ callLines ys := List.filter_append xs ys

theorem callLines_flatMap {α : Type} (xs : List α) (f : α → List String) :
    callLines (xs.flatMap f) = xs.flatMap (fun x => callLines (f x)) := List.filter_flatMap

theorem callLines_of_none {lines : List String} (h : ∀ l ∈ lines, isCallLine l = false) :
    callLines lines = [] := List.filter_eq_nil_iff.mpr fun l hl => by simp [h l hl]

/-- The indentation of a line does not matter. -/
theorem isCallLine_line (level : Nat) (text : String) :
    isCallLine (line level text) = isCallLine text := by
  have hblank : ∀ c ∈ List.replicate (2 * level) ' ', isBlank c = true := by
    intro c hc
    rw [List.eq_of_mem_replicate hc]
    rfl
  rw [isCallLine, isCallLine, toList_line, trimStart, List.dropWhile_append_of_pos hblank]
  rfl

theorem trimStart_append {first : String} (h : first.toList.head?.any (fun c => !isBlank c) = true)
    (rest : String) : trimStart (first ++ rest).toList = first.toList ++ rest.toList := by
  rw [String.toList_append]
  rcases hfirst : first.toList with - | ⟨c, cs⟩
  · rw [hfirst] at h
    cases h
  · rw [hfirst] at h
    exact List.dropWhile_cons_of_neg (by simpa using h)

theorem resultStatement_eq (isAsync : Bool) (call : String) :
    resultStatement isAsync call
      = callWords ++ ((if isAsync then "await " else "") ++ (call ++ ";")) := by
  rw [← String.append_assoc, ← String.append_assoc]
  rfl

theorem isCallLine_resultStatement (isAsync : Bool) (call : String) :
    isCallLine (resultStatement isAsync call) = true := by
  have htrim := @trimStart_append callWords (by decide +kernel)
  rw [isCallLine, resultStatement_eq, htrim, List.isPrefixOf_iff_prefix]
  exact List.prefix_append _ _

/-- A line that begins with other words keeps no result, whatever follows them. -/
theorem isCallLine_append {first : String} (h : beginsNoCall first = true) (rest : String) :
    isCallLine (first ++ rest) = false := by
  rw [beginsNoCall, Bool.and_eq_true, Bool.and_eq_true] at h
  obtain ⟨⟨hblank, hlong⟩, hshort⟩ := h
  rw [isCallLine, trimStart_append hblank, Bool.eq_false_iff]
  intro hprefix
  -- of two beginnings of one text one is a beginning of the other
  rcases List.prefix_or_prefix_of_prefix (List.isPrefixOf_iff_prefix.mp hprefix)
    (List.prefix_append first.toList rest.toList) with h | h
  · rw [List.isPrefixOf_iff_prefix.mpr h] at hlong
    cases hlong
  · rw [List.isPrefixOf_iff_prefix.mpr h] at hshort
    cases hshort

theorem isCallLine_construction (name : String) : isCallLine (construction name) = false := by
  have h := @isCallLine_append "const instance = new " (by decide +kernel) (name ++ "();")
  rw [← String.append_assoc] at h
  exact h

theorem isCallLine_definedAssertion (framework : Framework) :
    isCallLine (framework.definedAssertion "result") = false := by
  cases framework <;> decide

theorem isCallLine_instanceAssertion (framework : Framework) (name : String) :
    isCallLine (framework.instanceAssertion "instance" name) = false := by
  cases framework <;>
    (simp only [Framework.instanceAssertion, String.append_assoc]
     exact isCallLine_append (by decide) _)

theorem isCallLine_groupOpening (level : Nat) (name : String) :
    isCallLine (groupOpening level name) = false := by
  rw [groupOpening, isCallLine_line, String.append_assoc]
  exact isCallLine_append (by decide) _

theorem isCallLine_closing (level : Nat) : isCallLine (closing level) = false := by
  rw [closing, isCallLine_line]
  decide

theorem callLines_openCase (todo case : String) : callLines (openCase todo case) = [] := by
  refine callLines_of_none fun l hl => ?_
  simp only [openCase, List.mem_cons, List.not_mem_nil, or_false] at hl
  rcases hl with rfl | rfl | rfl <;> rw [isCallLine_line]
  · exact isCallLine_append (by decide) _
  · rw [String.append_assoc]
    exact isCallLine_append (by decide) _
  · decide

theorem callLines_headLines (framework : Framework) (o : Outline) (importPath unitName : String) :
    callLines (headLines framework o importPath unitName) = [] := by
  refine callLines_of_none fun l hl => ?_
  rcases List.mem_append.mp hl with hl | hl
  · cases framework with
    | jest => cases hl
    | mocha =>
      rw [List.mem_singleton.mp hl]
      decide
    | vitest =>
      rw [List.mem_singleton.mp hl]
      decide
  · rw [List.mem_singleton.mp hl, Outline.importStatement]
    simp only [String.append_assoc]
    exact isCallLine_append (by decide) _

/-- The case that calls something keeps one result. -/
theorem callLines_callCase (framework : Framework) (level : Nat) (isAsync : Bool)
    {setup : List String} (hsetup : ∀ s ∈ setup, isCallLine s = false) (call : String) :
    callLines (callCase framework level isAsync setup call)
      = [line (level + 1) (resultStatement isAsync call)] := by
  have hopening : callLines [line level (callHead isAsync ++ "\x7b")] = [] := by
    refine callLines_of_none fun l hl => ?_
    rw [List.mem_singleton.mp hl, isCallLine_line]
    cases isAsync <;> decide
  have hlines : callLines (setup.map (line (level + 1))) = [] := by
    refine callLines_of_none fun l hl => ?_
    obtain ⟨s, hs, rfl⟩ := List.mem_map.mp hl
    rw [isCallLine_line]
    exact hsetup s hs
  rw [callCase_eq, List.map_append, callLines_append, callLines_append, callLines_append, hopening,
    hlines]
  simp [callLines, isCallLine_line, isCallLine_resultStatement,
    isCallLine_definedAssertion, isCallLine_closing]

/-! ### What is called -/

/-- An expression that is called, with the parameters it was declared with. -/
structure Callee where
  expression : String
  isAsync : Bool
  parameters : List String
deriving DecidableEq, Repr

/-- The call with these arguments. -/
def Callee.call (c : Callee) (arguments : String) : String :=
  c.expression ++ "(" ++ arguments ++ ")"

/-- What is called to test a target: the function, or the methods of an instance. -/
def Target.callees : Target → List Callee
  | .function f => [⟨f.name, f.isAsync, f.parameters⟩]
  | .classItem c => c.methods.map (fun m => ⟨"instance." ++ m.name, m.isAsync, m.parameters⟩)

/-- What a document calls. -/
def Outline.callees (o : Outline) : List Callee := o.targets.flatMap Target.callees

/-- The line that keeps the result, the placeholders being the arguments. -/
def Callee.lineAt (c : Callee) (level : Nat) : String :=
  line level (resultStatement c.isAsync (c.call (argumentList c.parameters)))

/-- A line keeps the result of a call with one placeholder for each parameter.  The arguments are
what stands between the outer parentheses, where the called expression has none itself. -/
def Callee.IsCalledIn (c : Callee) (l : String) : Prop :=
  ∃ level arguments, l = line level (resultStatement c.isAsync (c.call arguments))
    ∧ splitParameters arguments.toList = c.parameters.map placeholder
    ∧ ('(' ∉ c.expression.toList → betweenParentheses l.toList = arguments.toList)

theorem Callee.isCalledIn_lineAt (c : Callee) (level : Nat) : c.IsCalledIn (c.lineAt level) := by
  refine ⟨level, argumentList c.parameters, rfl, splitParameters_argumentList _, fun hname => ?_⟩
  -- no parenthesis stands in front of the one behind the expression
  have htext : (c.lineAt level).toList
      = (List.replicate (2 * level) ' ' ++ (callWords.toList
          ++ ((if c.isAsync then "await " else "").toList ++ c.expression.toList)))
        ++ '(' :: ((argumentList c.parameters).toList ++ [')', ';']) := by
    simp only [lineAt, toList_line, resultStatement_eq, call, String.toList_append,
      List.append_assoc]
    rfl
  have hlead : '(' ∉ List.replicate (2 * level) ' ' ++ (callWords.toList
      ++ ((if c.isAsync then "await " else "").toList ++ c.expression.toList)) := by
    have hawaiting : '(' ∉ (if c.isAsync then "await " else "").toList := by
      cases c.isAsync <;> decide
    have hblank : '(' ∉ List.replicate (2 * level) ' ' := by simp
    simp only [List.mem_append, not_or]
    exact ⟨hblank, by decide, hawaiting, hname⟩
  rw [htext, betweenParentheses_append hlead]

theorem callLines_functionGroup (framework : Framework) (f : FunctionItem) :
    callLines (functionGroup framework f)
      = [Callee.lineAt ⟨f.name, f.isAsync, f.parameters⟩ 2] := by
  have hcase := @callLines_callCase framework 1 f.isAsync [] (by simp)
    (f.name ++ "(" ++ argumentList f.parameters ++ ")")
  simp only [functionGroup, callLines_append, callLines_openCase, hcase]
  have hblank : isCallLine "" = false := by decide
  simp [callLines, isCallLine_groupOpening, isCallLine_closing, hblank, Callee.lineAt, Callee.call]

theorem callLines_methodGroup (framework : Framework) (className : String) (m : MethodItem) :
    callLines (methodGroup framework className m)
      = [Callee.lineAt ⟨"instance." ++ m.name, m.isAsync, m.parameters⟩ 3] := by
  have hcase := @callLines_callCase framework 2 m.isAsync [construction className]
    (by simp [isCallLine_construction])
    ("instance." ++ m.name ++ "(" ++ argumentList m.parameters ++ ")")
  simp only [methodGroup, callLines_append, hcase]
  simp [callLines, isCallLine_groupOpening, isCallLine_closing, Callee.lineAt, Callee.call]

theorem callLines_classGroup (framework : Framework) (c : ClassItem) :
    callLines (classGroup framework c)
      = c.methods.map
        (fun m => Callee.lineAt ⟨"instance." ++ m.name, m.isAsync, m.parameters⟩ 3) := by
  -- the case that creates an instance calls nothing else
  have hcreate : callLines [groupOpening 0 c.name,
      line 1 "it('should create an instance', () => \x7b", line 2 (construction c.name),
      line 2 (framework.instanceAssertion "instance" c.name), closing 1] = [] := by
    refine callLines_of_none fun l hl => ?_
    simp only [List.mem_cons, List.not_mem_nil, or_false] at hl
    rcases hl with rfl | rfl | rfl | rfl | rfl
    · exact isCallLine_groupOpening 0 c.name
    · decide
    · exact (isCallLine_line 2 _).trans (isCallLine_construction c.name)
    · exact (isCallLine_line 2 _).trans (isCallLine_instanceAssertion framework c.name)
    · exact isCallLine_closing 1
  have hclose : callLines [closing 0] = [] :=
    callLines_of_none fun l hl => List.mem_singleton.mp hl ▸ isCallLine_closing 0
  have hmethod (m : MethodItem) : callLines ("" :: methodGroup framework c.name m)
      = [Callee.lineAt ⟨"instance." ++ m.name, m.isAsync, m.parameters⟩ 3] :=
    callLines_methodGroup framework c.name m
  rw [classGroup, callLines_append, callLines_append, hcreate, hclose, List.nil_append,
    List.append_nil, callLines_flatMap, funext hmethod, List.map_eq_flatMap]

/-- The level of the statements in the cases that call something. -/
def Target.callLevel : Target → Nat
  | .function _ => 2
  | .classItem _ => 3

/-- **The group of a target keeps the result of one call for each of its callees.** -/
theorem callLines_targetGroup (framework : Framework) (t : Target) :
    callLines (targetGroup framework t) = t.callees.map (fun c => c.lineAt t.callLevel) := by
  cases t with
  | function f => exact callLines_functionGroup framework f
  | classItem c =>
    rw [targetGroup, callLines_classGroup, Target.callees, List.map_map]
    rfl

theorem forall₂_callLines_groupsOf (framework : Framework) (ts : List Target) :
    List.Forall₂ Callee.IsCalledIn (ts.flatMap Target.callees)
      (callLines (groupsOf framework ts)) := by
  induction ts with
  | nil => exact .nil
  | cons t ts ih =>
    have hgroup : callLines ("" :: targetGroup framework t)
        = t.callees.map (fun c => c.lineAt t.callLevel) := callLines_targetGroup framework t
    rw [groupsOf, List.flatMap_cons, List.flatMap_cons, callLines_append, hgroup]
    refine List.rel_append ?_ ih
    rw [List.forall₂_map_right_iff, List.forall₂_same]
    exact fun c _ => c.isCalledIn_lineAt t.callLevel

/-- **Calls keep the arity of what they call.**  However many parameters there are, a list of
arguments splits into one placeholder for each; so a document keeps the result of one call for each
function and each method of a class it tests, in their order, and between the parentheses of that
call stands one placeholder for each parameter. -/
theorem calls_keep_arity :
    (∀ parameters : List String,
        splitParameters (argumentList parameters).toList = parameters.map placeholder)
      ∧ ∀ (framework : Framework) (o : Outline) (importPath unitName : String),
        List.Forall₂ Callee.IsCalledIn o.callees
          (callLines (documentLines framework o importPath unitName)) := by
  refine ⟨splitParameters_argumentList, fun framework o importPath unitName => ?_⟩
  rw [documentLines_eq, callLines_append, callLines_headLines, List.nil_append]
  exact forall₂_callLines_groupsOf framework o.targets

/-- A class with one method, whose parameters have arrows, braces and commas in them. -/
def watcherOutline : Outline :=
  ⟨[], [⟨"Watcher", [⟨"watch", ["callback: (e) => void", "\x7b a, b \x7d", "options = \x7b\x7d",
    "ids: Map<K, V>"], true⟩], 9⟩], [⟨"Watcher", false, 0⟩]⟩

/-- The line in which its method is called. -/
def watcherLine : String :=
  "      const result = await instance.watch(() => \x7b\x7d, undefined, \x7b\x7d, 1);"

/-- Four parameters are called with four placeholders, although one of them is an arrow. -/
theorem calls_keep_arity_watcher :
    '(' ∉ "instance.watch".toList
      ∧ callLines (documentLines .jest watcherOutline "./watcher" "watcher.ts") = [watcherLine]
      ∧ splitParameters (betweenParentheses watcherLine.toList)
        = ["() => \x7b\x7d", "undefined", "\x7b\x7d", "1"] := by
  have hname : '(' ∉ "instance.watch".toList := by decide
  have hlines : callLines (documentLines .jest watcherOutline "./watcher" "watcher.ts")
      = [watcherLine] := by
    decide +kernel
  refine ⟨hname, hlines, ?_⟩
  obtain ⟨-, hcalls⟩ := calls_keep_arity
  have hcalls := hcalls .jest watcherOutline "./watcher" "watcher.ts"
  have hcallees : watcherOutline.callees = [⟨"instance.watch", true, ["callback: (e) => void",
      "\x7b a, b \x7d", "options = \x7b\x7d", "ids: Map<K, V>"]⟩] := by
    decide +kernel
  rw [hlines, hcallees] at hcalls
  cases hcalls with
  | cons hcall _ =>
    obtain ⟨-, arguments, -, hsplit, hbetween⟩ := hcall
    rw [hbetween hname, hsplit]
    decide +kernel

end Scaffold

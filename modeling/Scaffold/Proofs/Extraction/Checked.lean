/-
Scaffold/Proofs/Extraction/Checked.lean

Extraction never cuts a text where it cannot be cut.

The functions that make an outline cut the text at offsets that are added up
from three sources: the matches of the patterns, the map of the text, and the
lengths of other cuts.  `Checked` has the same functions once more, each with a
check in front of every cut, every look at single bytes, every subtraction of
offsets and every capture it relies on.  One check that fails leaves nothing of
the whole extraction.

For each function a lemma says that its checks pass and that it gives what the
function without checks gives.  The offsets a match brings along are those of
parts of the searched text (`Pattern.exists_marks`), and the body of a class is
the part of the source between two braces (`Block`).

* `Checked.extractWith_passes_checks` — the checked extraction, with any recognizers, gives
  the outline of every text.
-/
import Scaffold.Proofs.Extraction.Located
import Scaffold.Proofs.Pattern.Kept

namespace Scaffold

open Text Pattern Scan

/-! ### Extraction with checks -/

namespace Checked

/-- The text captured for a slot, which has to take part in the match. -/
def text (m : Match) (slot : Slot) (source : List Char) : Option (List Char) :=
  (m.capture? slot).bind fun s => slice? s.start s.stop source

/-- Whether the text in front of an offset ends in an operator or opening bracket. -/
def inExpression (source : List Char) (offset : Nat) : Option Bool := do
  let before ← slice? 0 offset source
  return (trimEnd before).getLast?.any (fun c => expressionMarks.contains c)

/-- The function a match declares. -/
def functionOf (source : List Char) (m : Match) : Option FunctionItem := do
  let name ← text m .name source
  let parameters ← text m .parameters source
  return {
    name := String.ofList name
    parameters := splitParameters parameters
    isAsync := m.has .asyncMark
    offset := m.span.start }

/-- What one match stands for. -/
def read (r : Recognizer) (source : List Char) (m : Match) : Option (List Found) :=
  let offset := m.span.start
  match r with
  | .functionKeyword => do
    if ← inExpression source offset then return []
    return [.function (← functionOf source m)]
  | .boundFunction => do return [.function (← functionOf source m)]
  | .classKeyword => do
    let name := String.ofList (← text m .name source)
    return if heritageWords.contains name then [] else [.classNamed name offset]
  | .exportedDeclaration => do
    let name := String.ofList (← text m .name source)
    return if heritageWords.contains name then []
      else [.exporting ⟨name, m.has .defaultMark, offset⟩]
  | .exportedName => do
    let name := String.ofList (← text m .name source)
    return if nonNames.contains name then [] else [.exporting ⟨name, true, offset⟩]
  | .exportedList => do
    if m.has .typeMark then return []
    let entries ← text m .entries source
    return (splitWhere (· == ',') entries).filterMap
      (fun entry => (listedExport? entry offset).map .exporting)

/-- Everything of one shape in a source text. -/
def find (r : Recognizer) (source : List Char) (map : CodeMap) : Option (List Found) := do
  let found ← (r.patterns.flatMap (fun p => p.findAll source)).mapM fun m =>
    if map.isTopLevel m.span.start then read r source m else some []
  return found.flatten

/-- The body of the class at an offset, if it has one. -/
def bodySpan (source : List Char) (map : CodeMap) (offset : Nat) : Option (Option Span) :=
  match map.blockFrom offset with
  | none => some none
  | some body => do
    let brace ← difference? body.start 1
    let header ← slice? offset brace source
    return if header.contains ';' then none else some body

/-- Whether a member can begin after a text. -/
def canBeginMember (before : List Char) : Option Bool := do
  let kept := trimEnd before
  let gap ← slice? (byteLength kept) (byteLength before) before
  return gap.contains '\n' || (match kept.getLast? with
    | none => true
    | some c => c == '{' || c == ';' || c == '}')

/-- Whether a member can begin where a head does, its blanks aside. -/
def canBeginAt (text : List Char) (head : Span) : Option Bool := do
  let matched ← slice? head.start head.stop text
  let blanks ← difference? (byteLength matched) (byteLength (trimStart matched))
  let before ← slice? 0 (head.start + blanks) text
  canBeginMember before

/-- A class body as the checked cuts give it. -/
structure Body where
  source : List Char
  map : CodeMap
  span : Span
  /-- The text of the body. -/
  text : List Char
  /-- The parenthesis depths in the body. -/
  parens : List (Nat × Nat)

/-- The body along a span: its text is cut out of the source, and its bytes are looked at for
parentheses. -/
def body? (source : List Char) (map : CodeMap) (span : Span) : Option Body := do
  let text ← slice? span.start span.stop source
  let bytes ← bytes? span.start span.stop source
  return { source, map, span, text, parens := parenDepths map span.start 0 bytes }

/-- Whether a match in a body is the head of a callable member of it. -/
def isMember (b : Body) (m : Match) : Option Bool := do
  let name ← m.capture? .name
  let written ← text m .name b.text
  let offset := b.span.start + name.start
  if written.head? != some '#' && b.map.isCode offset
      && b.map.depthAt offset == b.map.depthAt b.span.start
      && parenDepthAt b.parens offset == 0 then
    canBeginAt b.text m.span
  else return false

/-- The parameters after a head, and the text after their closing parenthesis, if there is one. -/
def parametersAfter (b : Body) (m : Match) : Option (Option (List Char × List Char)) := do
  let opening ← difference? (b.span.start + m.span.stop) 1
  let behind ← bytes? opening b.span.stop b.source
  match closingParen b.map opening 0 behind with
  | none => return none
  | some closing =>
    let parameters ← slice? (opening + 1) closing b.source
    let rest ← slice? (closing + 1) b.span.stop b.source
    return some (parameters, rest)

/-- The member a head that counts stands for, if what follows it fits `tail`. -/
def written? (b : Body) (tail : Pattern) (m : Match) : Option (Option (Nat × MethodItem)) := do
  match ← parametersAfter b m with
  | none => return none
  | some (parameters, rest) =>
    if tail.leads rest then
      let name ← m.capture? .name
      let written ← text m .name b.text
      return some (b.span.start + name.start,
        { name := String.ofList written
          parameters := splitParameters parameters
          isAsync := m.has .asyncMark })
    else return none

/-- The member a head stands for, if it stands for one. -/
def member? (b : Body) (tail : Pattern) (m : Match) : Option (Option (Nat × MethodItem)) := do
  if ← isMember b m then written? b tail m else return none

/-- The method a head stands for.  A head is looked at before its name is known not to be one that
is left out. -/
def method? (b : Body) (m : Match) : Option (Option (Nat × MethodItem)) := do
  if m.has .accessor then return none
  else if ← isMember b m then
    let name ← text m .name b.text
    if nonMethodNames.contains (String.ofList name) then return none
    else written? b .methodTail m
  else return none

/-- The methods written as methods. -/
def plainMethods (b : Body) : Option (List (Nat × MethodItem)) := do
  let members ← (methodHead.findAll b.text).mapM (method? b)
  return members.filterMap id

/-- The methods written as fields that hold an arrow function. -/
def fieldMethods (b : Body) : Option (List (Nat × MethodItem)) := do
  let members ← (fieldHead.findAll b.text).mapM (member? b .fieldTail)
  return members.filterMap id

/-- The methods of a class body, in the order of their names in the source. -/
def methods (b : Body) : Option (List MethodItem) := do
  let plain ← plainMethods b
  let fields ← fieldMethods b
  return ((plain ++ fields).mergeSort (fun x y => decide (x.1 ≤ y.1))).map (·.2)

/-- The methods of a body, if there is one. -/
def bodyMethods (source : List Char) (map : CodeMap) : Option Span → Option (List MethodItem)
  | some span => do methods (← body? source map span)
  | none => some []

/-- The class of a finding, if it is one. -/
def class? (source : List Char) (map : CodeMap) : Found → Option (Option ClassItem)
  | .classNamed name offset => do
    let span ← bodySpan source map offset
    let methods ← bodyMethods source map span
    return some ⟨name, methods, offset⟩
  | _ => some none

/-- What the recognizers find in a text. -/
def findings (recognizers : List Recognizer) (source : List Char) (map : CodeMap) :
    Option (List Found) := do
  let found ← recognizers.mapM (fun r => find r source map)
  return found.flatten

/-- The outline a list of recognizers makes of a text. -/
def extractWith (recognizers : List Recognizer) (source : String) : Option Outline := do
  let cs := source.toList
  let map := CodeMap.ofText cs
  let found ← findings recognizers cs map
  let classes ← found.mapM (class? cs map)
  return {
    functions := sortByOffset (·.offset) (found.filterMap Found.function?)
    classes := sortByOffset (·.offset) (classes.filterMap id)
    exports := sortByOffset (·.offset) (found.filterMap Found.export?) }

/-! ### Matches -/

section Matches

variable {cs : List Char} {m : Match}

/-- Where every check passes, a list is gone through as without checks. -/
theorem mapM_eq_map {α β : Type} {f : α → Option β} {g : α → β} {xs : List α}
    (h : ∀ x ∈ xs, f x = some (g x)) : xs.mapM f = some (xs.map g) := by
  induction xs with
  | nil => rfl
  | cons x xs ih =>
    obtain ⟨hx, hxs⟩ := List.forall_mem_cons.mp h
    rw [List.mapM_cons, hx, ih hxs]
    rfl

theorem text_eq {p : Pattern} (hm : m ∈ p.findAll cs) {slot : Slot} (hslot : slot ∈ p.required) :
    text m slot cs = some (m.text slot cs) := by
  obtain ⟨s, n, hs, hn⟩ := exists_marks_of_required hm hslot
  rw [text, Match.text, hs]
  show slice? s.start s.stop cs = some (slice s.start s.stop cs)
  rw [slice_eq_of_slice? hn.slice?_eq, hn.slice?_eq]

theorem inExpression_eq {u v : List Char} (hcs : cs = u ++ v) :
    inExpression cs (byteLength u) = some (Scaffold.inExpression cs (byteLength u)) := by
  have hbefore : slice? 0 (byteLength u) cs = some u :=
    slice?_of_eq (u := []) hcs rfl (Nat.zero_add _).symm
  rw [inExpression, hbefore, Scaffold.inExpression, hcs, takeBytes_append]
  rfl

/-- The slots whose text a recognizer asks for. -/
def reads : Recognizer → List Slot
  | .functionKeyword | .boundFunction => [.name, .parameters]
  | .exportedList => [.entries]
  | _ => [.name]

/-- **What a recognizer asks for is in every match of its patterns.** -/
theorem reads_subset_required (r : Recognizer) : ∀ p ∈ r.patterns, reads r ⊆ p.required := by
  cases r <;> decide

theorem functionOf_eq (hname : text m .name cs = some (m.text .name cs))
    (hparameters : text m .parameters cs = some (m.text .parameters cs)) :
    functionOf cs m = some (Recognizer.functionOf cs m) := by
  rw [functionOf, hname, hparameters]
  rfl

theorem read_eq {r : Recognizer} {p : Pattern} (hp : p ∈ r.patterns) (hm : m ∈ p.findAll cs) :
    read r cs m = some (r.read cs m) := by
  have htext : ∀ slot ∈ reads r, text m slot cs = some (m.text slot cs) := fun slot hslot =>
    text_eq hm (reads_subset_required r p hp hslot)
  obtain ⟨⟨w, u, v, hcs, hspan⟩, -⟩ := exists_marks hm
  cases r with
  | functionKeyword =>
    have hplace : inExpression cs m.span.start
        = some (Scaffold.inExpression cs m.span.start) := by
      rw [hspan]
      exact inExpression_eq hcs
    rw [read, functionOf_eq (htext .name (by simp [reads])) (htext .parameters (by simp [reads])),
      hplace, Recognizer.read]
    cases Scaffold.inExpression cs m.span.start <;> rfl
  | boundFunction =>
    rw [read, functionOf_eq (htext .name (by simp [reads])) (htext .parameters (by simp [reads]))]
    rfl
  | classKeyword =>
    rw [read, htext .name (by simp [reads])]
    rfl
  | exportedDeclaration =>
    rw [read, htext .name (by simp [reads])]
    rfl
  | exportedName =>
    rw [read, htext .name (by simp [reads])]
    rfl
  | exportedList =>
    rw [read, htext .entries (by simp [reads]), Recognizer.read]
    cases m.has .typeMark <;> rfl

/-- **No check of a recognizer fails.** -/
theorem find_eq (r : Recognizer) (cs : List Char) (map : CodeMap) :
    find r cs map = some (r.find cs map) := by
  have hread : ∀ m ∈ r.patterns.flatMap (fun p => p.findAll cs),
      (if map.isTopLevel m.span.start then read r cs m else some [])
        = some (if map.isTopLevel m.span.start then r.read cs m else []) := by
    intro m hm
    obtain ⟨p, hp, hm⟩ := List.mem_flatMap.mp hm
    rw [read_eq hp hm]
    split_ifs <;> rfl
  rw [find, mapM_eq_map hread, Recognizer.find, List.flatMap_def (l := r.patterns.flatMap _)]
  rfl

end Matches

/-! ### Bodies -/

section Bodies

variable {cs front inside back : List Char} {m : Match}

/-- **The header of a class can be cut out**: it ends where the opening brace of the body stands,
and that is behind the offset of the class. -/
theorem bodySpan_eq {u v : List Char} (hcs : cs = u ++ v)
    (hdepth : (CodeMap.ofText cs).depthAt (byteLength u) = 0) :
    bodySpan cs (.ofText cs) (byteLength u)
      = some (Scaffold.bodySpan cs (.ofText cs) (byteLength u)) := by
  rw [bodySpan, Scaffold.bodySpan]
  rcases hblock : (CodeMap.ofText cs).blockFrom (byteLength u) with - | body
  · -- no block follows, so there is nothing to cut
    rfl
  · have hlt := lt_start_of_blockFrom hblock
    obtain ⟨front, inside, back, h, rfl⟩ := block_parts hdepth hblock
    have hstart : (insideOf front inside).start = byteLength front + 1 := rfl
    obtain ⟨w, rfl, -⟩ := eq_append_of_byteLength_le (hcs.symm.trans h.text_eq) (by omega)
    have hheader : slice? (byteLength u) ((insideOf (u ++ w) inside).start - 1) cs = some w := by
      refine slice?_of_eq (by rw [h.text_eq, List.append_assoc]) rfl ?_
      rw [hstart, Nat.add_sub_cancel, byteLength_append]
    have hbrace : difference? (insideOf (u ++ w) inside).start 1
        = some ((insideOf (u ++ w) inside).start - 1) := difference?_of_le (by omega)
    simp only [Option.bind_eq_bind, Option.bind_some, hbrace, hheader, slice_eq_of_slice? hheader]
    rfl

theorem canBeginMember_eq (before : List Char) :
    canBeginMember before = some (Scaffold.canBeginMember before) := by
  obtain ⟨gap, hgap⟩ : trimEnd before <+: before := dropEndWhile_isPrefix isBlank before
  have hcut : slice? (byteLength (trimEnd before)) (byteLength before) before = some gap := by
    refine slice?_of_eq (v := []) (by rw [List.append_nil, hgap]) rfl ?_
    rw [← byteLength_append, hgap]
  have hdrop : before.drop (trimEnd before).length = gap :=
    calc before.drop (trimEnd before).length
      _ = (trimEnd before ++ gap).drop (trimEnd before).length := by rw [hgap]
      _ = gap := List.drop_left
  rw [canBeginMember, hcut, Scaffold.canBeginMember, hdrop]
  rfl

theorem canBeginAt_eq {text w : List Char} {head : Span} (h : head.Marks text w) :
    canBeginAt text head = some (Scaffold.canBeginMember (takeBytes
      (head.start + byteLength ((slice head.start head.stop text).takeWhile isBlank)) text)) := by
  have hmatched := h.slice?_eq
  rw [canBeginAt, hmatched, slice_eq_of_slice? hmatched]
  obtain ⟨u, v, htext, rfl⟩ := h
  -- the head is its blanks and the rest; what stands in front of the rest is in front of a member
  have hsplit : w = w.takeWhile isBlank ++ trimStart w := List.takeWhile_append_dropWhile.symm
  have hlength : byteLength w = byteLength (w.takeWhile isBlank) + byteLength (trimStart w) := by
    rw [← byteLength_append, ← hsplit]
  have hbefore : text = (u ++ w.takeWhile isBlank) ++ (trimStart w ++ v) := by
    rw [htext, List.append_assoc, ← List.append_assoc (w.takeWhile isBlank), ← hsplit]
  have hblanks : difference? (byteLength w) (byteLength (trimStart w))
      = some (byteLength (w.takeWhile isBlank)) := by
    rw [difference?_of_le (by omega), hlength, Nat.add_sub_cancel]
  have hcut : slice? 0 (byteLength u + byteLength (w.takeWhile isBlank)) text
      = some (u ++ w.takeWhile isBlank) :=
    slice?_of_eq (u := []) hbefore rfl (by rw [byteLength_append]; exact (Nat.zero_add _).symm)
  have htake : takeBytes (byteLength u + byteLength (w.takeWhile isBlank)) text
      = u ++ w.takeWhile isBlank := by
    rw [← byteLength_append, hbefore, takeBytes_append]
  simp only [Option.bind_eq_bind, Option.bind_some, hblanks, hcut, canBeginMember_eq, htake]

/-- A class body without the facts about its parts. -/
def Body.ofClassBody (b : ClassBody) : Body := ⟨b.source, b.map, b.span, b.text, b.parens⟩

@[simp] theorem Body.text_ofClassBody (b : ClassBody) : (Body.ofClassBody b).text = b.text := rfl

/-- **The text of a body can be cut out**: a body stands between two places of the source. -/
theorem body?_eq (h : Block cs front inside back) :
    body? cs (.ofText cs) (insideOf front inside)
      = some (.ofClassBody (.within cs front inside)) := by
  have hcs : cs = front ++ ['{'] ++ (inside ++ back) := by
    rw [h.text_eq]
    simp
  have hstart : (insideOf front inside).start = byteLength (front ++ ['{']) :=
    (byteLength_append front ['{']).symm
  have hstop : (insideOf front inside).stop = byteLength (front ++ ['{']) + byteLength inside := by
    rw [byteLength_append]
    rfl
  rw [body?, slice?_of_eq hcs hstart hstop, bytes?_of_eq hcs hstart hstop, Body.ofClassBody,
    ClassBody.parens_eq, ClassBody.text_within h]
  rfl

theorem isMember_eq {b : ClassBody} {p : Pattern} (hm : m ∈ p.findAll b.text)
    (hslot : .name ∈ p.required) : isMember (.ofClassBody b) m = some (b.isMember m) := by
  obtain ⟨⟨w, hw⟩, -⟩ := exists_marks hm
  obtain ⟨name, n, hname, -⟩ := exists_marks_of_required hm hslot
  rw [isMember, ClassBody.isMember, hname]
  simp only [Option.bind_eq_bind, Option.bind_some, Body.ofClassBody, text_eq hm hslot,
    canBeginAt_eq hw]
  split_ifs with hcounts
  · rw [hcounts, Bool.true_and]
  · rw [Bool.eq_false_iff.mpr hcounts, Bool.false_and]
    rfl

/-- **The text around the parameters can be cut out**: the parenthesis that opens them and the one
that closes them are different places of the source. -/
theorem parametersAfter_eq {b : ClassBody} {x v : List Char}
    (hsource : b.source = x ++ ('(' :: v ++ back))
    (hopening : b.span.start + m.span.stop = byteLength x + 1)
    (hstop : b.span.stop = byteLength x + byteLength ('(' :: v)) :
    parametersAfter (.ofClassBody b) m = some (b.parametersAfter m) := by
  have hplace : difference? (byteLength x + 1) 1 = some (byteLength x) :=
    difference?_of_le (Nat.le_add_left 1 _)
  have hbytes : bytes? (byteLength x) b.span.stop b.source = some ('(' :: v) :=
    bytes?_of_eq hsource rfl hstop
  have hbehind : slice (byteLength x) b.span.stop b.source = '(' :: v :=
    slice_eq_of_slice? (slice?_of_eq hsource rfl hstop)
  rw [parametersAfter, ClassBody.parametersAfter, hopening, Nat.add_sub_cancel]
  simp only [Option.bind_eq_bind, Option.bind_some, Body.ofClassBody, hopening, hplace, hbytes,
    hbehind]
  rcases hclosing : closingParen b.map (byteLength x) 0 ('(' :: v) with - | closing
  · -- the parameters do not close
    rfl
  · obtain ⟨w, y, hw, rfl⟩ := closingParen_at hclosing
    obtain ⟨w, rfl⟩ : ∃ w', w = '(' :: w' := by
      cases w with
      | nil => cases hw
      | cons c w =>
        obtain ⟨rfl, -⟩ := List.cons.inj hw
        exact ⟨w, rfl⟩
    rw [hw] at hsource hstop
    obtain ⟨hparameters, hrest⟩ := slices_around hsource
    rw [← hstop] at hrest
    simp only [Option.map_some, hparameters, hrest, slice_eq_of_slice? hparameters,
      slice_eq_of_slice? hrest, Option.bind_some]
    rfl

theorem name_mem_required {p : Pattern} (hp : p ∈ [methodHead, fieldHead]) :
    .name ∈ p.required := by
  revert p
  decide

section Heads

variable {p : Pattern} (h : Block cs front inside back) (hp : p ∈ [methodHead, fieldHead])
  (hm : m ∈ p.findAll (ClassBody.within cs front inside).text)

include h hp hm

theorem written?_eq (hcounts : (ClassBody.within cs front inside).isMember m = true)
    (tail : Pattern) : written? (.ofClassBody (.within cs front inside)) tail m
      = some ((ClassBody.within cs front inside).member? tail m) := by
  have hwritten := text_eq hm (name_mem_required hp)
  obtain ⟨name, n, hname, -⟩ := exists_marks_of_required hm (name_mem_required hp)
  have hafter : parametersAfter (.ofClassBody (.within cs front inside)) m
      = some ((ClassBody.within cs front inside).parametersAfter m) := by
    rw [ClassBody.text_within h] at hm
    obtain ⟨u, n, y, v, -, -, -, hhead, -⟩ := parts_of_head hp hm
    generalize u ++ (n ++ y) = u at hhead
    obtain ⟨hcs, hplace⟩ := eq_at_inside h hhead.text_eq
    refine parametersAfter_eq hcs ?_ ?_
    · rw [hhead.stop_eq, hplace, Nat.add_assoc]
      rfl
    · rw [hplace, Nat.add_assoc, ← byteLength_append, ← hhead.text_eq]
      rfl
  rw [written?, ClassBody.member?, if_pos hcounts, hafter, hname]
  simp only [Option.bind_eq_bind, Option.bind_some, Body.ofClassBody, hwritten]
  rcases (ClassBody.within cs front inside).parametersAfter m with - | ⟨parameters, rest⟩
  · rfl
  · show (if tail.leads rest then some _ else some none) = some (if tail.leads rest then _ else _)
    split_ifs <;> rfl

/-- **No check of a head fails**, whatever becomes of it. -/
theorem member?_eq (tail : Pattern) : member? (.ofClassBody (.within cs front inside)) tail m
    = some ((ClassBody.within cs front inside).member? tail m) := by
  rw [member?, isMember_eq hm (name_mem_required hp)]
  cases hcounts : (ClassBody.within cs front inside).isMember m with
  | true => exact written?_eq h hp hm hcounts tail
  | false =>
    rw [ClassBody.member?, hcounts]
    rfl

end Heads

theorem method?_eq (h : Block cs front inside back)
    (hm : m ∈ methodHead.findAll (ClassBody.within cs front inside).text) :
    method? (.ofClassBody (.within cs front inside)) m
      = some (if m.has .accessor
            || nonMethodNames.contains (String.ofList
              (m.text .name (ClassBody.within cs front inside).text)) then none
          else (ClassBody.within cs front inside).member? .methodTail m) := by
  have hp : methodHead ∈ [methodHead, fieldHead] := by simp
  have hname := text_eq hm (name_mem_required hp)
  rw [method?]
  cases m.has .accessor with
  | true => rfl
  | false =>
    rw [isMember_eq hm (name_mem_required hp), Body.text_ofClassBody, hname, Bool.false_or,
      if_neg Bool.false_ne_true]
    cases hcounts : (ClassBody.within cs front inside).isMember m with
    | true =>
      have hwritten := written?_eq h hp hm hcounts .methodTail
      simp only [Option.bind_eq_bind, Option.bind_some, if_true, hwritten]
      split_ifs <;> rfl
    | false =>
      -- what is no member is left out, whatever its name
      rw [ClassBody.member?, hcounts, if_neg Bool.false_ne_true, ite_self]
      rfl

/-- **No check in a body fails.** -/
theorem methods_eq (h : Block cs front inside back) :
    methods (.ofClassBody (.within cs front inside))
      = some (ClassBody.within cs front inside).methods := by
  have hplain : plainMethods (.ofClassBody (.within cs front inside))
      = some (ClassBody.within cs front inside).plainMethods := by
    rw [plainMethods, Body.text_ofClassBody, ClassBody.plainMethods, mapM_eq_map]
    · show some (List.filterMap id (List.map _ _)) = _
      rw [List.filterMap_map]
      rfl
    · exact fun m hm => method?_eq h hm
  have hfields : fieldMethods (.ofClassBody (.within cs front inside))
      = some (ClassBody.within cs front inside).fieldMethods := by
    have hmember : ∀ m ∈ fieldHead.findAll (ClassBody.within cs front inside).text,
        member? (.ofClassBody (.within cs front inside)) .fieldTail m
          = some ((ClassBody.within cs front inside).member? .fieldTail m) := fun m hm =>
      member?_eq h (by simp) hm _
    rw [fieldMethods, Body.text_ofClassBody, mapM_eq_map hmember]
    show some (List.filterMap id (List.map _ _)) = _
    rw [List.filterMap_map]
    rfl
  rw [methods, hplain, hfields]
  rfl

end Bodies

/-! ### Outlines -/

section Outlines

variable {cs : List Char}

theorem bodyMethods_eq {offset : Nat} (hdepth : (CodeMap.ofText cs).depthAt offset = 0) :
    bodyMethods cs (.ofText cs) (Scaffold.bodySpan cs (.ofText cs) offset)
      = some (Scaffold.bodyMethods cs (.ofText cs) (Scaffold.bodySpan cs (.ofText cs) offset)) := by
  rcases hspan : Scaffold.bodySpan cs (.ofText cs) offset with - | span
  · rfl
  · obtain ⟨front, inside, back, h, rfl⟩ := block_of_bodySpan hdepth hspan
    rw [bodyMethods, body?_eq h]
    exact methods_eq h

/-- **No check in the body of a class fails.** -/
theorem class?_eq {r : Recognizer} {f : Found} (hf : f ∈ r.find cs (.ofText cs)) :
    class? cs (.ofText cs) f = some (f.class? cs (.ofText cs)) := by
  cases f with
  | function | exporting => rfl
  | classNamed name offset =>
    obtain ⟨p, hp, m, hm, htop, hread⟩ := mem_find_iff.mp hf
    obtain rfl := offset_of_classNamed_mem hread
    obtain ⟨⟨w, u, v, hcs, hspan⟩, -⟩ := exists_marks hm
    have hdepth := depthAt_of_isTopLevel htop
    rw [hspan] at hdepth
    rw [hspan, class?, bodySpan_eq hcs hdepth]
    show (bodyMethods cs _ _).bind _ = _
    rw [bodyMethods_eq hdepth]
    rfl

theorem findings_eq (recognizers : List Recognizer) (cs : List Char) (map : CodeMap) :
    findings recognizers cs map = some (Scaffold.findings recognizers cs map) := by
  rw [findings, mapM_eq_map fun r _ => find_eq r cs map, Scaffold.findings, List.flatMap_def]
  rfl

/-- **No check fails, in any text.** -/
theorem extractWith_passes_checks (recognizers : List Recognizer) (source : String) :
    extractWith recognizers source = some (Scaffold.extractWith recognizers source) := by
  have hclass : ∀ f ∈ Scaffold.findings recognizers source.toList (.ofText source.toList),
      class? source.toList (.ofText source.toList) f
        = some (f.class? source.toList (.ofText source.toList)) := by
    intro f hf
    obtain ⟨r, -, hfind⟩ := List.mem_flatMap.mp hf
    exact class?_eq hfind
  rw [extractWith, Scaffold.extractWith]
  simp only [Option.bind_eq_bind, Option.bind_some, findings_eq, mapM_eq_map hclass,
    List.filterMap_map]
  rfl

end Outlines

end Checked

end Scaffold

/-
Scaffold/Proofs/Extraction/Shifted.lean

The outline of a text that stands further on.

White space, semicolons and closing braces in front of a text move everything
in its outline by their length, and change nothing else (`extract_append`).  Each
step of the extraction is compared with itself in the text alone: the map of the
text is moved (`CodeMap.moved_ofText`), so are the matches, for no declaration
begins in what stands in front and no word ends there (`findAll_neutral`), and so
is what a match stands for (`read_shift`).  The body of a class has the text it
had, and its methods depend on no more (`bodyMethods_eq_alone`).
-/
import Scaffold.Proofs.Extraction.Written
import Scaffold.Proofs.Pattern.Shift
import Scaffold.Proofs.Text.Pieces

namespace Scaffold

open Text Pattern Scan

/-! ### Items further on -/

/-- A function further on. -/
def FunctionItem.shift (d : Nat) (f : FunctionItem) : FunctionItem :=
  { f with offset := d + f.offset }

/-- A class further on. -/
def ClassItem.shift (d : Nat) (c : ClassItem) : ClassItem := { c with offset := d + c.offset }

/-- An export further on. -/
def ExportItem.shift (d : Nat) (e : ExportItem) : ExportItem := { e with offset := d + e.offset }

/-- An outline with each offset moved by `d` bytes. -/
def Outline.shift (d : Nat) (o : Outline) : Outline where
  functions := o.functions.map (FunctionItem.shift d)
  classes := o.classes.map (ClassItem.shift d)
  exports := o.exports.map (ExportItem.shift d)

/-- A finding further on. -/
def Found.shift (d : Nat) : Found → Found
  | .function f => .function (f.shift d)
  | .classNamed name offset => .classNamed name (d + offset)
  | .exporting e => .exporting (e.shift d)

/-! ### Behind a neutral text -/

/-- What is so of the blanks, the semicolon and the closing brace is so of a neutral text. -/
theorem of_isNeutral {q : Char → Bool} (hall : (';' :: '}' :: blankChars).all (fun d => !q d) = true)
    {c : Char} (h : isNeutral c = true) : q c = false := by
  simp only [List.all_cons, Bool.and_eq_true, Bool.not_eq_true'] at hall
  obtain ⟨hsemicolon, hbrace, hblanks⟩ := hall
  rw [isNeutral, Bool.or_eq_true, Bool.or_eq_true, beq_iff_eq, beq_iff_eq] at h
  rcases h with (h | rfl) | rfl
  · exact of_isBlank hblanks h
  · exact hsemicolon
  · exact hbrace

/-- No declaration begins in a neutral text. -/
theorem not_starts_of_isNeutral {p : Pattern} (hp : p ∈ Recognizer.all.flatMap Recognizer.patterns)
    {c : Char} (h : isNeutral c = true) : p.starts c = false := by
  have hall : (Recognizer.all.flatMap Recognizer.patterns).all
      (fun p => (';' :: '}' :: blankChars).all fun d => !p.starts d) = true := by decide +kernel
  exact of_isNeutral (List.all_eq_true.mp hall p hp) h

section Neutral

variable {u : List Char} (hu : ∀ c ∈ u, isNeutral c = true) (v : List Char)

include hu

theorem findAll_neutral {p : Pattern} (hp : p ∈ Recognizer.all.flatMap Recognizer.patterns) :
    p.findAll (u ++ v) = (p.findAll v).map (Match.shift (byteLength u)) :=
  findAll_append (declaration_starts hp).1 (fun c hc => not_starts_of_isNeutral hp (hu c hc))
    (fun c hc => of_isNeutral (by decide +kernel) (hu c hc)) v

/-- The look at what precedes an offset ends at a neutral text, as at the beginning. -/
theorem inExpression_neutral (offset : Nat) :
    inExpression (u ++ v) (byteLength u + offset) = inExpression v offset := by
  rw [inExpression, inExpression, takeBytes_append_add, trimEnd, trimEnd]
  -- only where all that is in front of the offset is blank does the look reach the neutral text
  by_cases hkept : dropEndWhile isBlank (takeBytes offset v) = []
  · rw [dropEndWhile_append_of_nil hkept, hkept]
    rcases hlast : (dropEndWhile isBlank u).getLast? with - | c
    · rfl
    · have hmem : c ∈ u := (dropEndWhile_isPrefix isBlank u).subset (List.mem_of_getLast? hlast)
      exact of_isNeutral (q := expressionMarks.contains) (by decide +kernel) (hu c hmem)
  · rw [dropEndWhile_append hkept, List.getLast?_append_of_ne_nil _ hkept]

/-! ### What a match stands for -/

omit hu in
theorem listedExport?_shift (d : Nat) (entry : List Char) (offset : Nat) :
    listedExport? entry (d + offset) = (listedExport? entry offset).map (ExportItem.shift d) := by
  have hitem : ∀ inner outer, listedExport?.item (d + offset) inner outer
      = (listedExport?.item offset inner outer).shift d := by
    intro inner outer
    rw [listedExport?.item, listedExport?.item]
    split_ifs <;> rfl
  rw [listedExport?, listedExport?]
  split <;> simp only [Option.map_some, Option.map_none, hitem]

omit hu in
theorem functionOf_shift (m : Match) :
    Recognizer.functionOf (u ++ v) (m.shift (byteLength u))
      = (Recognizer.functionOf v m).shift (byteLength u) := by
  rw [Recognizer.functionOf, Recognizer.functionOf, Match.text_shift, Match.text_shift,
    Match.has_shift]
  rfl

/-- **A match further on stands for the same, further on.** -/
theorem read_shift (r : Recognizer) (m : Match) :
    r.read (u ++ v) (m.shift (byteLength u)) = (r.read v m).map (Found.shift (byteLength u)) := by
  have hstart : (m.shift (byteLength u)).span.start = byteLength u + m.span.start := rfl
  cases r with
  | functionKeyword =>
    simp only [Recognizer.read, functionOf_shift, hstart, inExpression_neutral hu]
    split_ifs <;> rfl
  | boundFunction =>
    simp only [Recognizer.read, functionOf_shift]
    rfl
  | exportedList =>
    simp only [Recognizer.read, Match.text_shift, Match.has_shift, hstart, listedExport?_shift]
    split_ifs
    · -- a list of types exports nothing
      rfl
    · rw [List.map_filterMap]
      refine List.filterMap_congr fun entry _ => ?_
      cases listedExport? entry m.span.start <;> rfl
  | _ =>
    simp only [Recognizer.read, Match.text_shift, Match.has_shift, hstart]
    split_ifs <;> rfl

theorem find_shift {r : Recognizer} (hr : r ∈ Recognizer.all) :
    r.find (u ++ v) (.ofText (u ++ v))
      = (r.find v (.ofText v)).map (Found.shift (byteLength u)) := by
  have hmatches : r.patterns.flatMap (fun p => p.findAll (u ++ v))
      = (r.patterns.flatMap fun p => p.findAll v).map (Match.shift (byteLength u)) := by
    rw [List.map_flatMap]
    refine List.flatMap_congr fun p hp => ?_
    exact findAll_neutral hu v (List.mem_flatMap.mpr ⟨r, hr, hp⟩)
  rw [Recognizer.find, Recognizer.find, hmatches, List.flatMap_map, List.map_flatMap]
  refine List.flatMap_congr fun m _ => ?_
  rw [read_shift hu]
  have htop := (CodeMap.moved_ofText hu v).isTopLevel_eq m.span.start
  change (CodeMap.ofText (u ++ v)).isTopLevel (m.shift (byteLength u)).span.start = _ at htop
  rw [htop]
  split_ifs <;> rfl

theorem findings_shift :
    findings Recognizer.all (u ++ v) (.ofText (u ++ v))
      = (findings Recognizer.all v (.ofText v)).map (Found.shift (byteLength u)) := by
  rw [findings, findings, List.map_flatMap]
  exact List.flatMap_congr fun r hr => find_shift hu v hr

/-! ### Bodies -/

/-- The body of a class further on is its body further on. -/
theorem bodySpan_shift (offset : Nat) :
    bodySpan (u ++ v) (.ofText (u ++ v)) (byteLength u + offset)
      = (bodySpan v (.ofText v) offset).map (Span.shift (byteLength u)) := by
  rw [bodySpan, bodySpan, (CodeMap.moved_ofText hu v).blockFrom_eq]
  rcases hblock : (CodeMap.ofText v).blockFrom offset with - | body
  · rfl
  · -- a body begins behind its brace, so what is in front of it is cut at the same place
    obtain ⟨early, closing, opening, rest, -, -, -, -, rfl⟩ := blockFrom_cases hblock
    have hslice := slice_append_add u v offset opening.offset
    simp only [Option.map_some, Option.bind_some, Span.shift, Nat.add_sub_cancel, ← Nat.add_assoc,
      hslice]
    split_ifs <;> rfl

/-- A body further on has the same methods. -/
theorem bodyMethods_shift {offset : Nat} (hdepth : (CodeMap.ofText v).depthAt offset = 0) :
    bodyMethods (u ++ v) (.ofText (u ++ v))
        (bodySpan (u ++ v) (.ofText (u ++ v)) (byteLength u + offset))
      = bodyMethods v (.ofText v) (bodySpan v (.ofText v) offset) := by
  have hspan' := bodySpan_shift hu v offset
  rcases hspan : bodySpan v (.ofText v) offset with - | span
  · rw [hspan', hspan]
    rfl
  · rw [hspan, Option.map_some] at hspan'
    -- in both texts the methods are those of the body's text standing alone
    have hdepth' := (CodeMap.moved_ofText hu v).depthAt_eq offset
    rw [hspan', bodyMethods_eq_alone hdepth hspan,
      bodyMethods_eq_alone (hdepth'.trans hdepth) hspan']
    exact congrArg (fun inside => (ClassBody.alone inside).methods)
      (slice_append_add u v span.start span.stop)

theorem class?_shift {f : Found} (hf : f ∈ findings Recognizer.all v (.ofText v)) :
    (f.shift (byteLength u)).class? (u ++ v) (.ofText (u ++ v))
      = (f.class? v (.ofText v)).map (ClassItem.shift (byteLength u)) := by
  cases f with
  | classNamed name offset =>
    obtain ⟨r, -, p, -, m, -, htop, hread⟩ := exists_match_of_mem hf
    obtain rfl := offset_of_classNamed_mem hread
    show some (ClassItem.mk _ _ _) = some (ClassItem.mk _ _ _)
    rw [bodyMethods_shift hu v (depthAt_of_isTopLevel htop)]
  | function f => rfl
  | exporting e => rfl

end Neutral

/-! ### Outlines -/

/-- A sequence of an outline that moves with the findings it is made of. -/
theorem sortByOffset_shift {α : Type} {offset : α → Nat} {move : α → α} {d : Nat}
    {part part' : Found → Option α} {fs : List Found}
    (hmove : ∀ a, offset (move a) = d + offset a)
    (hpart : ∀ f ∈ fs, part' (f.shift d) = (part f).map move) :
    sortByOffset offset ((fs.map (Found.shift d)).filterMap part')
      = (sortByOffset offset (fs.filterMap part)).map move := by
  have hle : ∀ a b, offset (move a) ≤ offset (move b) ↔ offset a ≤ offset b := by
    intro a b
    rw [hmove, hmove]
    exact Nat.add_le_add_iff_left
  rw [map_sortByOffset_of_le_iff hle, List.filterMap_map, List.map_filterMap]
  exact congrArg (sortByOffset offset) (List.filterMap_congr hpart)

/-- **White space, semicolons and closing braces in front of a text move its outline** by their
length, and change nothing else in it. -/
theorem extract_append (front source : String) (h : ∀ c ∈ front.toList, isNeutral c = true) :
    extract (front ++ source) = (extract source).shift (byteLength front.toList) := by
  rw [extract, extractWith, String.toList_append]
  simp only [findings_shift h source.toList]
  refine Outline.mk.injEq .. ▸ ⟨?functions, ?classes, ?exports⟩
  case functions =>
    refine sortByOffset_shift (fun _ => rfl) fun f _ => ?_
    cases f <;> rfl
  case classes => exact sortByOffset_shift (fun _ => rfl) fun f => class?_shift h source.toList
  case exports =>
    refine sortByOffset_shift (fun _ => rfl) fun f _ => ?_
    cases f <;> rfl

/-- Five bytes in front of a module: a brace that closes nothing, a semicolon, a wide blank and the
end of the line. -/
theorem extract_append_closers :
    (∀ c ∈ "\x7d;\u00a0\n".toList, isNeutral c = true)
      ∧ extract ("\x7d;\u00a0\n"
          ++ "export async function f(a, b) \x7b\x7d\nclass A \x7b m(x) \x7b\x7d \x7d")
        = ⟨[⟨"f", ["a", "b"], true, 12⟩], [⟨"A", [⟨"m", ["x"], false⟩], 38⟩], [⟨"f", false, 5⟩]⟩ := by
  have hneutral : ∀ c ∈ "\x7d;\u00a0\n".toList, isNeutral c = true :=
    List.all_eq_true.mp (by decide +kernel)
  refine ⟨hneutral, (extract_append _ _ hneutral).trans ?_⟩
  decide +kernel

end Scaffold

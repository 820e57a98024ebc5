/-
Scaffold/Proofs/Comments/Extraction.lean

The outline of a text and of the text with its comments blanked.

The patterns run over the whole text, comments included, and only where a match
begins is compared with the map of the text.  So a comment may change what is
found: `function /* c */ f() {}` declares nothing.  `CommentsApart` says where
comments may stand: for the recognizers (`DeclarationsApart`), in the header of a
class, where a semicolon would deny it a body, and in its body (`MembersApart`).
Then the two outlines declare the same (`declarations_blankComments`).
-/
import Scaffold.Proofs.Comments.Declarations
import Scaffold.Proofs.Comments.Members
import Scaffold.Proofs.Extraction.Written

namespace Scaffold

open Text Pattern Scan

/-! ### What an outline declares -/

/-- What an outline declares, parameters and the marks of methods apart. -/
structure Declarations where
  /-- The name of each function, whether it is asynchronous, and its offset. -/
  functions : List (String × Bool × Nat)
  /-- The name of each class, its offset, and the names of its methods. -/
  classes : List (String × Nat × List String)
  exports : List ExportItem
deriving DecidableEq

def FunctionItem.declared (f : FunctionItem) : String × Bool × Nat := (f.name, f.isAsync, f.offset)

def ClassItem.declared (c : ClassItem) : String × Nat × List String :=
  (c.name, c.offset, c.methods.map (fun method => method.name))

/-- What an outline declares. -/
def Outline.declarations (o : Outline) : Declarations where
  functions := o.functions.map FunctionItem.declared
  classes := o.classes.map ClassItem.declared
  exports := o.exports

/-! ### Where comments may stand -/

/-- The glyphs that fit into the first `n` bytes. -/
def takeGlyphs : Nat → List Glyph → List Glyph
  | _, [] => []
  | n, g :: gs => if g.char.utf8Size ≤ n then g :: takeGlyphs (n - g.char.utf8Size) gs else []

/-- The glyphs from the beginning of a class up to the brace that opens a body. -/
def classHeader (cs : List Char) (offset : Nat) (body : Span) : List Glyph :=
  takeGlyphs (body.start - 1 - offset) (dropGlyphs offset (shade cs))

/-- Whether no comment holds a semicolon, or the code holds one as well. -/
def headerApart (header : List Glyph) : Bool :=
  header.all (fun g => !g.inComment || g.char != ';')
    || header.any (fun g => !g.inComment && g.char == ';')

/-- Where comments may stand in a text. -/
structure CommentsApart (source : String) : Prop where
  declarations : DeclarationsApart source.toList
  /-- No semicolon in a comment denies a class its body. -/
  headers : ∀ c ∈ (extract source).classes,
    ∀ body ∈ (CodeMap.ofText source.toList).blockFrom c.offset,
      headerApart (classHeader source.toList c.offset body) = true
  members : ∀ c ∈ (extract source).classes,
    ∀ span ∈ bodySpan source.toList (.ofText source.toList) c.offset,
      MembersApart (slice span.start span.stop source.toList)

instance (source : String) : Decidable (CommentsApart source) :=
  decidable_of_iff (_ ∧ _ ∧ _)
    ⟨fun ⟨h₁, h₂, h₃⟩ => ⟨h₁, h₂, h₃⟩, fun h => ⟨h.declarations, h.headers, h.members⟩⟩

theorem toList_blankComments (source : String) :
    (blankComments source).toList = blanked (shade source.toList) := String.toList_ofList

/-! ### Headers of classes -/

section Headers

variable {cs : List Char}

theorem takeBytes_written (n : Nat) (gs : List Glyph) :
    takeBytes n (written gs) = written (takeGlyphs n gs) := by
  induction gs generalizing n with
  | nil => rfl
  | cons g gs ih =>
    rw [written_cons, takeBytes, takeGlyphs]
    split_ifs
    · rw [written_cons, ih]
    · rfl

/-- What is visible in a cut of the blanked text stands in the cut of the text, outside comments. -/
theorem mem_takeBytes_blanked {c : Char} (hc : isBlank c = false) (n : Nat) (gs : List Glyph) :
    c ∈ takeBytes n (blanked gs) ↔ ∃ g ∈ takeGlyphs n gs, g.inComment = false ∧ g.char = c := by
  induction gs generalizing n with
  | nil => simp [takeGlyphs, takeBytes]
  | cons g gs ih =>
    rw [blanked_cons, takeGlyphs]
    by_cases hg : g.inComment = true
    · have hblank : c ∉ g.blanked := fun h => by
        rw [Glyph.blanked_isBlank hg c h] at hc
        cases hc
      split_ifs with hfits
      · -- all that is left of the comment's character fits
        obtain ⟨k, rfl⟩ := Nat.exists_eq_add_of_le hfits
        rw [← g.byteLength_blanked, takeBytes_append_add, List.mem_append, ih,
          Nat.add_sub_cancel_left]
        simp [hblank, hg]
      · -- the cut goes through it
        rw [takeBytes_append_left _ (by rw [g.byteLength_blanked]; omega)]
        simp only [List.not_mem_nil, false_and, exists_false, iff_false]
        exact fun h => hblank ((takeBytes_isPrefix _ _).subset h)
    · rw [Glyph.blanked_of_code (by simpa using hg), List.singleton_append, takeBytes]
      split_ifs
      · rw [List.mem_cons, ih, List.exists_mem_cons_iff]
        exact or_congr_left ⟨fun h => ⟨by simpa using hg, h.symm⟩, fun h => h.2.symm⟩
      · simp

/-- A class begins between two glyphs. -/
theorem exists_split_of_class {source : String} {c : ClassItem}
    (hc : c ∈ (extract source).classes) :
    ∃ x y, shade source.toList = x ++ y ∧ c.offset = byteLength (written x) := by
  obtain ⟨hfound, -⟩ := classNamed_mem_findings hc
  obtain ⟨r, -, hfind⟩ := List.mem_flatMap.mp hfound
  obtain ⟨m, hm, hread⟩ := List.mem_flatMap.mp hfind
  obtain ⟨p, -, hm⟩ := List.mem_flatMap.mp hm
  obtain ⟨u, v, htext, hmatch⟩ := mem_findAll hm
  rw [← written_shade source.toList] at htext
  obtain ⟨x, y, hsplit, rfl, -⟩ := List.map_eq_append_iff.mp htext
  refine ⟨x, y, hsplit, ?_⟩
  split_ifs at hread
  · rw [offset_of_classNamed_mem hread, span_start_of_matchAt? hmatch, Cursor.between_offset]
    rfl
  · cases hread

/-- **A class has the same body in both texts**, or none in either. -/
theorem bodySpan_blanked {x y : List Glyph} (hsplit : shade cs = x ++ y)
    (h : ∀ body ∈ (CodeMap.ofText cs).blockFrom (byteLength (written x)),
      headerApart (classHeader cs (byteLength (written x)) body) = true) :
    bodySpan (blanked (shade cs)) (.ofText (blanked (shade cs))) (byteLength (written x))
      = bodySpan cs (.ofText cs) (byteLength (written x)) := by
  rw [bodySpan, bodySpan, blockFrom_blanked]
  refine Option.bind_congr fun body hbody => ?_
  have hheader := h body hbody
  rw [classHeader, hsplit, dropGlyphs_append] at hheader
  have hhere : slice (byteLength (written x)) (body.start - 1) cs
      = written (takeGlyphs (body.start - 1 - byteLength (written x)) y) := by
    rw [slice, ← written_shade cs, hsplit, written_append, dropBytes_append, takeBytes_written]
  have hthere : slice (byteLength (written x)) (body.start - 1) (blanked (shade cs))
      = takeBytes (body.start - 1 - byteLength (written x)) (blanked y) := by
    rw [slice, hsplit, blanked_append]
    nth_rewrite 2 [← byteLength_blanked]
    rw [dropBytes_append]
  have hsame : ';' ∈ takeBytes (body.start - 1 - byteLength (written x)) (blanked y)
      ↔ ';' ∈ written (takeGlyphs (body.start - 1 - byteLength (written x)) y) := by
    rw [mem_takeBytes_blanked (by decide)]
    constructor
    · rintro ⟨g, hg, -, hchar⟩
      exact List.mem_map.mpr ⟨g, hg, hchar⟩
    · intro hmem
      obtain ⟨g, hg, hchar⟩ := List.mem_map.mp hmem
      rcases Bool.or_eq_true_iff.mp hheader with hall | hany
      · -- no comment holds a semicolon, so it stands in code
        have := List.all_eq_true.mp hall g hg
        exact ⟨g, hg, by simpa [hchar] using this, hchar⟩
      · -- the code holds one as well
        obtain ⟨d, hd, hboth⟩ := List.any_eq_true.mp hany
        exact ⟨d, hd, by simpa using hboth⟩
  rw [hhere, hthere]
  simp only [List.contains_iff_mem, hsame]

end Headers

/-! ### Bodies -/

/-- The names of the methods in a body. -/
def bodyNames (cs : List Char) (body : Option Span) : List String :=
  (bodyMethods cs (.ofText cs) body).map (fun method => method.name)

@[simp] theorem bodyNames_none (cs : List Char) : bodyNames cs none = [] := rfl

theorem declared_class? (cs : List Char) (name : String) (offset : Nat) :
    ((Found.classNamed name offset).class? cs (.ofText cs)).map ClassItem.declared
      = some (name, offset, bodyNames cs (bodySpan cs (.ofText cs) offset)) := by
  rw [Found.class?, Option.map_some, ClassItem.declared]
  rcases bodySpan cs (.ofText cs) offset with - | span <;> rfl

section Bodies

variable {cs front inside back : List Char}

/-- A body in the blanked text is the blanked body. -/
theorem slice_blanked (h : Block cs front inside back) :
    slice (insideOf front inside).start (insideOf front inside).stop (blanked (shade cs))
      = blankedBody inside := by
  obtain ⟨x, y, hshade, hx, -⟩ := shade_of_block h
  have htext : blanked (shade cs) = (blanked x ++ ['{']) ++ (blankedBody inside ++ blanked y) := by
    rw [hshade, blanked_append, blanked_append, blanked_shade_body]
    simp
  have hstart : (insideOf front inside).start = byteLength (blanked x ++ ['{']) := by
    rw [byteLength_append, byteLength_blanked, hx]
    rfl
  have hstop : (insideOf front inside).stop
      = byteLength (blanked x ++ ['{']) + byteLength (blankedBody inside) := by
    rw [← hstart, byteLength_blankedBody]
    rfl
  rw [htext, hstop, hstart, slice_of_append]

/-- **A body has the same method names in both texts.** -/
theorem bodyNames_blanked {span : Span} {offset : Nat}
    (hdepth : (CodeMap.ofText cs).depthAt offset = 0)
    (hspan : bodySpan cs (.ofText cs) offset = some span)
    (hspan' : bodySpan (blanked (shade cs)) (.ofText (blanked (shade cs))) offset = some span)
    (hmembers : MembersApart (slice span.start span.stop cs)) :
    bodyNames (blanked (shade cs)) (some span) = bodyNames cs (some span) := by
  rw [bodyNames, bodyNames, bodyMethods_eq_alone hdepth hspan,
    bodyMethods_eq_alone ((depthAt_blanked cs offset).trans hdepth) hspan']
  obtain ⟨front, inside, back, hblock, rfl⟩ := block_of_bodySpan hdepth hspan
  have hinside : slice (insideOf front inside).start (insideOf front inside).stop cs = inside :=
    ClassBody.text_within hblock
  rw [hinside] at hmembers ⊢
  rw [slice_blanked hblock, methodNames_blanked hmembers]

end Bodies

/-! ### The outlines -/

section Outlines

variable {source : String}

/-- Findings that are the same, parameters apart, have the same in every part of them that does not
depend on parameters. -/
theorem filterMap_bare {α : Type} {g : Found → Option α} (hg : ∀ f : Found, g f.bare = g f)
    {fs fs' : List Found} (h : fs.map Found.bare = fs'.map Found.bare) :
    fs.filterMap g = fs'.filterMap g := by
  have hbare : ∀ fs : List Found, fs.filterMap g = (fs.map Found.bare).filterMap g := by
    intro fs
    rw [List.filterMap_map]
    refine List.filterMap_congr fun f _ => ?_
    exact (hg f).symm
  rw [hbare fs, h, ← hbare fs']

/-- A class among the findings declares the same in both texts. -/
theorem class_blanked (h : CommentsApart source) {f : Found}
    (hf : f ∈ findings Recognizer.all source.toList (.ofText source.toList)) :
    (f.class? (blankComments source).toList (.ofText (blankComments source).toList)).map
        ClassItem.declared
      = (f.class? source.toList (.ofText source.toList)).map ClassItem.declared := by
  cases f with
  | function f =>
    show none = none
    rfl
  | exporting e =>
    show none = none
    rfl
  | classNamed name offset =>
    have hmem : ∀ c, (Found.classNamed name offset).class? source.toList (.ofText source.toList)
        = some c → c ∈ (extract source).classes :=
      fun c hc => List.mem_mergeSort.mpr (List.mem_filterMap.mpr ⟨_, hf, hc⟩)
    have hc := hmem _ rfl
    obtain ⟨htop, -⟩ := class_of_mem hc
    obtain ⟨x, y, hsplit, hoffset⟩ := exists_split_of_class hc
    have hheaders := h.headers _ hc
    have hmembers := h.members _ hc
    change offset = byteLength (written x) at hoffset
    change ∀ body ∈ CodeMap.blockFrom _ offset, _ at hheaders
    change ∀ span ∈ bodySpan _ _ offset, _ at hmembers
    subst hoffset
    have hbody := bodySpan_blanked hsplit hheaders
    rw [toList_blankComments, declared_class?, declared_class?, hbody]
    rcases hspan : bodySpan source.toList (.ofText source.toList) (byteLength (written x))
      with - | span
    · rw [bodyNames_none, bodyNames_none]
    · rw [hspan] at hbody
      rw [bodyNames_blanked (depthAt_of_isTopLevel htop) hspan hbody (hmembers span hspan)]

/-- **Comments that are apart from what is matched do not change what an outline declares**: names,
marks and offsets of functions, names, offsets and method names of classes, and all of the exports
are those of the text with every comment blanked. -/
theorem declarations_blankComments {source : String} (h : CommentsApart source) :
    (extract (blankComments source)).declarations = (extract source).declarations := by
  have hfound : (findings Recognizer.all (blankComments source).toList
        (.ofText (blankComments source).toList)).map Found.bare
      = (findings Recognizer.all source.toList (.ofText source.toList)).map Found.bare := by
    rw [toList_blankComments]
    exact (findings_blanked h.declarations).symm
  refine Declarations.mk.injEq .. ▸ ⟨?_, ?_, ?_⟩
  -- functions
  · show List.map _ (sortByOffset _ _) = List.map _ (sortByOffset _ _)
    have hsort := @map_sortByOffset _ _ FunctionItem.offset (fun x => x.2.2)
      FunctionItem.declared (fun _ => rfl)
    rw [hsort, hsort, List.map_filterMap, List.map_filterMap]
    refine congrArg (sortByOffset _) (filterMap_bare (fun f => ?_) hfound)
    cases f <;> rfl
  -- classes, whose bodies are read again in each text
  · show List.map _ (sortByOffset _ _) = List.map _ (sortByOffset _ _)
    have hsort := @map_sortByOffset _ _ ClassItem.offset (fun x => x.2.1)
      ClassItem.declared (fun _ => rfl)
    rw [hsort, hsort, List.map_filterMap, List.map_filterMap]
    refine congrArg (sortByOffset _) ?_
    rw [filterMap_bare (fun f => by cases f <;> rfl) hfound]
    exact List.filterMap_congr fun f hf => class_blanked h hf
  -- exports
  · show sortByOffset _ _ = sortByOffset _ _
    refine congrArg (sortByOffset _) (filterMap_bare (fun f => ?_) hfound)
    cases f <;> rfl

/-- The conditions on a source are conditions on its characters. -/
theorem CommentsApart.of_toList {cs : List Char} (h : source.toList = cs)
    (hdeclarations : DeclarationsApart cs)
    (hclasses : ∀ c ∈ (findings Recognizer.all cs (.ofText cs)).filterMap
        (Found.class? cs (.ofText cs)),
      (∀ body ∈ (CodeMap.ofText cs).blockFrom c.offset,
          headerApart (classHeader cs c.offset body) = true)
        ∧ ∀ span ∈ bodySpan cs (.ofText cs) c.offset,
            MembersApart (slice span.start span.stop cs)) :
    CommentsApart source := by
  subst h
  constructor
  case declarations => exact hdeclarations
  case headers => exact fun c hc => (hclasses c (List.mem_mergeSort.mp hc)).1
  case members => exact fun c hc => (hclasses c (List.mem_mergeSort.mp hc)).2

/-- A text with comments between and inside its declarations. -/
def commentedSource : String :=
  "// function old() \x7b\x7d\nfunction f(a /* (opt) */, b) \x7b\x7d // f(\n"
    ++ "const g = (a /* (x) */, b) => a;\n"
    ++ "export class B extends /* A */ C \x7b\n  // m() \x7b\x7d\n"
    ++ "  n(x /* ) */) \x7b \x7d\n  k = (q) => 2; /* ; */\n\x7d\n"
    ++ "export \x7b\n  f, g, // both\n\x7d;\n"

theorem commentsApart_commentedSource : CommentsApart commentedSource := by
  apply CommentsApart.of_toList
  case h =>
    delta commentedSource
    simp only [String.toList_append]
    rw [String.toList_ofList, String.toList_ofList, String.toList_ofList, String.toList_ofList,
      String.toList_ofList]
  case hdeclarations => decide +kernel
  case hclasses => decide +kernel

theorem commentedSource_declarations :
    CommentsApart commentedSource
      ∧ (extract (blankComments commentedSource)).declarations
          = (extract commentedSource).declarations := by
  have h := commentsApart_commentedSource
  exact ⟨h, declarations_blankComments h⟩

/-- A comment that ends in an operator hides the function behind it. -/
theorem not_declarations_blankComments :
    ¬ ∀ source : String,
      (extract (blankComments source)).declarations = (extract source).declarations := by
  intro h
  have hidden := h "// Helpers:\nfunction f() \x7b\x7d"
  have hdiffer : (extract (blankComments "// Helpers:\nfunction f() \x7b\x7d")).declarations
      ≠ (extract "// Helpers:\nfunction f() \x7b\x7d").declarations := by decide +kernel
  exact hdiffer hidden

end Outlines

end Scaffold

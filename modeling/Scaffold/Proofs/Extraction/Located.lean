/-
Scaffold/Proofs/Extraction/Located.lean

Everything that is extracted stands in the source.

An item of an outline has an offset: there, in code outside all braces, stands a
keyword of its kind, as a whole word (`StandsAt`): as for the patterns, a word
ends where no character of one goes on, and a dollar sign is none.  What else the
outline tells of an item is cut out of the match that begins there, so it stands
in the text behind the offset (`text_isInfix`), and so does all that is cut out of
it again.

A method has no offset of its own.  It is found in the body of its class, where
its name stands in code, one brace deep (`MethodAt`).

* `function_located`, `class_located`, `export_located` — an item and what is
  told of it;
* `method_located` — a method in the body of its class.
-/
import Scaffold.Proofs.Extraction.Distinct
import Scaffold.Proofs.Text.Pieces

namespace Scaffold

open Text Scan Pattern

/-! ### Whole words -/

/-- A text begins with one of some words, as a whole word. -/
def BeginsWith (words : List String) (cs : List Char) : Prop :=
  ∃ word ∈ words, ∃ r, cs = word.toList ++ r ∧ ∀ c ∈ r.head?, isWordChar c = false

/-- In code outside all braces one of some words stands, as a whole word. -/
structure StandsAt (source : List Char) (offset : Nat) (words : List String) : Prop where
  isCode : (CodeMap.ofText source).isCode offset = true
  depthAt_eq : (CodeMap.ofText source).depthAt offset = 0
  word : ∃ u v, source = u ++ v ∧ offset = byteLength u ∧ (∀ c ∈ u.getLast?, isWordChar c = false)
    ∧ BeginsWith words v

theorem BeginsWith.mono {words words' : List String} {cs : List Char} (h : BeginsWith words cs)
    (hsub : words ⊆ words') : BeginsWith words' cs := by
  obtain ⟨word, hword, hcs⟩ := h
  exact ⟨word, hsub hword, hcs⟩

theorem isWordChar_of_isBlank {c : Char} (h : isBlank c = true) : isWordChar c = false :=
  (Bool.or_eq_false_iff.mp (isIdentifierPart_of_isBlank h)).1

/-- Behind a word that blanks follow no word goes on. -/
theorem BeginsWith.of_blanks {words : List String} {word : String} (hword : word ∈ words)
    {b : List Char} (hne : b ≠ []) (hb : ∀ c ∈ b, isBlank c = true) (behind : List Char) :
    BeginsWith words (word.toList ++ b ++ behind) := by
  obtain ⟨c, b, rfl⟩ := List.exists_cons_of_ne_nil hne
  refine ⟨word, hword, c :: b ++ behind, List.append_assoc _ _ _, ?_⟩
  rintro d ⟨⟩
  exact isWordChar_of_isBlank (hb c List.mem_cons_self)

section Words

variable {before : Option Char} {w behind : List Char}

theorem beginsWith_of_wordThenBlanks {word : String}
    (h : (wordThenBlanks word).Spells before w behind) : BeginsWith [word] (w ++ behind) := by
  obtain ⟨b, rfl, hne, hb⟩ := spaced_of_spells h
  exact .of_blanks (by simp) hne hb behind

theorem beginsWith_of_variableKeyword
    (h : (inOrder [variableKeyword, blanks1]).Spells before w behind) :
    BeginsWith ["const", "let", "var"] (w ++ behind) := by
  obtain ⟨x, b, rfl, hx, hb⟩ := h
  obtain ⟨word, hword, rfl⟩ := spells_words.mp hx
  obtain ⟨hne, hb, -⟩ := spells_blanks1.mp hb
  exact .of_blanks hword hne hb behind

theorem beginsWith_of_functionKeyword (h : functionKeyword.Spells before w behind) :
    BeginsWith ["function"] (w ++ behind) := by
  obtain ⟨f, y, rfl, hf, hy⟩ := spells_inOrder_cons.mp h
  obtain ⟨e, y, rfl, ⟨rfl, hboundary⟩, -⟩ := spells_inOrder_cons.mp hy
  obtain rfl := spells_literal.mp hf
  refine ⟨"function", by simp, [] ++ y ++ behind, List.append_assoc _ _ _, fun c hc => ?_⟩
  -- the word has ended, since its last character is one of a word
  have hlast : ("function".toList.getLast?.or before).any isWordChar = true := by
    show isWordChar 'n' = true
    decide
  have hnext : (y ++ behind).head? = some c := hc
  rw [Cursor.isBoundary, hlast, hnext] at hboundary
  simpa using hboundary

end Words

/-! ### What a match begins with -/

/-- A pattern whose texts begin with one of some words, where a word begins. -/
def Opens (p : Pattern) (words : List String) : Prop :=
  ∀ before w behind, p.Spells before w behind →
    (∀ c ∈ before, isWordChar c = false) ∧ BeginsWith words (w ++ behind)

theorem BeginsWith.beginsWord {words : List String} {cs : List Char} (h : BeginsWith words cs)
    (hwords : ∀ word ∈ words, BeginsWord word.toList) : BeginsWord cs := by
  obtain ⟨word, hword, r, rfl, -⟩ := h
  exact (hwords word hword).append r

theorem Opens.of_parts {ps qs : List Pattern} {words : List String}
    (hwords : ∀ word ∈ words, BeginsWord word.toList)
    (h : ∀ before w behind, (inOrder ps).Spells before w behind → BeginsWith words (w ++ behind)) :
    Opens (inOrder (.boundary :: ps ++ qs)) words := by
  intro before w behind hw
  obtain ⟨e, y, rfl, ⟨rfl, hboundary⟩, hy⟩ := spells_inOrder_cons.mp hw
  obtain ⟨x, y, rfl, hx, -⟩ := spells_inOrder_append.mp hy
  have hbegins := h _ _ _ hx
  rw [← List.append_assoc] at hbegins
  exact ⟨apart_of_isBoundary hboundary (hbegins.beginsWord hwords), hbegins⟩

/-- **At a match that counts stands one of the words its pattern begins with.** -/
theorem Opens.standsAt {p : Pattern} {words : List String} (hp : Opens p words)
    {source : List Char} {m : Match} (hm : m ∈ p.findAll source)
    (htop : (CodeMap.ofText source).isTopLevel m.span.start = true) :
    StandsAt source m.span.start words := by
  obtain ⟨hcode, hdepth⟩ := isTopLevel_iff.mp htop
  obtain ⟨u, v, rfl, hmatch⟩ := mem_findAll hm
  obtain ⟨q, r, rfl, -, hq⟩ := exists_text_of_matchAt? hmatch
  obtain ⟨hbefore, hbegins⟩ := hp _ _ _ hq
  exact ⟨hcode, hdepth, u, q ++ r, rfl,
    (span_start_of_matchAt? hmatch).trans (Cursor.between_offset _ _), hbefore, hbegins⟩

section Opens

theorem opens_functionDeclaration : Opens functionDeclaration ["async", "function"] := by
  refine @Opens.of_parts [optional (.keep .asyncMark (wordThenBlanks "async")), functionKeyword]
    [.keep .name identifier, blanks, optional typeParameters, parameterList] _ ?_ ?_
  · simp only [List.forall_mem_cons]
    exact ⟨⟨'a', rfl, by decide⟩, ⟨'f', rfl, by decide⟩, by simp⟩
  · intro before w behind h
    obtain ⟨x, y, rfl, hx, hy⟩ := spells_inOrder_cons.mp h
    rw [List.append_assoc]
    rcases hx with hasync | rfl
    · exact (beginsWith_of_wordThenBlanks hasync).mono (by simp)
    · exact (beginsWith_of_functionKeyword hy).mono (by simp)

theorem opens_of_variableKeyword (qs : List Pattern) :
    Opens (inOrder (.boundary :: [variableKeyword, blanks1] ++ qs)) ["const", "let", "var"] := by
  refine .of_parts ?_ fun before w behind => beginsWith_of_variableKeyword
  simp only [List.forall_mem_cons]
  exact ⟨⟨'c', rfl, by decide⟩, ⟨'l', rfl, by decide⟩, ⟨'v', rfl, by decide⟩, by simp⟩

theorem opens_of_wordThenBlanks {word : String} (hword : BeginsWord word.toList)
    (qs : List Pattern) : Opens (inOrder (.boundary :: [wordThenBlanks word] ++ qs)) [word] :=
  .of_parts (by simpa using hword) fun before w behind => beginsWith_of_wordThenBlanks

theorem opens_classDeclaration : Opens classDeclaration ["class"] :=
  opens_of_wordThenBlanks ⟨'c', rfl, by decide⟩ [.keep .name identifier]

theorem opens_exportedDeclaration : Opens exportedDeclaration ["export"] :=
  opens_of_wordThenBlanks ⟨'e', rfl, by decide⟩ _

theorem opens_exportedName : Opens exportedName ["export"] :=
  opens_of_wordThenBlanks ⟨'e', rfl, by decide⟩ _

/-- The words a function begins with. -/
theorem opens_of_function_mem_read {r : Recognizer} {source : List Char} {m : Match}
    {f : FunctionItem} (h : Found.function f ∈ r.read source m) {p : Pattern}
    (hp : p ∈ r.patterns) : Opens p ["async", "function", "const", "let", "var"] := by
  have hsub : ∀ {words}, Opens p words → words ⊆ ["async", "function", "const", "let", "var"] →
      Opens p ["async", "function", "const", "let", "var"] := by
    intro words hwords hsub before w behind hw
    exact (hwords before w behind hw).imp id fun hbegins => hbegins.mono hsub
  rcases recognizer_of_function_mem_read h with rfl | rfl
  · obtain rfl := List.mem_singleton.mp hp
    exact hsub opens_functionDeclaration (by simp)
  · rcases List.mem_cons.mp hp with rfl | hp
    · exact hsub (opens_of_variableKeyword _) (by simp)
    · obtain rfl := List.mem_singleton.mp hp
      exact hsub (opens_of_variableKeyword _) (by simp)

end Opens

/-! ### What is told of a match -/

/-- **What a match keeps stands in the text behind its beginning.** -/
theorem text_isInfix {p : Pattern} {source : List Char} {m : Match} (hm : m ∈ p.findAll source)
    (slot : Slot) : m.text slot source <:+: dropBytes m.span.start source := by
  obtain ⟨u, v, rfl, hmatch⟩ := mem_findAll hm
  obtain ⟨t, ht, rfl⟩ := exists_of_matchAt? hmatch
  obtain ⟨-, kept, -, -, hcaptures, hin⟩ := ht.onward
  rw [List.append_nil] at hcaptures
  rw [Match.text]
  split
  · next s hs =>
    obtain ⟨c, hc, rfl⟩ := Option.map_eq_some_iff.mp hs
    have hmem := List.mem_of_find?_eq_some hc
    rw [hcaptures] at hmem
    obtain ⟨⟨x, y, hv, hstart⟩, -⟩ := hin c hmem
    rw [Cursor.between_rest] at hv
    rw [Cursor.between_offset] at hstart
    refine slice_behind (u := u ++ x) (v := y) (by rw [hv, List.append_assoc]) ?_ ?_
    · rw [hstart, byteLength_append]
    · rw [hstart]
      show (Cursor.between u v).offset ≤ _
      rw [Cursor.between_offset]
      exact Nat.le_add_right _ _
  · -- a slot without a capture has the empty text
    exact List.nil_infix

/-- A raw parameter: a trimmed part of the text behind an offset, and not empty. -/
structure ParameterBehind (source : List Char) (offset : Nat) (p : String) : Prop where
  ne_nil : p.toList ≠ []
  trimmed : trim p.toList = p.toList
  isInfix : p.toList <:+: dropBytes offset source

theorem parameterBehind_of_mem {source raw : List Char} {offset : Nat}
    (hraw : raw <:+: dropBytes offset source) {p : String} (hp : p ∈ splitParameters raw) :
    ParameterBehind source offset p := by
  obtain ⟨hne, htrim, hwithin⟩ := isInfix_of_mem_splitParameters hp
  exact ⟨hne, htrim, hwithin.trans hraw⟩

/-- A name that a pattern keeps is an identifier, and stands behind the beginning of the match. -/
theorem isIdentifier_of_names {p : Pattern} {lead tail : List Char → Prop}
    (hp : Names p lead tail) {source : List Char} {m : Match} (hm : m ∈ p.findAll source)
    (htop : (CodeMap.ofText source).isTopLevel m.span.start = true) :
    IsIdentifier (String.ofList (m.text .name source)).toList
      ∧ (String.ofList (m.text .name source)).toList <:+: dropBytes m.span.start source := by
  obtain ⟨place, u, x, v, -, -, -, -, -, -, -, hname, -⟩ := hp.introduces hm htop
  refine ⟨hname, ?_⟩
  rw [String.toList_ofList]
  exact text_isInfix hm .name

section Items

variable {source : String}

/-- **A function stands where the outline says.** -/
theorem function_located {f : FunctionItem} (hf : f ∈ (extract source).functions) :
    StandsAt source.toList f.offset ["async", "function", "const", "let", "var"]
      ∧ IsIdentifier f.name.toList ∧ f.name.toList <:+: dropBytes f.offset source.toList
      ∧ ∀ p ∈ f.parameters, ParameterBehind source.toList f.offset p := by
  obtain ⟨r, -, p, hp, m, hm, htop, hread⟩ := exists_match_of_mem (function_mem_findings hf)
  have hopens := opens_of_function_mem_read hread hp
  obtain ⟨hnames, rfl⟩ := eq_of_function_mem_read hread
  obtain ⟨hidentifier, hname⟩ := isIdentifier_of_names (hnames p hp) hm htop
  exact ⟨hopens.standsAt hm htop, hidentifier, hname, fun q =>
    parameterBehind_of_mem (text_isInfix hm .parameters)⟩

theorem not_heritage_of_classNamed_mem {r : Recognizer} {cs : List Char} {m : Match}
    {name : String} {offset : Nat} (h : Found.classNamed name offset ∈ r.read cs m) :
    name ∉ heritageWords := by
  cases standsFor_of_mem_read h with
  | classKeyword hname => exact hname

/-- **A class stands where the outline says.** -/
theorem class_located {c : ClassItem} (hc : c ∈ (extract source).classes) :
    StandsAt source.toList c.offset ["class"]
      ∧ IsIdentifier c.name.toList ∧ c.name.toList <:+: dropBytes c.offset source.toList
      ∧ c.name ∉ ["extends", "implements"] := by
  obtain ⟨r, -, p, hp, m, hm, htop, hread⟩ := exists_match_of_mem (classNamed_mem_findings hc).1
  have hheritage := not_heritage_of_classNamed_mem hread
  have hoffset := offset_of_classNamed_mem hread
  obtain ⟨rfl, hname⟩ := name_of_classNamed_mem_read hread
  obtain rfl := List.mem_singleton.mp hp
  obtain ⟨hidentifier, hbehind⟩ := isIdentifier_of_names names_classDeclaration hm htop
  rw [← hname] at hidentifier hbehind
  rw [hoffset]
  exact ⟨opens_classDeclaration.standsAt hm htop, hidentifier, hbehind, hheritage⟩

/-- The names of an entry are words of it. -/
theorem Lists.mem_words {entry : List Char} {inner outer : String} (h : Lists entry inner outer) :
    inner.toList ∈ Text.words entry ∧ outer.toList ∈ Text.words entry := by
  have hword : ∀ {name : String}, name ∈ (Text.words entry).map String.ofList →
      name.toList ∈ Text.words entry := by
    intro name hname
    obtain ⟨w, hw, rfl⟩ := List.mem_map.mp hname
    rwa [String.toList_ofList]
  rcases h with ⟨hwords, rfl⟩ | hwords
  · exact ⟨hword (by simp [hwords]), hword (by simp [hwords])⟩
  · exact ⟨hword (by simp [hwords]), hword (by simp [hwords])⟩

/-- The name of a listed export is a word of its entry. -/
theorem name_mem_words_of_listedExport? {entry : List Char} {offset : Nat} {e : ExportItem}
    (h : listedExport? entry offset = some e) : e.name.toList ∈ Text.words entry := by
  obtain ⟨-, inner, outer, hlists, hname⟩ := lists_of_listedExport? h
  rw [hname]
  split_ifs
  · exact hlists.mem_words.1
  · exact hlists.mem_words.2

/-- Where a list of exports begins stands the word `export`. -/
theorem ExportList.standsAt {cs : List Char} (l : ExportList cs) :
    StandsAt cs (byteLength l.front) ["export"] := by
  obtain ⟨hcode, hdepth⟩ := isTopLevel_iff.mp l.isTopLevel
  refine ⟨hcode, hdepth, l.front, _, l.eq, rfl, l.apart, "export", by simp, _, rfl, ?_⟩
  intro c hc
  rcases hgap : l.gap with - | ⟨d, gap⟩
  · rw [hgap] at hc
    obtain rfl := Option.some.inj hc
    decide
  · rw [hgap] at hc
    obtain rfl := Option.some.inj hc
    exact isWordChar_of_isBlank (l.blank d (by rw [hgap]; exact List.mem_cons_self))

theorem Pattern.IsIdentifier.ne_nil {cs : List Char} (h : IsIdentifier cs) : cs ≠ [] := by
  obtain ⟨⟨c, hc, -⟩, -⟩ := h
  rintro rfl
  cases hc

/-- **An export stands where the outline says.** -/
theorem export_located {e : ExportItem} (he : e ∈ (extract source).exports) :
    StandsAt source.toList e.offset ["export"]
      ∧ e.name.toList ≠ [] ∧ e.name.toList <:+: dropBytes e.offset source.toList := by
  obtain ⟨r, -, p, hp, m, hm, htop, hread⟩ := exists_match_of_mem (exporting_mem_findings he)
  cases standsFor_of_mem_read hread with
  | exportedDeclaration =>
    obtain rfl := List.mem_singleton.mp hp
    obtain ⟨hidentifier, hname⟩ := isIdentifier_of_names names_exportedDeclaration hm htop
    exact ⟨opens_exportedDeclaration.standsAt hm htop, hidentifier.ne_nil, hname⟩
  | exportedName =>
    obtain rfl := List.mem_singleton.mp hp
    obtain ⟨hidentifier, hname⟩ := isIdentifier_of_names names_exportedName hm htop
    exact ⟨opens_exportedName.standsAt hm htop, hidentifier.ne_nil, hname⟩
  | exportedList htype hentry hlisted =>
    obtain rfl := List.mem_singleton.mp hp
    obtain ⟨l, hstart, -⟩ := exists_exportList hm htop htype
    obtain ⟨hne, hword⟩ := isInfix_of_mem_words (name_mem_words_of_listedExport? hlisted)
    rw [(lists_of_listedExport? hlisted).1]
    refine ⟨hstart ▸ l.standsAt, hne, ?_⟩
    exact (hword.trans (isInfix_of_mem_splitWhere hentry)).trans (text_isInfix hm .entries)

end Items

/-! ### Methods -/

/-- A method in the body of the class at an offset: the block `span` with no semicolon in front of
it, in which the name of the method stands at `place`, in code, one brace deep. -/
structure MethodAt (source : List Char) (offset : Nat) (m : MethodItem) (span : Span)
    (place : Nat) : Prop where
  block : (CodeMap.ofText source).blockFrom offset = some span
  noSemicolon : ';' ∉ slice offset (span.start - 1) source
  start_le : span.start ≤ place
  le_stop : place + byteLength m.name.toList ≤ span.stop
  name : m.name.toList <+: dropBytes place source
  isCode : (CodeMap.ofText source).isCode place = true
  depthAt_eq : (CodeMap.ofText source).depthAt place = 1
  isIdentifier : IsIdentifier m.name.toList
  notPrivate : m.name.toList.head? ≠ some '#'

/-- The first block from an offset on begins behind the offset. -/
theorem lt_start_of_blockFrom {cs : List Char} {offset : Nat} {span : Span}
    (h : (CodeMap.ofText cs).blockFrom offset = some span) : offset < span.start := by
  have hsorted : (CodeMap.ofText cs).braces.Pairwise (fun a b => a.offset < b.offset) :=
    braces_pairwise (fits_code cs)
  obtain ⟨early, closing, opening, rest, hsplit, hearly, -, -, rfl⟩ := blockFrom_cases h
  have hdrop := List.takeWhile_append_dropWhile
    (p := fun b : Brace => decide (b.offset < offset)) (l := (CodeMap.ofText cs).braces)
  rw [← hearly, hsplit] at hdrop
  refine Nat.lt_succ_of_le ((mem_dropWhile_offset_iff hsorted).mp ?_).2
  rw [hsplit, List.append_cancel_left hdrop]
  simp

/-- Inside a block, in front of everything else, one brace is open. -/
theorem depthAt_start {cs front inside back : List Char} (h : Block cs front inside back) :
    (CodeMap.ofText cs).depthAt (insideOf front inside).start = 1 := by
  have hone : 1 ≤ byteLength ('{' :: inside) := by
    rw [byteLength_cons]
    exact Nat.le_add_right 1 _
  rw [insideOf, depthAt_in_block h hone, depthAt_eq, textClasses_cons]
  show depthBefore .code 0 (.openBrace :: textClasses inside) 1 = 1
  rw [depthBefore, depthBefore_zero]
  rfl

namespace ClassBody

variable {b : ClassBody}

/-- A method is made of a head in the body. -/
theorem exists_head_of_mem_methods {method : MethodItem} (h : method ∈ b.methods) :
    ∃ p ∈ [methodHead, fieldHead], ∃ m ∈ p.findAll b.text, ∃ tail place,
      b.member? tail m = some (place, method) := by
  obtain ⟨⟨place, method⟩, hmem, rfl⟩ := List.mem_map.mp h
  rcases List.mem_append.mp (List.mem_mergeSort.mp hmem) with hmem | hmem
  · obtain ⟨m, hm, hmember⟩ := List.mem_filterMap.mp hmem
    split_ifs at hmember
    exact ⟨methodHead, by simp, m, hm, _, place, hmember⟩
  · obtain ⟨m, hm, hmember⟩ := List.mem_filterMap.mp hmem
    exact ⟨fieldHead, by simp, m, hm, _, place, hmember⟩

/-- What a member is made of. -/
theorem parts_of_member? {tail : Pattern} {m : Match} {place : Nat} {method : MethodItem}
    (h : b.member? tail m = some (place, method)) :
    b.isMember m = true ∧ ∃ parameters rest name, b.parametersAfter m = some (parameters, rest)
      ∧ m.capture? .name = some name ∧ place = b.span.start + name.start
      ∧ method.name = String.ofList (m.text .name b.text)
      ∧ method.parameters = splitParameters parameters ∧ tail.leads rest = true := by
  rw [member?] at h
  split_ifs at h with hmember
  refine ⟨hmember, ?_⟩
  split at h
  · next parameters rest name hparameters hname =>
    split_ifs at h with hleads
    obtain ⟨rfl, rfl⟩ := Prod.mk.inj (Option.some.inj h)
    exact ⟨parameters, rest, name, hparameters, hname, rfl, rfl, rfl, hleads⟩
  · cases h

theorem of_isMember {m : Match} {name : Span} (h : b.isMember m = true)
    (hname : m.capture? .name = some name) :
    (m.text .name b.text).head? ≠ some '#'
      ∧ b.map.isCode (b.span.start + name.start) = true
      ∧ b.map.depthAt (b.span.start + name.start) = b.map.depthAt b.span.start
      ∧ parenDepthAt b.parens (b.span.start + name.start) = 0
      ∧ canBeginMember (takeBytes (m.span.start
          + byteLength ((slice m.span.start m.span.stop b.text).takeWhile isBlank)) b.text)
        = true := by
  rw [isMember, hname] at h
  simp only [Bool.and_eq_true, bne_iff_ne, beq_iff_eq] at h
  obtain ⟨⟨⟨⟨hhead, hcode⟩, hdepth⟩, hparen⟩, hbegin⟩ := h
  exact ⟨hhead, hcode, hdepth, hparen, hbegin⟩

end ClassBody

/-- A match of a member's name between other patterns, the last one an opening parenthesis. -/
theorem parts_of_opening {ps qs : List Pattern}
    (hslot : Slot.name ∉ (inOrder (qs ++ [char '('])).slots) {text : List Char} {m : Match}
    (hm : m ∈ (inOrder (ps ++ memberName :: (qs ++ [char '(']))).findAll text) :
    ∃ u x n y v, text = u ++ (x ++ (n ++ (y ++ '(' :: v))) ∧ m.span.start = byteLength u
      ∧ m.capture? .name = some ⟨byteLength (u ++ x), byteLength (u ++ x ++ n)⟩
      ∧ IsHead text m (u ++ x ++ (n ++ y)) v
      ∧ (∃ before behind, (inOrder ps).Spells before x behind)
      ∧ (n.head? = some '#' ∨ IsIdentifier n)
      ∧ ∃ before behind, (inOrder qs).Spells before y behind := by
  have hopening : m ∈ (inOrder ((ps ++ memberName :: qs) ++ [char '('])).findAll text := by
    rw [List.append_assoc, List.cons_append]
    exact hm
  obtain ⟨u', v', hhead⟩ := isHead_of_mem _ hopening
  obtain ⟨u, w, rfl, hmatch⟩ := mem_findAll hm
  obtain ⟨t, ht, rfl⟩ := exists_of_matchAt? hmatch
  obtain ⟨x, n, z, v, rfl, hstop, hcapture, hx, ⟨mark, w, rfl, hmark, hw⟩, hz⟩ :=
    ht.exists_capture hslot
  obtain ⟨y, e, rfl, hy, he⟩ := spells_inOrder_append.mp hz
  obtain rfl := spells_char.mp he
  have hlen : byteLength u' = byteLength (u ++ x ++ (mark ++ w ++ y)) := by
    have hlast : byteLength (u ++ x ++ (mark ++ w) ++ (y ++ ['(']))
        = byteLength (u ++ x ++ (mark ++ w ++ y)) + 1 := by
      rw [← List.append_assoc, List.append_assoc (u ++ x), byteLength_append _ ['(']]
      rfl
    have h := hhead.stop_eq
    change t.cursor.offset = _ at h
    omega
  refine ⟨u, x, mark ++ w, y, v, by simp, Cursor.between_offset u _, hcapture, ⟨by simp, ?_, ?_⟩,
    ⟨_, _, hx⟩, ?_, _, _, hy⟩
  · rw [hhead.stop_eq, hlen]
  · exact fun slot s hs => hlen ▸ hhead.capture_le slot s hs
  · rcases hmark with hmark | rfl
    · -- a private name begins with its mark
      obtain rfl := spells_char.mp hmark
      exact .inl rfl
    · exact .inr (spells_identifier.mp hw).1

/-- The name in the head of a member, and the parenthesis at its end. -/
theorem parts_of_head {p : Pattern} (hp : p ∈ [methodHead, fieldHead]) {text : List Char}
    {m : Match} (hm : m ∈ p.findAll text) :
    ∃ u n y v, text = u ++ (n ++ (y ++ '(' :: v))
      ∧ m.capture? .name = some ⟨byteLength u, byteLength (u ++ n)⟩
      ∧ (n.head? = some '#' ∨ IsIdentifier n) ∧ IsHead text m (u ++ (n ++ y)) v ∧ '(' ∉ y := by
  have hparts : ∃ ps qs, p = inOrder (ps ++ memberName :: (qs ++ [char '(']))
      ∧ Slot.name ∉ (inOrder (qs ++ [char '('])).slots ∧ (inOrder qs).mayHold '(' = false := by
    rcases List.mem_pair.mp hp with rfl | rfl
    · exact ⟨[_, _, _, _, _], [blanks], rfl, by decide, by decide⟩
    · exact ⟨[_], [blanks, char '=', blanks, _], rfl, by decide, by decide⟩
  obtain ⟨ps, qs, rfl, hslot, hhold⟩ := hparts
  obtain ⟨u, x, n, y, v, htext, -, hcapture, hhead, -, hn, before, behind, hy⟩ :=
    parts_of_opening hslot hm
  refine ⟨u ++ x, n, y, v, by rw [htext, List.append_assoc], hcapture, hn, hhead, fun hmem => ?_⟩
  rw [hy.mayHold '(' hmem] at hhold
  cases hhold

section Within

variable {cs front inside back : List Char} {method : MethodItem}

/-- A place in a body, in the whole text. -/
theorem eq_at_inside (h : Block cs front inside back) {u v : List Char} (hinside : inside = u ++ v) :
    cs = (front ++ '{' :: u) ++ (v ++ back)
      ∧ byteLength (front ++ '{' :: u) = (insideOf front inside).start + byteLength u := by
  constructor
  · rw [h.text_eq, hinside]
    simp
  · rw [byteLength_append, byteLength_cons, insideOf]
    show _ + (1 + _) = _ + 1 + _
    omega

/-- **The name of a method stands in the body it is found in.** -/
theorem exists_place_of_mem_methods (h : Block cs front inside back)
    (hmem : method ∈ (ClassBody.within cs front inside).methods) :
    ∃ place, (insideOf front inside).start ≤ place
      ∧ place + byteLength method.name.toList ≤ (insideOf front inside).stop
      ∧ method.name.toList <+: dropBytes place cs
      ∧ (CodeMap.ofText cs).isCode place = true ∧ (CodeMap.ofText cs).depthAt place = 1
      ∧ IsIdentifier method.name.toList ∧ method.name.toList.head? ≠ some '#' := by
  obtain ⟨p, hp, m, hm, tail, place, hmember⟩ := ClassBody.exists_head_of_mem_methods hmem
  obtain ⟨hcounts, parameters, rest, name, -, hname, rfl, hmname, -⟩ :=
    ClassBody.parts_of_member? hmember
  obtain ⟨hhead, hcode, hdepth, -⟩ := ClassBody.of_isMember hcounts hname
  rw [ClassBody.text_within h] at hm hhead hmname
  obtain ⟨u, n, y, v, hinside, hcapture, hn, -⟩ := parts_of_head hp hm
  have htext : m.text .name inside = n := text_of_capture? hcapture hinside
  obtain rfl : (⟨byteLength u, byteLength (u ++ n)⟩ : Span) = name :=
    Option.some.inj (hcapture.symm.trans hname)
  have hmethod : method.name.toList = n := by rw [hmname, htext, String.toList_ofList]
  obtain ⟨hcs, hplace⟩ := eq_at_inside h hinside
  rw [htext] at hhead
  rw [hmethod]
  refine ⟨_, Nat.le_add_right _ _, ?_, ?_, hcode, hdepth.trans (depthAt_start h),
    hn.resolve_left hhead, hhead⟩
  · show byteLength front + 1 + byteLength u + byteLength n ≤ byteLength front + 1 + byteLength inside
    rw [hinside, byteLength_append, byteLength_append]
    omega
  · show n <+: dropBytes ((insideOf front inside).start + byteLength u) cs
    rw [← hplace, hcs, dropBytes_append, List.append_assoc]
    exact List.prefix_append _ _

/-- The parameters of a method stand in the text behind every offset in front of the body. -/
theorem parameterBehind_of_mem_methods (h : Block cs front inside back)
    (hmem : method ∈ (ClassBody.within cs front inside).methods) {offset : Nat}
    (hoffset : offset ≤ (insideOf front inside).start) :
    ∀ p ∈ method.parameters, ParameterBehind cs offset p := by
  obtain ⟨p, hp, m, hm, tail, place, hmember⟩ := ClassBody.exists_head_of_mem_methods hmem
  obtain ⟨-, parameters, rest, name, hparameters, -, -, -, hmparameters, -⟩ :=
    ClassBody.parts_of_member? hmember
  rw [ClassBody.text_within h] at hm
  obtain ⟨u, n, y, v, -, -, -, hhead, -⟩ := parts_of_head hp hm
  generalize u ++ (n ++ y) = u at hhead
  obtain ⟨closing, -, hslices⟩ := Option.map_eq_some_iff.mp hparameters
  obtain ⟨rfl, -⟩ := Prod.mk.inj hslices
  have hinside : inside = (u ++ ['(']) ++ v := by
    rw [hhead.text_eq]
    simp
  obtain ⟨hcs, hplace⟩ := eq_at_inside h hinside
  have hopening : (insideOf front inside).start + m.span.stop - 1 + 1
      = byteLength (front ++ '{' :: (u ++ ['('])) := by
    rw [hplace, hhead.stop_eq, byteLength_append]
    show _ = _ + (_ + 1)
    omega
  intro q hq
  rw [hmparameters] at hq
  refine parameterBehind_of_mem (slice_behind hcs hopening ?_) hq
  rw [hopening, hplace]
  exact Nat.le_trans hoffset (Nat.le_add_right _ _)

end Within

/-- **A method stands in the body of its class**, and so do its parameters. -/
theorem method_located {source : String} {c : ClassItem} (hc : c ∈ (extract source).classes)
    {method : MethodItem} (hmethod : method ∈ c.methods) :
    (∃ span place, MethodAt source.toList c.offset method span place)
      ∧ ∀ p ∈ method.parameters, ParameterBehind source.toList c.offset p := by
  obtain ⟨htop, hmethods⟩ := class_of_mem hc
  rw [hmethods] at hmethod
  rcases hspan : bodySpan source.toList (.ofText source.toList) c.offset with - | span
  · -- without a body there are no methods
    rw [hspan] at hmethod
    cases hmethod
  · rw [hspan] at hmethod
    obtain ⟨front, inside, back, hblock, rfl⟩ :=
      block_of_bodySpan (depthAt_of_isTopLevel htop) hspan
    obtain ⟨body, hfrom, hbody⟩ := Option.bind_eq_some_iff.mp hspan
    split_ifs at hbody with hsemicolon
    obtain rfl := Option.some.inj hbody
    obtain ⟨place, hstart, hstop, hname, hcode, hdepth, hidentifier, hprivate⟩ :=
      exists_place_of_mem_methods hblock hmethod
    exact ⟨⟨_, place, hfrom, by simpa using hsemicolon, hstart, hstop, hname, hcode, hdepth,
      hidentifier, hprivate⟩, parameterBehind_of_mem_methods hblock hmethod
        (Nat.le_of_lt (lt_start_of_blockFrom hfrom))⟩

/-- **Everything that is extracted is really there.**  Functions, classes and exports begin in code
outside all braces, with a keyword of their kind; their names and parameters stand in the text behind
that; and the methods of a class stand in its body. -/
theorem extract_located (source : String) :
    (∀ f ∈ (extract source).functions,
        StandsAt source.toList f.offset ["async", "function", "const", "let", "var"]
          ∧ IsIdentifier f.name.toList ∧ f.name.toList <:+: dropBytes f.offset source.toList
          ∧ ∀ p ∈ f.parameters, ParameterBehind source.toList f.offset p)
      ∧ (∀ c ∈ (extract source).classes,
        StandsAt source.toList c.offset ["class"]
          ∧ IsIdentifier c.name.toList ∧ c.name.toList <:+: dropBytes c.offset source.toList
          ∧ c.name ∉ ["extends", "implements"]
          ∧ ∀ m ∈ c.methods, (∃ span place, MethodAt source.toList c.offset m span place)
            ∧ ∀ p ∈ m.parameters, ParameterBehind source.toList c.offset p)
      ∧ ∀ e ∈ (extract source).exports,
        StandsAt source.toList e.offset ["export"]
          ∧ e.name.toList ≠ [] ∧ e.name.toList <:+: dropBytes e.offset source.toList := by
  refine ⟨fun f => function_located, fun c hc => ?_, fun e => export_located⟩
  obtain ⟨hstands, hidentifier, hname, hheritage⟩ := class_located hc
  exact ⟨hstands, hidentifier, hname, hheritage, fun m => method_located hc⟩

end Scaffold

/-
Scaffold/Proofs/Extraction/Module.lean

What is extracted from a module of exported functions.

A module is one declaration below another (`moduleText`).  Outside its braces an
export begins only where a declaration does (`exists_place`): in a body a brace
is open, and in its head a declaration has no other export.  At these places a
match is found, for none in front runs over its declaration.  So

* the exports of a module are its declarations (`exports_moduleText`), the
  recognizers of other exports finding nothing;
* each declaration is among the functions (`exists_function`), though there may
  be others.

The targets go by the exports, so they have the names of the declarations, in
order (`map_name_targets`).
-/
import Scaffold.Proofs.Document.Targets
import Scaffold.Proofs.Extraction.Distinct
import Scaffold.Proofs.Extraction.Functions
import Scaffold.Proofs.Text.Pieces

namespace Scaffold

open Text Scan Pattern

/-! ### Modules -/

/-- A module of exported functions, one declaration below another. -/
def moduleText (ds : List ExportedFunction) : String :=
  "\n".intercalate (ds.map ExportedFunction.text)

/-- The declarations of a module in front of some place. -/
def frontText (ds : List ExportedFunction) : List Char :=
  ds.flatMap fun d => d.text.toList ++ ['\n']

/-- The declarations of a module behind some place. -/
def backText (ds : List ExportedFunction) : List Char := ds.flatMap fun d => '\n' :: d.text.toList

@[simp] theorem frontText_nil : frontText [] = [] := rfl

theorem frontText_cons (d : ExportedFunction) (ds : List ExportedFunction) :
    frontText (d :: ds) = d.text.toList ++ '\n' :: frontText ds := by
  rw [frontText, List.flatMap_cons, List.append_assoc]
  rfl

theorem byteLength_frontText_cons (d : ExportedFunction) (ds : List ExportedFunction) :
    byteLength (frontText (d :: ds))
      = byteLength (d.text.toList ++ ['\n']) + byteLength (frontText ds) := by
  rw [frontText_cons, List.append_cons d.text.toList '\n' (frontText ds),
    byteLength_append (_ ++ _)]

@[simp] theorem backText_nil : backText [] = [] := rfl

theorem backText_cons (d : ExportedFunction) (ds : List ExportedFunction) :
    backText (d :: ds) = '\n' :: (d.text.toList ++ backText ds) := by
  rw [backText, List.flatMap_cons, List.cons_append]
  rfl

theorem backText_append_cons (ds₁ : List ExportedFunction) (d : ExportedFunction)
    (ds₂ : List ExportedFunction) : backText (ds₁ ++ d :: ds₂)
      = '\n' :: (frontText ds₁ ++ (d.text.toList ++ backText ds₂)) := by
  induction ds₁ with
  | nil => rw [List.nil_append, backText_cons, frontText_nil, List.nil_append]
  | cons e ds ih =>
    rw [List.cons_append, backText_cons, ih, frontText_cons, List.append_assoc, List.cons_append]

theorem toList_moduleText_cons (d : ExportedFunction) (ds : List ExportedFunction) :
    (moduleText (d :: ds)).toList = d.text.toList ++ backText ds := by
  induction ds generalizing d with
  | nil => simp [moduleText]
  | cons e ds ih =>
    have hnext := ih e
    simp only [moduleText, String.toList_intercalate, List.map_cons] at hnext ⊢
    rw [List.intercalate_cons_cons, hnext, backText_cons]
    simp

/-- The text of a module at one of its declarations. -/
theorem toList_moduleText (ds₁ : List ExportedFunction) (d : ExportedFunction)
    (ds₂ : List ExportedFunction) :
    (moduleText (ds₁ ++ d :: ds₂)).toList = frontText ds₁ ++ (d.text.toList ++ backText ds₂) := by
  cases ds₁ with
  | nil => rw [List.nil_append, toList_moduleText_cons, frontText_nil, List.nil_append]
  | cons e ds =>
    rw [List.cons_append, toList_moduleText_cons, backText_append_cons, frontText_cons,
      List.append_assoc, List.cons_append]

section Front

variable {ds : List ExportedFunction}

theorem pairsBraces_frontText (h : ∀ d ∈ ds, d.Legible) : PairsBraces (frontText ds) := by
  induction ds with
  | nil => rfl
  | cons d ds ih =>
    obtain ⟨hd, hds⟩ := List.forall_mem_cons.mp h
    have hline : PairsBraces ['\n'] := by decide
    rw [frontText_cons]
    exact hd.pairsBraces.append (hline.append (ih hds))

/-- A module is closed where its declarations are. -/
theorem closed_frontText {p : Pattern} (hnull : p.nullable = false)
    (hstarts : p.starts '\n' = false) (h : ∀ d ∈ ds, Closed p d.text.toList) :
    Closed p (frontText ds) := by
  have hall : ∀ c ∈ ['\n'], p.starts c = false := by simpa using hstarts
  induction ds with
  | nil => exact .of_starts hnull (by simp [frontText])
  | cons d ds ih =>
    obtain ⟨hd, hds⟩ := List.forall_mem_cons.mp h
    rw [frontText_cons]
    exact hd.append (Closed.append (b := frontText ds) (.of_starts hnull hall) (ih hds))

/-- In front of a declaration no word ends. -/
theorem apart_frontText (ds : List ExportedFunction) :
    ∀ c ∈ (frontText ds).getLast?, isWordChar c = false := by
  rcases List.eq_nil_or_concat ds with rfl | ⟨ds, d, rfl⟩
  · simp [frontText]
  · intro c hc
    rw [List.concat_eq_append, frontText, List.flatMap_append] at hc
    simp only [List.flatMap_cons, List.flatMap_nil, List.append_nil, ← List.append_assoc,
      List.getLast?_append, List.getLast?_singleton, Option.some_or] at hc
    rw [← Option.some.inj hc]
    decide

end Front

/-! ### Where an export opens -/

section Places

variable {a b r x : List Char} {c : Char}

/-- What stands behind a text where no export begins makes none begin, if it begins with a mark. -/
theorem OpensExport.of_append_cons (hc : c ∈ ['<', '>', '(', ')']) (h : OpensExport (x ++ c :: r)) :
    OpensExport x := by
  have hall : ∀ d ∈ ['<', '>', '(', ')'], isLeadChar d = false ∧ isBlank d = false
      ∧ d ∉ "export".toList ∧ d ≠ '{' := List.all_iff_forall_prop.mp (by decide)
  obtain ⟨hlead, hblank, hword, hbrace⟩ := hall c hc
  rcases h with ⟨k, y, heq, hk⟩ | ⟨b, y, heq, hb⟩
  · -- an export of a declaration
    have hnot : c ∉ k := by
      intro hmem
      rw [hk.elim ExportLead.isLeadChar DefaultLead.isLeadChar c hmem] at hlead
      cases hlead
    obtain ⟨x', rfl, -⟩ := exists_append_of_append_cons hnot heq
    exact .inl ⟨k, x', rfl, hk⟩
  · -- an export of a list
    have hnot : c ∉ "export".toList ++ (b ++ ['{']) := by
      simp only [List.mem_append, List.mem_singleton, not_or]
      refine ⟨hword, fun hmem => ?_, hbrace⟩
      rw [hb c hmem] at hblank
      cases hblank
    have hparts : x ++ c :: r = ("export".toList ++ (b ++ ['{'])) ++ y := by
      rw [heq]
      simp only [List.append_assoc, List.cons_append, List.nil_append]
    obtain ⟨x', rfl, -⟩ := exists_append_of_append_cons hnot hparts
    refine .inr ⟨b, x', ?_, hb⟩
    simp only [List.append_assoc, List.cons_append, List.nil_append]

/-- In the text `a`, with `r` behind it, no export begins outside braces. -/
def ExportFree (a r : List Char) : Prop :=
  ∀ w x, a = w ++ x → x ≠ [] → PairsBraces w → ¬ OpensExport (x ++ r)

theorem ExportFree.append (hpaired : PairsBraces a) (ha : ExportFree a (b ++ r))
    (hb : ExportFree b r) : ExportFree (a ++ b) r := by
  intro w x hab hx hw hopens
  rcases List.append_eq_append_iff.mp hab with ⟨y, rfl, rfl⟩ | ⟨y, rfl, rfl⟩
  · exact hb y x rfl hx (hw.of_append hpaired) hopens
  · by_cases hy : y = []
    · subst hy
      exact hb [] b rfl hx rfl hopens
    · rw [List.append_assoc] at hopens
      exact ha w y rfl hy hw hopens

theorem OpensExport.begins (h : OpensExport x) : "export".toList <+: x := by
  have hexport : ∀ e y, Spaced "export" e → "export".toList <+: e ++ y := by
    rintro e y ⟨b, rfl, -⟩
    rw [List.append_assoc]
    exact List.prefix_append _ _
  rcases h with ⟨k, y, rfl, hk | hk⟩ | ⟨b, y, rfl, -⟩
  · obtain ⟨e, d, c, a, s, k, rfl, he, -⟩ := hk
    rw [List.append_assoc]
    exact hexport e _ he
  · obtain ⟨e, d, rfl, he, -⟩ := hk
    rw [List.append_assoc]
    exact hexport e _ he
  · exact List.prefix_append _ _

theorem head?_of_opensExport (h : OpensExport x) : x.head? = some 'e' := by
  obtain ⟨y, rfl⟩ := h.begins
  rfl

theorem not_hasExport_of_not_isInfix (h : ¬ "export".toList <:+: a) : ¬ HasExport a := by
  rintro ⟨w, x, rfl, -, hopens⟩
  obtain ⟨y, rfl⟩ := hopens.begins
  exact h ⟨w, y, List.append_assoc _ _ _⟩

theorem ExportFree.of_not_mem (h : 'e' ∉ a) (r : List Char) : ExportFree a r := by
  intro w x ha hx _ hopens
  obtain ⟨d, x, rfl⟩ := List.exists_cons_of_ne_nil hx
  obtain rfl : d = 'e' := Option.some.inj (head?_of_opensExport hopens)
  exact h (by rw [ha]; simp)

theorem ExportFree.of_not_hasExport (h : ¬ HasExport a) (hc : c ∈ ['<', '>', '(', ')'])
    (r : List Char) : ExportFree a (c :: r) := by
  intro w x ha _ hw hopens
  exact h ⟨w, x, ha, hw, hopens.of_append_cons hc⟩

/-- No export begins in a name. -/
theorem not_hasExport_of_isIdentifier (h : IsIdentifier a) : ¬ HasExport a := by
  rintro ⟨w, x, rfl, -, hopens⟩
  have hpart : ∀ d ∈ x, isIdentifierPart d = true := fun d hd => h.2 d (List.mem_append_right _ hd)
  have hbegins : ∀ k y, x = k ++ y → ¬ BeginsExport k := by
    rintro k y rfl ⟨b, z, rfl, hne, hb, -⟩
    obtain ⟨d, b, rfl⟩ := List.exists_cons_of_ne_nil hne
    have hd := hpart d (by simp)
    rw [isIdentifierPart_of_isBlank (hb d List.mem_cons_self)] at hd
    cases hd
  rcases hopens with ⟨k, y, hx, hk⟩ | ⟨b, y, rfl, -⟩
  · exact hbegins k y hx (hk.elim ExportLead.beginsExport DefaultLead.beginsExport)
  · have hbrace := hpart '{' (by simp)
    revert hbrace
    decide

end Places

namespace ExportedFunction

variable {d : ExportedFunction} {r u x : List Char}

/-- The word `export` stands at the beginning of a declaration. -/
theorem exists_head_cons (h : d.Legible) (r : List Char) :
    ∃ rest, d.head.toList = 'e' :: rest ∧ ExportFree rest (' ' :: '{' :: r) := by
  have htypes : ∀ y, ExportFree d.typeList.toList ('(' :: y) := by
    intro y
    rw [typeList]
    cases hg : d.generics with
    | none => exact .of_not_mem (by decide) _
    | some g =>
      have htext : ("<" ++ g ++ ">").toList = ['<'] ++ (g.toList ++ ['>']) := by simp
      show ExportFree ("<" ++ g ++ ">").toList _
      rw [htext]
      exact .append (by decide) (.of_not_mem (by simp) _) (.append (h.generics g hg).2.1
        (.of_not_hasExport (h.generics g hg).2.2 (by simp) _) (.of_not_mem (by simp) _))
  have hname : ∀ y, ExportFree d.name.toList (d.typeList.toList ++ '(' :: y) := by
    intro y
    have hfree := not_hasExport_of_isIdentifier h.name
    rw [typeList]
    cases d.generics with
    | none => exact .of_not_hasExport hfree (by simp) _
    | some g =>
      have htext : ("<" ++ g ++ ">").toList ++ '(' :: y = '<' :: (g.toList ++ '>' :: '(' :: y) := by
        simp
      show ExportFree _ (("<" ++ g ++ ">").toList ++ '(' :: y)
      rw [htext]
      exact .of_not_hasExport hfree (by simp) _
  have hkeyword : ∀ y, ExportFree ("xport ".toList ++ d.keyword.toList) y := by
    intro y
    rw [toList_keyword, marker]
    cases d.isAsync <;> exact .of_not_mem (by decide) y
  refine ⟨"xport ".toList ++ d.keyword.toList ++ (d.name.toList ++ (d.typeList.toList
    ++ (['('] ++ (d.parameters.toList ++ [')'])))), ?_, ?_⟩
  · have hexport : "export ".toList = 'e' :: "xport ".toList := rfl
    rw [toList_head, hexport]
    simp only [List.append_assoc, List.cons_append, List.nil_append]
  · have hparen : ∀ y, ExportFree ['('] y := .of_not_mem (by simp)
    have hclose : ∀ y, ExportFree [')'] y := .of_not_mem (by simp)
    have hparams := ExportFree.of_not_hasExport (c := ')') h.parameters.2 (by simp)
      (' ' :: '{' :: r)
    have hnames := hname (d.parameters.toList ++ ')' :: ' ' :: '{' :: r)
    have htype := htypes (d.parameters.toList ++ ')' :: ' ' :: '{' :: r)
    have hxport : PairsBraces "xport ".toList := by decide
    refine .append (hxport.append d.pairsBraces_keyword) (hkeyword _) (.append h.pairsBraces_name ?_
      (.append h.pairsBraces_typeList ?_ (.append (by decide) (hparen _)
        (.append h.parameters.1 hparams (hclose _)))))
    · simpa using hnames
    · simpa using htype

/-- Outside the braces of a declaration no other export opens. -/
theorem eq_nil_of_opensExport (h : d.Legible) (htext : d.text.toList = u ++ x) (hx : x ≠ [])
    (hdepth : braceDepth? 0 u = some 0) (hopens : OpensExport (x ++ r)) : u = [] := by
  have hopening : ∀ y, braceDepth? 0 (d.head.toList ++ ' ' :: '{' :: y) = braceDepth? 1 y :=
    fun y => braceDepth?_append_of_eq h.pairsBraces_head (' ' :: '{' :: y)
  have hstart : ∀ y, OpensExport y → y.head? ≠ some ' ' ∧ y.head? ≠ some '{' := by
    intro y hy
    rw [head?_of_opensExport hy]
    decide
  rw [toList_text] at htext
  rcases List.append_eq_append_iff.mp htext with ⟨y, rfl, hy⟩ | ⟨y, hu, rfl⟩
  · -- the place is behind the head; in the body a brace is open
    rcases y with - | ⟨c, - | ⟨c', y⟩⟩
    · rw [List.nil_append] at hy
      rw [← hy] at hopens
      exact absurd rfl (hstart _ hopens).1
    · obtain ⟨-, rfl⟩ := List.cons.inj hy
      exact absurd rfl (hstart _ hopens).2
    · simp only [List.cons_append, List.cons.injEq] at hy
      obtain ⟨rfl, rfl, hy⟩ := hy
      obtain ⟨x, rfl⟩ := exists_concat_of_append hy hx
      rw [← List.append_assoc] at hy
      have hbody := h.body.1
      rw [List.append_cancel_right hy] at hbody
      obtain ⟨e, he, hle⟩ := hbody.le_of_append 1
      rw [hopening, he] at hdepth
      obtain rfl := Option.some.inj hdepth
      omega
  · -- the place is in the head
    obtain ⟨rest, hhead, hfree⟩ := exists_head_cons h (d.body.toList ++ ['}'] ++ r)
    rw [hhead] at hu
    rcases u with - | ⟨c, u⟩
    · rfl
    · by_cases hy : y = []
      · subst hy
        exact absurd rfl (hstart _ hopens).1
      · obtain ⟨rfl, hrest⟩ := List.cons.inj hu
        have hpaired : PairsBraces u := PairsBraces.of_append (u := ['e']) hdepth (by decide)
        refine absurd ?_ (hfree u y hrest hy hpaired)
        simpa using hopens

end ExportedFunction

/-- **Outside all braces of a module an export opens only where a declaration begins.** -/
theorem exists_place {ds : List ExportedFunction} (h : ∀ d ∈ ds, d.Legible) {u v : List Char}
    (hmodule : (moduleText ds).toList = u ++ v) (hdepth : braceDepth? 0 u = some 0)
    (hopens : OpensExport v) : ∃ ds₁ d ds₂, ds = ds₁ ++ d :: ds₂ ∧ u = frontText ds₁ := by
  have hhead := head?_of_opensExport hopens
  induction ds generalizing u with
  | nil =>
    have hnil : u ++ v = [] := by rw [← hmodule]; rfl
    rw [(List.append_eq_nil_iff.mp hnil).2] at hhead
    cases hhead
  | cons d ds ih =>
    obtain ⟨hd, hds⟩ := List.forall_mem_cons.mp h
    -- no export opens with the newline behind a declaration
    have hback : backText ds ≠ v := by
      rintro rfl
      cases ds with
      | nil => cases hhead
      | cons e ds =>
        rw [backText_cons] at hhead
        cases hhead
    rw [toList_moduleText_cons] at hmodule
    rcases List.append_eq_append_iff.mp hmodule with ⟨y, hu, hy⟩ | ⟨x, htext, rfl⟩
    · cases y with
      | nil => exact absurd hy hback
      | cons c y =>
        cases ds with
        | nil => cases hy
        | cons e ds =>
          rw [backText_cons, ← toList_moduleText_cons, List.cons_append, List.cons.injEq] at hy
          obtain ⟨rfl, hy⟩ := hy
          rw [hu] at hdepth ⊢
          have hrest : PairsBraces y := by
            have hline : PairsBraces (['\n'] ++ y) := PairsBraces.of_append hdepth hd.pairsBraces
            exact hline.of_append (by decide)
          obtain ⟨ds₁, d', ds₂, hds', rfl⟩ := ih hds hy hrest
          refine ⟨d :: ds₁, d', ds₂, by rw [hds', List.cons_append], ?_⟩
          rw [frontText_cons]
    · by_cases hx : x = []
      · subst hx
        exact absurd rfl hback
      · exact ⟨[], d, ds, rfl, ExportedFunction.eq_nil_of_opensExport hd htext hx hdepth hopens⟩

/-! ### The exports of a module -/

/-- The exports of some declarations, the first of which begins at an offset. -/
def exportsFrom : (offset : Nat) → List ExportedFunction → List ExportItem
  | _, [] => []
  | offset, d :: ds =>
    ⟨d.name, false, offset⟩ :: exportsFrom (offset + byteLength (d.text.toList ++ ['\n'])) ds

theorem map_name_exportsFrom (offset : Nat) (ds : List ExportedFunction) :
    (exportsFrom offset ds).map (·.name) = ds.map (·.name) := by
  induction ds generalizing offset with
  | nil => rfl
  | cons d ds ih => rw [exportsFrom, List.map_cons, List.map_cons, ih]

theorem mem_exportsFrom {offset : Nat} {ds : List ExportedFunction} {e : ExportItem} :
    e ∈ exportsFrom offset ds ↔ ∃ ds₁ d ds₂, ds = ds₁ ++ d :: ds₂
      ∧ e = ⟨d.name, false, offset + byteLength (frontText ds₁)⟩ := by
  induction ds generalizing offset with
  | nil => simp [exportsFrom]
  | cons d ds ih =>
    rw [exportsFrom, List.mem_cons, ih]
    constructor
    · rintro (rfl | ⟨ds₁, d', ds₂, rfl, rfl⟩)
      · exact ⟨[], d, ds, rfl, rfl⟩
      · refine ⟨d :: ds₁, d', ds₂, rfl, ?_⟩
        rw [byteLength_frontText_cons, Nat.add_assoc]
    · rintro ⟨ds₁, d', ds₂, hds, rfl⟩
      cases ds₁ with
      | nil =>
        obtain ⟨rfl, -⟩ := List.cons.inj hds
        exact .inl rfl
      | cons e ds₁ =>
        rw [List.cons_append, List.cons.injEq] at hds
        obtain ⟨rfl, hds⟩ := hds
        refine .inr ⟨ds₁, d', ds₂, hds, ?_⟩
        rw [byteLength_frontText_cons, Nat.add_assoc]

theorem pairwise_exportsFrom (offset : Nat) (ds : List ExportedFunction) :
    (exportsFrom offset ds).Pairwise fun e e' => e.offset < e'.offset := by
  induction ds generalizing offset with
  | nil => exact .nil
  | cons d ds ih =>
    refine .cons (fun e he => ?_) (ih _)
    obtain ⟨ds₁, d', ds₂, -, rfl⟩ := mem_exportsFrom.mp he
    have hpos : 0 < byteLength (d.text.toList ++ ['\n']) := byteLength_pos_of_ne_nil (by simp)
    show offset < _
    simp only
    omega

/-- Exports behind `export` are found in the order of their places. -/
theorem pairwise_exported (source : List Char) (map : CodeMap) :
    ((Recognizer.exportedDeclaration.find source map).filterMap Found.export?).Pairwise
      fun e e' => e.offset < e'.offset := by
  have hpicks : PicksOne Found.export? (·.offset) .exportedDeclaration source := by
    refine .of_mem_read fun m f x hread hpick => ⟨by decide, ?_⟩
    cases f with
    | exporting e =>
      obtain rfl : e = x := Option.some.inj hpick
      cases standsFor_of_mem_read hread
      rfl
    | function f => cases hpick
    | classNamed name offset => cases hpick
  rw [Recognizer.find_eq_flatMap, Recognizer.patterns, List.flatMap_singleton]
  exact hpicks.pairwise_foundBy exportedDeclaration

theorem pairsBraces_moduleText {ds : List ExportedFunction} (h : ∀ d ∈ ds, d.Legible) :
    PairsBraces (moduleText ds).toList := by
  rcases List.eq_nil_or_concat ds with rfl | ⟨ds, d, rfl⟩
  · rfl
  · rw [List.concat_eq_append] at h ⊢
    rw [toList_moduleText]
    have hfront := pairsBraces_frontText fun e he => h e (List.mem_append_left _ he)
    have hd := (h d (by simp)).pairsBraces
    exact hfront.append (hd.append rfl)

/-- Recognizers of declarations find no exports. -/
theorem export?_of_ne {source : List Char} {map : CodeMap} {r : Recognizer}
    (hdeclaration : r ≠ .exportedDeclaration) (hname : r ≠ .exportedName)
    (hlist : r ≠ .exportedList) : (r.find source map).filterMap Found.export? = [] := by
  refine List.filterMap_eq_nil_iff.mpr fun f hf => ?_
  obtain ⟨p, -, m, -, -, hread⟩ := mem_find_iff.mp hf
  cases f with
  | function f => rfl
  | classNamed name offset => rfl
  | exporting e =>
    cases standsFor_of_mem_read hread with
    | exportedDeclaration => exact absurd rfl hdeclaration
    | exportedName => exact absurd rfl hname
    | exportedList => exact absurd rfl hlist

/-- What a recognizer finds of functions is in the outline. -/
theorem mem_functions_of_mem_find {source : String} {r : Recognizer} {f : FunctionItem}
    (hf : .function f ∈ r.find source.toList (.ofText source.toList)) (hr : r ∈ Recognizer.all) :
    f ∈ (extract source).functions := by
  refine List.mem_mergeSort.mpr (List.mem_filterMap.mpr ⟨.function f, ?_, rfl⟩)
  exact List.mem_flatMap.mpr ⟨r, hr, hf⟩

/-- Behind `export` no expression begins. -/
theorem inExpression_behind_export (u v : List Char) :
    inExpression ((u ++ "export ".toList) ++ v) (byteLength (u ++ "export ".toList)) = false := by
  have htrim : dropEndWhile isBlank "export ".toList = "export".toList := by decide
  rw [inExpression, takeBytes_append, trimEnd, dropEndWhile_append (by rw [htrim]; decide), htrim,
    List.getLast?_append]
  rfl

section Module

variable {ds : List ExportedFunction} (h : ∀ d ∈ ds, d.Legible)
  (hquiet : (CodeMap.ofText (moduleText ds).toList).quiet = [])

include h hquiet

/-- What opens an export outside all braces is a declaration. -/
theorem exists_place_of_isTopLevel {u v : List Char} (hmodule : (moduleText ds).toList = u ++ v)
    (htop : (CodeMap.ofText (moduleText ds).toList).isTopLevel (byteLength u) = true)
    (hopens : OpensExport v) : ∃ ds₁ d ds₂, ds = ds₁ ++ d :: ds₂ ∧ u = frontText ds₁
      ∧ v = d.text.toList ++ backText ds₂ := by
  have hpaired := pairsBraces_moduleText h
  rw [hmodule] at htop hquiet hpaired
  obtain ⟨e, he, -⟩ := hpaired.le_of_append 0
  obtain rfl := (isTopLevel_iff_of_braceDepth? hquiet he).mp htop
  obtain ⟨ds₁, d, ds₂, rfl, rfl⟩ := exists_place h hmodule he hopens
  rw [toList_moduleText] at hmodule
  exact ⟨ds₁, d, ds₂, rfl, rfl, (List.append_cancel_left hmodule).symm⟩

omit h in
/-- Behind a text whose braces are paired there is code outside all braces. -/
theorem isTopLevel_of_pairsBraces {u v : List Char} (hmodule : (moduleText ds).toList = u ++ v)
    (hu : PairsBraces u) :
    (CodeMap.ofText (moduleText ds).toList).isTopLevel (byteLength u) = true := by
  rw [hmodule] at hquiet ⊢
  exact (isTopLevel_iff_of_braceDepth? hquiet hu).mpr rfl

omit hquiet in
/-- At each declaration there is the match of an export, and it is found. -/
theorem exists_exported_match {ds₁ ds₂ : List ExportedFunction} {d : ExportedFunction}
    (hds : ds = ds₁ ++ d :: ds₂) :
    ∃ m, exportedDeclaration.matchAt? (.between (frontText ds₁) (d.text.toList ++ backText ds₂))
        = some m
      ∧ m ∈ exportedDeclaration.findAll (moduleText ds).toList
      ∧ m.span.start = byteLength (frontText ds₁)
      ∧ m.text .name (moduleText ds).toList = d.name.toList ∧ m.has .defaultMark = false := by
  have hd : d.Legible := h d (by simp [hds])
  have hbehind : ∀ y, ∀ c ∈ (d.typeList.toList ++ '(' :: y).head?, isIdentifierPart c = false :=
    fun y c hc => (isIdentifierPart_eq_false_of_head (d.head?_typeList y c hc)).1
  obtain ⟨m, hm, hname, hdefault⟩ := exists_exportedDeclaration hd (apart_frontText ds₁)
    (hbehind (d.parameters.toList ++ ')' :: ' ' :: '{' :: (d.body.toList ++ '}' :: backText ds₂)))
  have htext : d.text.toList ++ backText ds₂ = "export ".toList ++ (d.keyword.toList
      ++ (d.name.toList ++ (d.typeList.toList ++ '(' :: (d.parameters.toList
        ++ ')' :: ' ' :: '{' :: (d.body.toList ++ '}' :: backText ds₂))))) := by
    rw [d.toList_text, d.toList_head]
    simp only [List.append_assoc, List.cons_append, List.nil_append]
  rw [← htext] at hm hname
  have hclosed : Closed exportedDeclaration (frontText ds₁) :=
    closed_frontText rfl (by decide) fun e _ => e.closed_exportedDeclaration
  rw [hds, toList_moduleText]
  exact ⟨m, hm, hclosed.mem_findAll hm,
    (span_start_of_matchAt? hm).trans (Cursor.between_offset _ _), hname, hdefault⟩

omit hquiet in
/-- Behind each `export` there is the match of a function, and it is found. -/
theorem exists_function_match {ds₁ ds₂ : List ExportedFunction} {d : ExportedFunction}
    (hds : ds = ds₁ ++ d :: ds₂) :
    ∃ m ∈ functionDeclaration.findAll (moduleText ds).toList,
      m.span.start = byteLength (frontText ds₁ ++ "export ".toList)
        ∧ m.text .name (moduleText ds).toList = d.name.toList := by
  have hlegible : ∀ e ∈ ds₁, e.Legible := fun e he => h e (by simp [hds, he])
  have hapart : ∀ c ∈ (frontText ds₁ ++ "export ".toList).getLast?, isWordChar c = false := by
    rw [List.getLast?_append]
    rintro c ⟨⟩
    decide
  obtain ⟨m, hm, hname⟩ := @exists_functionDeclaration d (frontText ds₁ ++ "export ".toList)
    (d.parameters.toList ++ ')' :: ' ' :: '{' :: (d.body.toList ++ '}' :: backText ds₂))
    (h d (by simp [hds])) hapart (by simp)
  have hclosed : Closed functionDeclaration (frontText ds₁ ++ "export ".toList) :=
    (closed_frontText rfl (by decide) fun e he =>
      (hlegible e he).closed_functionDeclaration).append
        (.of_starts rfl (List.all_iff_forall_prop.mp (by decide)))
  have hmodule : (moduleText ds).toList = (frontText ds₁ ++ "export ".toList) ++ (d.keyword.toList
      ++ (d.name.toList ++ (d.typeList.toList ++ '(' :: (d.parameters.toList
        ++ ')' :: ' ' :: '{' :: (d.body.toList ++ '}' :: backText ds₂))))) := by
    rw [hds, toList_moduleText, d.toList_text, d.toList_head]
    simp only [List.append_assoc, List.cons_append, List.nil_append]
  rw [hmodule]
  exact ⟨m, hclosed.mem_findAll hm, (span_start_of_matchAt? hm).trans (Cursor.between_offset _ _),
    hname⟩

/-- **The exported declarations that are found are those of the module.** -/
theorem mem_exported_iff {e : ExportItem} :
    e ∈ (Recognizer.exportedDeclaration.find (moduleText ds).toList
        (.ofText (moduleText ds).toList)).filterMap Found.export?
      ↔ e ∈ exportsFrom 0 ds := by
  rw [mem_exportsFrom, List.mem_filterMap]
  constructor
  · -- what is found is the export of a declaration of the module
    rintro ⟨f, hf, he⟩
    cases f with
    | function f => cases he
    | classNamed name offset => cases he
    | exporting e' =>
      obtain rfl : e' = e := Option.some.inj he
      obtain ⟨p, hp, m, hm, htop, hread⟩ := mem_find_iff.mp hf
      obtain rfl := List.mem_singleton.mp hp
      obtain ⟨place, u, x, v, hsource, hstart, -, hlead, -⟩ :=
        names_exportedDeclaration.introduces hm htop
      rw [hstart] at htop
      obtain ⟨ds₁, d, ds₂, hds, rfl, hrest⟩ := exists_place_of_isTopLevel h hquiet hsource htop
        (.inl ⟨x, _, rfl, .inl hlead⟩)
      obtain ⟨m', hm', -, -, hname, hdefault⟩ := exists_exported_match h hds
      rw [hsource] at hm
      rw [← hrest, matchAt?_of_mem_findAll hm hstart] at hm'
      obtain rfl := Option.some.inj hm'
      cases standsFor_of_mem_read hread
      refine ⟨ds₁, d, ds₂, hds, ?_⟩
      rw [hname, hdefault, hstart, Nat.zero_add, String.ofList_toList]
  · -- each declaration is found
    rintro ⟨ds₁, d, ds₂, hds, rfl⟩
    obtain ⟨m, -, hfound, hstart, hname, hdefault⟩ := exists_exported_match h hds
    have hfront : ∀ e ∈ ds₁, e.Legible := fun e he => h e (by simp [hds, he])
    have hmodule : (moduleText ds).toList = frontText ds₁ ++ (d.text.toList ++ backText ds₂) := by
      rw [hds, toList_moduleText]
    refine ⟨.exporting ⟨d.name, false, 0 + byteLength (frontText ds₁)⟩, mem_find_iff.mpr
      ⟨_, List.mem_singleton_self _, m, hfound, ?_, ?_⟩, rfl⟩
    · rw [hstart]
      exact isTopLevel_of_pairsBraces hquiet hmodule (pairsBraces_frontText hfront)
    · have hheritage := (h d (by simp [hds])).notHeritage
      simp only [Recognizer.read, hname, hdefault, hstart, String.ofList_toList, Nat.zero_add]
      rw [if_neg (by simpa using hheritage)]
      exact List.mem_singleton_self _

omit h hquiet in
/-- Behind `export` stands the keyword of the declaration. -/
theorem exists_keyword_of_text {d : ExportedFunction} {r b y : List Char}
    (htext : d.text.toList ++ r = "export".toList ++ (b ++ y)) (hb : ∀ c ∈ b, isBlank c = true)
    (hy : ∀ c ∈ y.head?, isBlank c = false) : ∃ z, y = d.keyword.toList ++ z := by
  obtain ⟨z, hz⟩ : ∃ z, d.text.toList ++ r
      = "export".toList ++ ([' '] ++ (d.keyword.toList ++ z)) := by
    have hexport : "export ".toList = "export".toList ++ [' '] := rfl
    rw [d.toList_text, d.toList_head, hexport]
    simp only [List.append_assoc]
    exact ⟨_, rfl⟩
  have hblank : ∀ c ∈ (d.keyword.toList ++ z).head?, isBlank c = false := by
    intro c hc
    rcases d.head?_keyword z with hhead | hhead
    · rw [← Option.some.inj (hhead.symm.trans hc)]
      decide
    · rw [← Option.some.inj (hhead.symm.trans hc)]
      decide
  obtain ⟨-, hrest⟩ := append_inj_of_class (List.append_cancel_left (htext.symm.trans hz)) hb
    isBlank_space hy hblank
  exact ⟨z, hrest⟩

/-- No declaration is exported as the default by its name. -/
theorem export?_exportedName :
    (Recognizer.exportedName.find (moduleText ds).toList
        (.ofText (moduleText ds).toList)).filterMap Found.export? = [] := by
  refine List.filterMap_eq_nil_iff.mpr fun f hf => ?_
  exfalso
  obtain ⟨p, hp, m, hm, htop, -⟩ := mem_find_iff.mp hf
  obtain rfl := List.mem_singleton.mp hp
  obtain ⟨place, u, x, v, hsource, hstart, -, hlead, -⟩ := names_exportedName.introduces hm htop
  rw [hstart] at htop
  obtain ⟨ds₁, d, ds₂, -, -, hrest⟩ := exists_place_of_isTopLevel h hquiet hsource htop
    (.inl ⟨x, _, rfl, .inr hlead⟩)
  obtain ⟨e, w, rfl, ⟨b, rfl, -, hb⟩, ⟨b', rfl, -⟩⟩ := hlead
  simp only [List.append_assoc] at hrest
  obtain ⟨z, hz⟩ := exists_keyword_of_text hrest.symm hb (by rintro c ⟨⟩; decide)
  apply @ExportedFunction.not_prefix_keyword d z "default" (by simp)
  rw [← hz]
  exact List.prefix_append _ _

/-- No declaration is a list of exports. -/
theorem export?_exportedList :
    (Recognizer.exportedList.find (moduleText ds).toList
        (.ofText (moduleText ds).toList)).filterMap Found.export? = [] := by
  refine List.filterMap_eq_nil_iff.mpr fun f hf => ?_
  exfalso
  obtain ⟨p, hp, m, hm, htop, hread⟩ := mem_find_iff.mp hf
  obtain rfl := List.mem_singleton.mp hp
  have htype : m.has .typeMark = false := by
    cases standsFor_of_mem_read hread with
    | exportedList htype => exact htype
  obtain ⟨l, hstart, -⟩ := exists_exportList hm htop htype
  rw [hstart] at htop
  obtain ⟨ds₁, d, ds₂, -, -, hrest⟩ := exists_place_of_isTopLevel h hquiet l.eq htop
    (.inr ⟨l.gap, _, rfl, l.blank⟩)
  obtain ⟨z, hz⟩ := exists_keyword_of_text hrest.symm l.blank (by rintro c ⟨⟩; decide)
  rcases d.head?_keyword z with hhead | hhead
  · rw [← hz] at hhead
    cases hhead
  · rw [← hz] at hhead
    cases hhead

/-- **The exports of a module are its declarations, in order.** -/
theorem exports_moduleText : (extract (moduleText ds)).exports = exportsFrom 0 ds := by
  have hother : ∀ r, r ≠ .exportedDeclaration → r ≠ .exportedName → r ≠ .exportedList →
      (Recognizer.find r (moduleText ds).toList (.ofText (moduleText ds).toList)).filterMap
        Found.export? = [] := fun r => export?_of_ne
  have hfound : (findings Recognizer.all (moduleText ds).toList
      (.ofText (moduleText ds).toList)).filterMap Found.export?
      = (Recognizer.exportedDeclaration.find (moduleText ds).toList
        (.ofText (moduleText ds).toList)).filterMap Found.export? := by
    simp only [findings, Recognizer.all, List.flatMap_cons, List.flatMap_nil, List.filterMap_append,
      hother .functionKeyword (by simp) (by simp) (by simp),
      hother .boundFunction (by simp) (by simp) (by simp),
      hother .classKeyword (by simp) (by simp) (by simp), export?_exportedName h hquiet,
      export?_exportedList h hquiet, List.nil_append, List.append_nil]
  have heq : (Recognizer.exportedDeclaration.find (moduleText ds).toList
      (.ofText (moduleText ds).toList)).filterMap Found.export? = exportsFrom 0 ds :=
    eq_of_pairwise_offset (pairwise_exported _ _) (pairwise_exportsFrom 0 ds) fun e =>
      mem_exported_iff h hquiet
  show sortByOffset _ _ = _
  rw [hfound, heq]
  exact sortByOffset_of_pairwise ((pairwise_exportsFrom 0 ds).imp fun h => Nat.le_of_lt h)

/-- **Each declaration of a module is found.** -/
theorem exists_function {d : ExportedFunction} (hd : d ∈ ds) :
    ∃ f ∈ (extract (moduleText ds)).functions, f.name = d.name := by
  obtain ⟨ds₁, ds₂, hds⟩ := List.append_of_mem hd
  obtain ⟨m, hm, hstart, hname⟩ := exists_function_match h hds
  obtain ⟨y, hmodule⟩ : ∃ y, (moduleText ds).toList = (frontText ds₁ ++ "export ".toList) ++ y := by
    rw [hds, toList_moduleText, d.toList_text, d.toList_head]
    simp only [List.append_assoc]
    exact ⟨_, rfl⟩
  have hpaired : PairsBraces (frontText ds₁ ++ "export ".toList) :=
    (pairsBraces_frontText fun e he => h e (by simp [hds, he])).append (by decide)
  have hplace : inExpression (moduleText ds).toList m.span.start = false := by
    rw [hstart, hmodule]
    exact inExpression_behind_export _ _
  have hread : .function (Recognizer.functionOf (moduleText ds).toList m)
      ∈ Recognizer.functionKeyword.find (moduleText ds).toList
        (.ofText (moduleText ds).toList) := by
    refine mem_find_iff.mpr ⟨_, List.mem_singleton_self _, m, hm, ?_, ?_⟩
    · rw [hstart]
      exact isTopLevel_of_pairsBraces hquiet hmodule hpaired
    · rw [Recognizer.read, hplace]
      exact List.mem_singleton_self _
  refine ⟨_, mem_functions_of_mem_find hread (by simp [Recognizer.all]), ?_⟩
  rw [Recognizer.functionOf, hname, String.ofList_toList]

/-- **The targets of a module are its declarations, in order.** -/
theorem map_name_targets (hnames : (ds.map (·.name)).Nodup) :
    (extract (moduleText ds)).targets.map Target.name = ds.map (·.name) := by
  have hexports := exports_moduleText h hquiet
  have hmap := map_name_exportsFrom 0 ds
  rcases ds with - | ⟨d, ds⟩
  · -- the empty module
    have hnone : (extract "").targets = [] := by decide +kernel
    exact congrArg (List.map Target.name) hnone
  · have hne : (extract (moduleText (d :: ds))).exports ≠ [] := by
      rw [hexports]
      exact List.cons_ne_nil _ _
    rw [Outline.targets_of_exports hne, Outline.map_name_filterMap_target?, hexports,
      distinctBy_of_nodup (by rw [hmap]; exact hnames), hmap, List.filter_eq_self]
    intro name hname
    obtain ⟨e, he, rfl⟩ := List.mem_map.mp hname
    obtain ⟨f, hf, hfname⟩ := exists_function h hquiet he
    rw [← hfname]
    exact decide_eq_true (List.mem_append_left _ (List.mem_map_of_mem hf))

/-- What is tested of a module are functions. -/
theorem exists_eq_function_of_mem_targets (hnames : (ds.map (·.name)).Nodup) {t : Target}
    (ht : t ∈ (extract (moduleText ds)).targets) :
    ∃ f d, t = .function f ∧ d ∈ ds ∧ f.name = d.name := by
  have hname : t.name ∈ ds.map (·.name) := by
    rw [← map_name_targets h hquiet hnames]
    exact List.mem_map_of_mem ht
  obtain ⟨d, hd, hname⟩ := List.mem_map.mp hname
  obtain ⟨g, hg, hgname⟩ := exists_function h hquiet hd
  have hfind := Outline.target?_of_mem_targets ht
  rw [Outline.target?] at hfind
  split at hfind
  · next f hf =>
    obtain rfl := Option.some.inj hfind
    exact ⟨f, d, rfl, hd, hname.symm⟩
  · next hnone =>
    -- no function has the name, though its declaration is found
    have hne := List.find?_eq_none.mp hnone g hg
    rw [hgname, hname, beq_self_eq_true] at hne
    exact absurd rfl hne

end Module

end Scaffold

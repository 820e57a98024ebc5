/-
Scaffold/Proofs/Extraction/Exported.lean

With exports only exported declarations are tested.

Targets are picked by name, and an outline knows of an export no more than the
name it is imported by.  A name may be exported that is declared in another
module, or for something that has another name here; then a declaration of that
name is picked that is none of the module's exports
(`not_targets_selfExported`).

`targets_selfExported` says that otherwise every target is exported by the
source itself: where no such name is that of a declaration, and no name is
declared both with and without `export` (`ExportsOwn`), a target is a declaration
behind `export`, or its name is listed, or exported as the default
(`SelfExported`).
-/
import Scaffold.Proofs.Document.Targets
import Scaffold.Proofs.Extraction.Written

namespace Scaffold

open Text Pattern

/-! ### What a source exports itself -/

/-- The code of a text that begins at an offset: what is left of it without comments and strings. -/
def codeText (map : CodeMap) : (offset : Nat) → List Char → List Char
  | _, [] => []
  | offset, c :: cs =>
    let later := codeText map (offset + c.utf8Size) cs
    if map.isCode offset then c :: later else later

namespace ExportList

variable {source : List Char} (l : ExportList source)

/-- Where the entries of a list begin. -/
def bodyOffset : Nat := byteLength (l.front ++ ("export".toList ++ (l.gap ++ ['{'])))

/-- Where the text behind a list begins. -/
def backOffset : Nat := l.bodyOffset + byteLength (l.body ++ ['}'])

/-- What is listed is exported from another module. -/
def HasFrom : Prop :=
  ∃ w, trimStart (codeText (.ofText source) l.backOffset l.back) = "from".toList ++ w
    ∧ ∀ c ∈ w.head?, isIdentifierPart c = false

/-- An entry stands in a list between its commas, with no comment and no string in it. -/
def HasPlain (entry : List Char) : Prop :=
  ∃ before after, l.body = before ++ (entry ++ after)
    ∧ (∀ c ∈ before.getLast?, c = ',') ∧ (∀ c ∈ after.head?, c = ',')
    ∧ codeText (.ofText source) (l.bodyOffset + byteLength before) entry = entry

end ExportList

/-- A declared name, at its place, that the source exports itself. -/
inductive SelfExported (source : List Char) (place : Nat) (name : String) : Prop
  | declared {start : Nat} (h : ExportDeclares source start place name)
  | listed (l : ExportList source) (hfrom : ¬ l.HasFrom) {entry : List Char}
      (hentry : entry ∈ l.entries) (hplain : l.HasPlain entry) {outer : String}
      (h : Lists entry name outer)
  | default {start place' : Nat} (h : ExportsDefault source start place' name)

/-- Where a declaration begins. -/
def Target.offset : Target → Nat
  | .function f => f.offset
  | .classItem c => c.offset

/-- The names of declarations are exported for these declarations only. -/
structure ExportsOwn (source : String) : Prop where
  /-- No name is declared both with and without `export`. -/
  alike : ∀ name start place start' place', Declares source.toList start place name →
    ExportDeclares source.toList start' place' name →
    ∃ start'', ExportDeclares source.toList start'' place name
  /-- An entry of a list that exports under the name of a declaration lists that name, in code, and
  the list is the source's own. -/
  listed : ∀ (l : ExportList source.toList), ∀ entry ∈ l.entries, ∀ inner outer,
    Lists entry inner outer →
    (if outer = "default" then inner else outer) ∈ (extract source).declaredNames →
    (¬ l.HasFrom ∧ l.HasPlain entry) ∧ (outer = "default" ∨ inner = outer)

/-! ### Targets -/

section Targets

variable {source : String}

theorem mem_of_target? {o : Outline} {name : String} {t : Target} (h : o.target? name = some t) :
    (∃ f ∈ o.functions, t = .function f) ∨ ∃ c ∈ o.classes, t = .classItem c := by
  rw [Outline.target?] at h
  split at h
  · next f hf =>
    exact .inl ⟨f, List.mem_of_find?_eq_some hf, (Option.some.inj h).symm⟩
  · obtain ⟨c, hc, rfl⟩ := Option.map_eq_some_iff.mp h
    exact .inr ⟨c, List.mem_of_find?_eq_some hc, rfl⟩

/-- A target is a declaration of the source. -/
theorem declares_of_mem_targets {t : Target} (ht : t ∈ (extract source).targets) :
    ∃ place, Declares source.toList t.offset place t.name := by
  rcases mem_of_target? (Outline.target?_of_mem_targets ht) with ⟨f, hf, rfl⟩ | ⟨c, hc, rfl⟩
  · exact declares_of_function_mem hf
  · exact declares_of_class_mem hc

theorem name_mem_declaredNames {o : Outline} {t : Target} (ht : t ∈ o.targets) :
    t.name ∈ o.declaredNames := by
  have hsome := o.isSome_target? t.name
  rw [Outline.target?_of_mem_targets ht] at hsome
  simpa using hsome.symm

/-- **With exports only exported declarations are tested.**  Where the names of declarations are
exported for these declarations only, every target is a declaration the source exports itself. -/
theorem targets_selfExported (hexports : (extract source).exports ≠ []) (hown : ExportsOwn source)
    {t : Target} (ht : t ∈ (extract source).targets) :
    ∃ place, Declares source.toList t.offset place t.name
      ∧ SelfExported source.toList place t.name := by
  obtain ⟨place, hplace⟩ := declares_of_mem_targets ht
  obtain ⟨e, he, hname⟩ := Outline.exported_of_mem_targets hexports ht
  refine ⟨place, hplace, ?_⟩
  rcases export_of_mem he with ⟨start, place', h⟩ | ⟨start, place', h⟩ | ⟨l, entry, hentry, inner,
    outer, hlists, houter⟩
  · -- exported where it is declared
    rw [hname] at h
    obtain ⟨start', h'⟩ := hown.alike _ _ _ _ _ hplace h
    exact .declared h'
  · -- exported by `export default`
    rw [hname] at h
    exact .default h
  · -- exported by a list, which lists the name itself
    have hdeclared := name_mem_declaredNames ht
    rw [← hname, houter] at hdeclared
    obtain ⟨⟨hfrom, hplain⟩, hsame⟩ := hown.listed l entry hentry inner outer hlists hdeclared
    have hinner : t.name = inner := by
      rw [← hname, houter]
      split_ifs with hdefault
      · rfl
      · exact (hsame.resolve_left hdefault).symm
    rw [← hinner] at hlists
    exact .listed l hfrom hentry hplain hlists

end Targets

/-! ### Texts that can be looked through -/

/-- Whether at an index of a text stands `export`, and behind blanks a character of a class. -/
def exportsAt (cls : Char → Bool) (cs : List Char) (k : Nat) : Bool :=
  "export".toList.isPrefixOf (cs.drop k) && (trimStart (cs.drop (k + 6))).head?.any cls

theorem exportsAt_of_eq {cls : Char → Bool} (hcls : ∀ c, cls c = true → isBlank c = false)
    {cs u b y : List Char} (h : cs = u ++ ("export".toList ++ (b ++ y)))
    (hb : ∀ c ∈ b, isBlank c = true) (hy : ∃ c ∈ y.head?, cls c = true) :
    u.length ≤ cs.length ∧ exportsAt cls cs u.length = true := by
  obtain ⟨c, hc, hclass⟩ := hy
  obtain ⟨y, rfl⟩ : ∃ y', y = c :: y' := by
    cases y with
    | nil => cases hc
    | cons d y => exact ⟨y, by rw [Option.some.inj hc]⟩
  have hbehind : trimStart (b ++ c :: y) = c :: y := by
    rw [trimStart, List.dropWhile_append_of_pos hb, List.dropWhile_cons_of_neg]
    rw [hcls c hclass]
    exact Bool.false_ne_true
  have hdrop : cs.drop (u.length + 6) = b ++ c :: y := by
    rw [h, ← List.append_assoc]
    exact List.drop_left' (by simp)
  rw [exportsAt, hdrop, hbehind, h, List.drop_left]
  exact ⟨by simp, by simpa [List.isPrefixOf_iff_prefix] using hclass⟩

theorem isBlank_of_isWordChar {c : Char} (h : isWordChar c = true) : isBlank c = false := by
  cases hc : isBlank c with
  | false => rfl
  | true =>
    have hnot : isWordChar c = false := of_isBlank (by decide +kernel) hc
    rw [hnot] at h
    cases h

/-- Every list of a text begins at one of its places for lists. -/
theorem ExportList.exportsAt {source : List Char} (l : ExportList source) :
    l.front.length ≤ source.length
      ∧ Scaffold.exportsAt (· == '{') source l.front.length = true := by
  refine exportsAt_of_eq (fun c hc => ?_) l.eq l.blank ⟨'{', rfl, rfl⟩
  rw [beq_iff_eq.mp hc]
  decide

/-- Everything else that is exported begins at one of the places for words. -/
theorem Introduces.exportsAt {lead tail : List Char → Prop} {source : List Char} {start place : Nat}
    {name : String} (h : Introduces lead tail source start place name)
    (hlead : ∀ x, lead x → BeginsExport x) :
    ∃ k ≤ source.length, Scaffold.exportsAt isWordChar source k = true := by
  obtain ⟨u, x, v, heq, -, -, hx, -⟩ := h
  obtain ⟨b, y, rfl, -, hb, hy⟩ := hlead x hx
  refine ⟨u.length, @exportsAt_of_eq isWordChar (fun c => isBlank_of_isWordChar) source u b
    (y ++ (name.toList ++ v)) (by rw [heq]; simp) hb (hy.append _)⟩

/-! ### A name of another module -/

/-- A function, and the export of one of that name from another module. -/
def reexport : String :=
  "export \x7b helper \x7d from './lib';\nfunction helper(a) \x7b return a; \x7d\n"

/-- The list of `reexport`. -/
def reexportList : ExportList reexport.toList where
  front := []
  gap := [' ']
  body := " helper ".toList
  back := " from './lib';\nfunction helper(a) \x7b return a; \x7d\n".toList
  eq := by
    delta reexport
    rw [String.toList_ofList, String.toList_ofList, String.toList_ofList, String.toList_ofList]
    rfl
  apart := by simp
  isTopLevel := by decide +kernel
  blank := isBlank_space
  closed := by decide

theorem hasFrom_reexportList : reexportList.HasFrom := by
  refine ⟨" ;\nfunction helper(a) \x7b return a; \x7d\n".toList, by decide +kernel, ?_⟩
  rintro c ⟨⟩
  decide

/-- Not everything that is tested is exported by the source itself. -/
theorem not_targets_selfExported :
    ¬ ∀ (source : String) (t : Target), (extract source).exports ≠ [] →
      t ∈ (extract source).targets → ∃ place, Declares source.toList t.offset place t.name
        ∧ SelfExported source.toList place t.name := by
  intro hclaim
  have hextract : extract reexport
      = ⟨[⟨"helper", ["a"], false, 32⟩], [], [⟨"helper", false, 0⟩]⟩ := by decide +kernel
  have hexports : (extract reexport).exports ≠ [] := by
    rw [hextract]
    decide
  have htarget : .function ⟨"helper", ["a"], false, 32⟩ ∈ (extract reexport).targets := by
    rw [hextract]
    decide
  obtain ⟨place, -, hself⟩ := hclaim _ _ hexports htarget
  have hwords : ∀ k ≤ reexport.toList.length, exportsAt isWordChar reexport.toList k = false := by
    delta reexport
    rw [String.toList_ofList]
    decide +kernel
  have hlists : ∀ k ≤ reexport.toList.length, exportsAt (· == '{') reexport.toList k = true →
      k = 0 := by
    delta reexport
    rw [String.toList_ofList]
    decide +kernel
  cases hself with
  | declared h =>
    obtain ⟨k, hk, hat⟩ := h.exportsAt fun _ => ExportLead.beginsExport
    rw [hwords k hk] at hat
    cases hat
  | default h =>
    obtain ⟨k, hk, hat⟩ := h.exportsAt fun _ => DefaultLead.beginsExport
    rw [hwords k hk] at hat
    cases hat
  | listed l hfrom =>
    obtain ⟨hle, hat⟩ := l.exportsAt
    obtain rfl : l = reexportList := ExportList.eq_of_length (hlists _ hle hat)
    exact hfrom hasFrom_reexportList

/-! ### A name of this module -/

/-- An exported function that is also exported as the default. -/
def exportedTwice : String :=
  "export function run(a) \x7b return a; \x7d\nexport \x7b run as default \x7d;\n"

/-- The list of `exportedTwice`. -/
def exportedTwiceList : ExportList exportedTwice.toList where
  front := "export function run(a) \x7b return a; \x7d\n".toList
  gap := [' ']
  body := " run as default ".toList
  back := ";\n".toList
  eq := by
    delta exportedTwice
    rw [String.toList_ofList, String.toList_ofList, String.toList_ofList, String.toList_ofList,
      String.toList_ofList]
    rfl
  apart := by
    rintro c ⟨⟩
    decide
  isTopLevel := by decide +kernel
  blank := isBlank_space
  closed := by decide

theorem not_hasFrom_exportedTwiceList : ¬ exportedTwiceList.HasFrom := by
  rintro ⟨w, hw, -⟩
  have hcode : trimStart (codeText (.ofText exportedTwice.toList) exportedTwiceList.backOffset
      exportedTwiceList.back) = ";\n".toList := by decide +kernel
  rw [hcode] at hw
  cases hw

/-- The keyword of a declaration begins with one of six words. -/
theorem DeclarationLead.exists_word {cs : List Char} (h : DeclarationLead cs) :
    ∃ word ∈ ["async", "function", "class", "const", "let", "var"], ∃ y, cs = word.toList ++ y := by
  rcases h with ⟨a, k, rfl, ⟨b, rfl, -⟩ | rfl, ⟨c, star, d, rfl, -⟩⟩ | ⟨word, hword, b, rfl, -⟩
  · exact ⟨"async", by simp, _, List.append_assoc _ _ _⟩
  · exact ⟨"function", by simp, _, rfl⟩
  · exact ⟨word, by simp at hword ⊢; tauto, b, rfl⟩

theorem exportsOwn_exportedTwice : ExportsOwn exportedTwice where
  alike name start place start' place' h _ := by
    obtain ⟨u, x, v, heq, -, rfl, hx, -, -, -, hname, hv⟩ := h
    have hkeywords : ∀ k ≤ exportedTwice.toList.length,
        ∀ word ∈ ["async", "function", "class", "const", "let", "var"],
          word.toList.isPrefixOf (exportedTwice.toList.drop k) = true → k = 7 := by
      delta exportedTwice
      rw [String.toList_ofList]
      decide +kernel
    obtain ⟨word, hword, y, hy⟩ := hx.exists_word
    have hlength : u.length = 7 := by
      refine hkeywords _ (by rw [heq]; simp) word hword ?_
      rw [heq, hy, List.drop_left, List.isPrefixOf_iff_prefix, List.append_assoc]
      exact List.prefix_append _ _
    -- so the declaration is the one behind `export`
    obtain rfl : u = "export ".toList := by
      rw [← @List.take_left _ u (x ++ (name.toList ++ v)), ← heq, hlength]
      rfl
    refine ⟨0, [], "export ".toList ++ x, v, heq, rfl, rfl, hx.exported, trivial, by simp,
      by decide, hname, hv⟩
  listed l entry hentry inner outer hlists _ := by
    have hplaces : ∀ k ≤ exportedTwice.toList.length,
        exportsAt (· == '{') exportedTwice.toList k = true → k = 37 := by
      delta exportedTwice
      rw [String.toList_ofList]
      decide +kernel
    have hfront : exportedTwiceList.front.length = 37 := by decide +kernel
    obtain ⟨hle, hat⟩ := l.exportsAt
    obtain rfl : l = exportedTwiceList :=
      ExportList.eq_of_length ((hplaces _ hle hat).trans hfront.symm)
    obtain rfl := List.mem_singleton.mp
      (show entry ∈ [" run as default ".toList] from hentry)
    have hwords : (Text.words " run as default ".toList).map String.ofList
        = ["run", "as", "default"] := by decide
    have hplain : exportedTwiceList.HasPlain " run as default ".toList :=
      ⟨[], [], (List.append_nil _).symm, by simp, by simp, by decide +kernel⟩
    refine ⟨⟨not_hasFrom_exportedTwiceList, hplain⟩, .inl ?_⟩
    rw [Lists, hwords] at hlists
    have hnames : "run" = inner ∧ "default" = outer := by simpa using hlists
    exact hnames.2.symm

theorem extract_exportedTwice : extract exportedTwice
    = ⟨[⟨"run", ["a"], false, 7⟩], [], [⟨"run", false, 0⟩, ⟨"run", true, 37⟩]⟩ := by
  have hfound : findings Recognizer.all exportedTwice.toList (.ofText exportedTwice.toList)
      = [.function ⟨"run", ["a"], false, 7⟩, .exporting ⟨"run", false, 0⟩,
        .exporting ⟨"run", true, 37⟩] := by
    delta exportedTwice
    rw [String.toList_ofList]
    decide +kernel
  rw [extract, extractWith, hfound]
  show (⟨sortByOffset _ [_], sortByOffset _ [], sortByOffset _ [_, _]⟩ : Outline) = _
  rw [sortByOffset_of_pairwise (by simp), sortByOffset_of_pairwise (by simp),
    sortByOffset_of_pairwise (by simp)]

/-- The target of `exportedTwice`. -/
theorem targets_selfExported_exportedTwice :
    (extract exportedTwice).exports ≠ [] ∧ ExportsOwn exportedTwice
      ∧ .function ⟨"run", ["a"], false, 7⟩ ∈ (extract exportedTwice).targets
      ∧ ∃ place, Declares exportedTwice.toList 7 place "run"
        ∧ SelfExported exportedTwice.toList place "run" := by
  have hexports : (extract exportedTwice).exports ≠ [] := by
    rw [extract_exportedTwice]
    decide
  have htarget : .function ⟨"run", ["a"], false, 7⟩ ∈ (extract exportedTwice).targets := by
    rw [extract_exportedTwice]
    decide
  have hself := targets_selfExported hexports exportsOwn_exportedTwice htarget
  exact ⟨hexports, exportsOwn_exportedTwice, htarget, hself⟩

end Scaffold

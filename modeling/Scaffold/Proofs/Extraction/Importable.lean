/-
Scaffold/Proofs/Extraction/Importable.lean

Names that can be imported.

An export is bound by its name in the import statement of a document, so the name has
to be an identifier, and not `default`.  Behind the keyword of a declaration and behind
`export default` a pattern reads the name, and it is an identifier.  In a list any word
is taken for one, a name in quotes too; and of the ways to pass a default on the entry
`default` is left out, but `default as default` is not (`not_exports_importable`).

`exports_importable` says that every other source exports names that can be imported
(`HasImportableNames`): the clause that imports them binds such names only, and what
stands in its braces reads apart into them again.
-/
import Scaffold.Proofs.Document.Functions
import Scaffold.Proofs.Document.Imports
import Scaffold.Proofs.Extraction.Exported
import Scaffold.Proofs.Extraction.Located
import Scaffold.Proofs.Text.Commas

namespace Scaffold

open Text Pattern

/-! ### Identifiers in a list -/

/-- A name an import statement can bind. -/
def IsImportable (name : String) : Prop := IsIdentifier name.toList ∧ name ≠ "default"

section Identifiers

variable {cs : List Char} {name : String}

theorem splitAtCommas_of_no_comma (h : ',' ∉ cs) (depth : Nat) : splitAtCommas depth cs = [cs] := by
  induction cs generalizing depth with
  | nil => rfl
  | cons c cs ih =>
    rw [List.mem_cons, not_or] at h
    obtain ⟨p, ps, hsplit, hcons⟩ :=
      @splitAtCommas_cons c depth (fun hc => h.1 hc.1.symm) cs
    rw [ih h.2] at hsplit
    obtain ⟨rfl, rfl⟩ := List.cons.inj hsplit
    exact hcons

/-- No character of an identifier means anything in a list. -/
theorem Pattern.IsIdentifier.not_mem (h : IsIdentifier cs) {c : Char} (hc : c ∈ ',' :: brackets) :
    c ∉ cs := by
  have hpart : (',' :: brackets).all (fun c => !isIdentifierPart c) = true := by decide +kernel
  intro hmem
  have := List.all_eq_true.mp hpart c hc
  rw [h.2 c hmem] at this
  cases this

theorem Pattern.IsIdentifier.trim_eq (h : IsIdentifier cs) : trim cs = cs := by
  have hnone : ∀ c ∈ cs, ¬ isBlank c = true := by
    intro c hc hblank
    have hpart := h.2 c hc
    rw [isIdentifierPart_of_isBlank hblank] at hpart
    cases hpart
  obtain ⟨u, v, hcs, hu, hv⟩ := exists_blanks_trim cs
  -- there are no blanks to take away
  have hleft : u = [] := List.eq_nil_iff_forall_not_mem.mpr fun c hc =>
    hnone c (by rw [hcs]; exact List.mem_append_left _ hc) (hu c hc)
  have hright : v = [] := List.eq_nil_iff_forall_not_mem.mpr fun c hc =>
    hnone c (by rw [hcs]; exact List.mem_append_right _ (List.mem_append_right _ hc)) (hv c hc)
  rw [hleft, hright, List.nil_append, List.append_nil] at hcs
  exact hcs.symm

theorem Pattern.IsIdentifier.closesBrackets (h : IsIdentifier cs) : ClosesBrackets cs :=
  foldl_bracketDepth_of_not_mem
    (fun _ hc hbracket => h.not_mem (List.mem_cons_of_mem _ hbracket) hc) 0

/-- An identifier is its own list of parameters. -/
theorem splitParameters_identifier (h : IsIdentifier name.toList) :
    splitParameters name.toList = [name] := by
  have hwhole := splitAtCommas_of_no_comma (h.not_mem List.mem_cons_self) 0
  have hne : name.toList.isEmpty = false := by simpa using h.ne_nil
  rw [splitParameters, hwhole, List.map_singleton, h.trim_eq,
    List.filter_cons_of_pos (by simp [hne])]
  simp

/-- **Identifiers with commas between them read apart again.** -/
theorem splitParameters_identifiers {names : List String}
    (h : ∀ name ∈ names, IsIdentifier name.toList) :
    splitParameters (", ".intercalate names).toList = names := by
  refine AreParameters.splitParameters_eq ?_
  induction names with
  | nil => exact .nil
  | cons name names ih =>
    obtain ⟨hname, hnames⟩ := List.forall_mem_cons.mp h
    exact .cons (splitParameters_identifier hname) hname.closesBrackets (ih hnames)

end Identifiers

/-! ### What lists export -/

/-- What a source exports can be imported by its name, as far as this is up to the source. -/
structure HasImportableNames (source : List Char) : Prop where
  /-- Nothing is declared by the name `default`. -/
  declared : ∀ start place, ¬ ExportDeclares source start place "default"
  /-- Nothing of that name is exported as the default. -/
  default : ∀ start place, ¬ ExportsDefault source start place "default"
  /-- What is listed, is listed under an identifier; so is the local name of a default. -/
  listed : ∀ l : ExportList source, ∀ entry ∈ l.entries, ∀ inner outer, Lists entry inner outer →
    IsIdentifier outer.toList ∧ (outer = "default" → IsIdentifier inner.toList)
  /-- No list passes a default on by both its names. -/
  passedOn : ∀ l : ExportList source, ∀ entry ∈ l.entries,
    (Text.words entry).map String.ofList ≠ ["default", "as", "default"]

section Exports

variable {source : String}

/-- Only by both its names a default is listed as `default`. -/
theorem words_of_listedExport?_default {entry : List Char} {offset : Nat} {e : ExportItem}
    (h : listedExport? entry offset = some e) (hname : e.name = "default") :
    (Text.words entry).map String.ofList = ["default", "as", "default"] := by
  obtain ⟨-, inner, outer, hlists, hchoice⟩ := lists_of_listedExport? h
  rw [hname] at hchoice
  split_ifs at hchoice with houter
  · subst houter hchoice
    refine hlists.resolve_left ?_
    rintro ⟨hwords, -⟩
    -- a single `default` is left out
    rw [listedExport?, hwords] at h
    cases h
  · exact absurd hchoice.symm houter

/-- **A name is exported that can be imported**, or the source is to blame. -/
theorem isImportable_of_mem (hsource : HasImportableNames source.toList) {e : ExportItem}
    (he : e ∈ (extract source).exports) : IsImportable e.name := by
  obtain ⟨r, -, p, hp, m, hm, htop, hread⟩ := exists_match_of_mem (exporting_mem_findings he)
  -- patterns read identifiers, and in a list the source has to take care of that
  cases standsFor_of_mem_read hread with
  | exportedDeclaration =>
    obtain rfl := List.mem_singleton.mp hp
    refine ⟨(isIdentifier_of_names names_exportedDeclaration hm htop).1, fun hname => ?_⟩
    obtain ⟨place, hplace⟩ := names_exportedDeclaration.introduces hm htop
    rw [show String.ofList (m.text .name source.toList) = "default" from hname] at hplace
    exact hsource.declared _ _ hplace
  | exportedName =>
    obtain rfl := List.mem_singleton.mp hp
    refine ⟨(isIdentifier_of_names names_exportedName hm htop).1, fun hname => ?_⟩
    obtain ⟨place, hplace⟩ := names_exportedName.introduces hm htop
    rw [show String.ofList (m.text .name source.toList) = "default" from hname] at hplace
    exact hsource.default _ _ hplace
  | exportedList htype hentry hlisted =>
    obtain rfl := List.mem_singleton.mp hp
    obtain ⟨l, -, hbody⟩ := exists_exportList hm htop htype
    rw [hbody] at hentry
    obtain ⟨-, inner, outer, hlists, hname⟩ := lists_of_listedExport? hlisted
    obtain ⟨houter, hinner⟩ := hsource.listed l _ hentry inner outer hlists
    refine ⟨?_, fun hdefault =>
      hsource.passedOn l _ hentry (words_of_listedExport?_default hlisted hdefault)⟩
    rw [hname]
    split_ifs with hdefault
    · exact hinner hdefault
    · exact houter

/-- **What is exported can be imported**: every export has a name that an import statement can
bind, and the statement of a document binds such names, which stand apart in it. -/
theorem exports_importable (source : String) (hsource : HasImportableNames source.toList) :
    (∀ e ∈ (extract source).exports, IsImportable e.name)
      ∧ ((extract source).exports ≠ [] → ∀ importPath unitName, ∃ c : ImportClause,
        (extract source).importStatement importPath unitName = c.statement importPath
          ∧ c.bound ≠ [] ∧ (∀ name ∈ c.bound, IsImportable name)
          ∧ splitParameters (", ".intercalate c.named).toList = c.named) := by
  have hexports : ∀ e ∈ (extract source).exports, IsImportable e.name :=
    fun e he => isImportable_of_mem hsource he
  refine ⟨hexports, fun hne importPath unitName => ?_⟩
  have hbound : ∀ name ∈ (extract source).importClause.bound, IsImportable name := by
    intro name hname
    rcases Outline.mem_bound_importClause.mp hname with hhead | ⟨e, he, rfl, -⟩
    · -- the default export
      rw [Outline.head?_defaults] at hhead
      obtain ⟨e, he, rfl⟩ := Option.map_eq_some_iff.mp hhead
      exact hexports e (List.mem_of_find?_eq_some he)
    · -- a named one
      exact hexports e he
  refine ⟨(extract source).importClause, Outline.importStatement_eq hne importPath unitName,
    Outline.bound_importClause_ne_nil hne, hbound, splitParameters_identifiers fun name hname => ?_⟩
  exact (hbound name (ImportClause.mem_bound.mpr (.inr hname))).1

end Exports

/-! ### Names that cannot be imported -/

/-- A list that passes a default on, and a name in quotes. -/
def passedOn : String :=
  "export \x7b default as default, a as \"x-y\" \x7d from './lib';\n"

theorem exports_passedOn :
    (extract passedOn).exports = [⟨"default", true, 0⟩, ⟨"\"x-y\"", false, 0⟩] := by
  have hfound : findings Recognizer.all passedOn.toList (.ofText passedOn.toList)
      = [.exporting ⟨"default", true, 0⟩, .exporting ⟨"\"x-y\"", false, 0⟩] := by
    delta passedOn
    rw [String.toList_ofList]
    decide +kernel
  rw [extract, extractWith, hfound]
  show sortByOffset ExportItem.offset [⟨"default", true, 0⟩, ⟨"\"x-y\"", false, 0⟩] = _
  exact sortByOffset_of_pairwise (by simp)

/-- Not every export has an identifier for its name, and some are called `default`. -/
theorem not_exports_importable :
    (¬ ∀ (source : String), ∀ e ∈ (extract source).exports, IsIdentifier e.name.toList)
      ∧ ¬ ∀ (source : String), ∀ e ∈ (extract source).exports, e.name ≠ "default" := by
  refine ⟨fun hclaim => ?_, fun hclaim => ?_⟩
  · obtain ⟨⟨c, hc, hstart⟩, -⟩ :=
      hclaim passedOn ⟨"\"x-y\"", false, 0⟩ (by rw [exports_passedOn]; simp)
    obtain rfl : '"' = c := Option.some.inj hc
    exact absurd hstart (by decide)
  · exact hclaim passedOn ⟨"default", true, 0⟩ (by rw [exports_passedOn]; simp) rfl

/-! ### Names that can be imported -/

/-- A function that is exported as the default, and a list with an alias and a type. -/
def aliased : String :=
  "function run() \x7b\x7d\nexport \x7b run as default, helper as aid, type Options \x7d;\n"

/-- The list of `aliased`. -/
def aliasedList : ExportList aliased.toList where
  front := "function run() \x7b\x7d\n".toList
  gap := [' ']
  body := " run as default, helper as aid, type Options ".toList
  back := ";\n".toList
  eq := by
    delta aliased
    rw [String.toList_ofList, String.toList_ofList, String.toList_ofList, String.toList_ofList,
      String.toList_ofList]
    rfl
  apart := by
    rintro c ⟨⟩
    decide
  isTopLevel := by decide +kernel
  blank := isBlank_space
  closed := by decide

theorem exportList_aliased (l : ExportList aliased.toList) : l = aliasedList := by
  have hplaces : ∀ k ≤ aliased.toList.length, exportsAt (· == '{') aliased.toList k = true →
      k = 18 := by
    delta aliased
    rw [String.toList_ofList]
    decide +kernel
  have hfront : aliasedList.front.length = 18 := by decide +kernel
  obtain ⟨hle, hat⟩ := l.exportsAt
  exact ExportList.eq_of_length ((hplaces _ hle hat).trans hfront.symm)

/-- What its entries list. -/
theorem lists_aliased {entry : List Char} (h : entry ∈ aliasedList.entries) :
    (Text.words entry).map String.ofList ∈
      [["run", "as", "default"], ["helper", "as", "aid"], ["type", "Options"]] := by
  have hentries : aliasedList.entries.all (fun entry => (Text.words entry).map String.ofList ∈
      [["run", "as", "default"], ["helper", "as", "aid"], ["type", "Options"]]) = true := by
    decide +kernel
  simpa using List.all_eq_true.mp hentries entry h

theorem hasImportableNames_aliased : HasImportableNames aliased.toList := by
  have hwords : ∀ k ≤ aliased.toList.length, exportsAt isWordChar aliased.toList k = false := by
    delta aliased
    rw [String.toList_ofList]
    decide +kernel
  constructor
  case declared =>
    intro start place h
    obtain ⟨k, hk, hat⟩ := h.exportsAt fun _ => ExportLead.beginsExport
    rw [hwords k hk] at hat
    cases hat
  case default =>
    intro start place h
    obtain ⟨k, hk, hat⟩ := h.exportsAt fun _ => DefaultLead.beginsExport
    rw [hwords k hk] at hat
    cases hat
  case listed =>
    intro l entry hentry inner outer hlists
    obtain rfl := exportList_aliased l
    have hnames : ∀ name ∈ ["run", "default", "helper", "aid"], IsIdentifier name.toList :=
      fun name hname => isIdentifier_iff.mp (List.all_eq_true.mp (by decide +kernel) name hname)
    have hentry := lists_aliased hentry
    simp only [List.mem_cons, List.not_mem_nil, or_false] at hentry
    rw [Lists] at hlists
    rcases hentry with hentry | hentry | hentry <;> rw [hentry] at hlists
    · obtain ⟨rfl, rfl⟩ : "run" = inner ∧ "default" = outer := by simpa using hlists
      exact ⟨hnames _ (by simp), fun _ => hnames _ (by simp)⟩
    · obtain ⟨rfl, rfl⟩ : "helper" = inner ∧ "aid" = outer := by simpa using hlists
      exact ⟨hnames _ (by simp), fun _ => hnames _ (by simp)⟩
    · -- types are not listed
      simp at hlists
  case passedOn =>
    intro l entry hentry hdefault
    obtain rfl := exportList_aliased l
    have hentry := lists_aliased hentry
    rw [hdefault] at hentry
    exact absurd hentry (by decide)

theorem exports_aliased :
    (extract aliased).exports = [⟨"run", true, 18⟩, ⟨"aid", false, 18⟩] := by
  have hfound : findings Recognizer.all aliased.toList (.ofText aliased.toList)
      = [.function ⟨"run", [], false, 0⟩, .exporting ⟨"run", true, 18⟩,
        .exporting ⟨"aid", false, 18⟩] := by
    delta aliased
    rw [String.toList_ofList]
    decide +kernel
  rw [extract, extractWith, hfound]
  show sortByOffset ExportItem.offset [⟨"run", true, 18⟩, ⟨"aid", false, 18⟩] = _
  exact sortByOffset_of_pairwise (by simp)

/-- The names `aliased` exports are imported. -/
theorem exports_importable_aliased :
    HasImportableNames aliased.toList
      ∧ (extract aliased).exports = [⟨"run", true, 18⟩, ⟨"aid", false, 18⟩]
      ∧ IsImportable "run" ∧ IsImportable "aid"
      ∧ ∃ c : ImportClause, (extract aliased).importStatement "./m" "m" = c.statement "./m"
        ∧ c.bound ≠ [] ∧ (∀ name ∈ c.bound, IsImportable name)
        ∧ splitParameters (", ".intercalate c.named).toList = c.named := by
  obtain ⟨hnames, hclause⟩ := exports_importable aliased hasImportableNames_aliased
  refine ⟨hasImportableNames_aliased, exports_aliased, hnames ⟨"run", true, 18⟩ ?_,
    hnames ⟨"aid", false, 18⟩ ?_, hclause ?_ "./m" "m"⟩ <;> rw [exports_aliased] <;> simp

end Scaffold

/-
Scaffold/Proofs/Extraction/Reserved.lean

Which members of a class can have a reserved name.

Names that look like a method's but are not (`nonMethodNames`), `constructor`
among them, are dropped where members are read as methods.  Where they are read
as fields that hold an arrow function nothing is dropped.  So a member with such
a name is a field of this kind (`exists_arrowField_of_reserved`), and a class
without one named `constructor` has no method of this name, whatever else is in
its body and whichever recognizers run (`constructor_not_reported`).  A class
with one reports its constructor (`not_constructor_not_reported`).
-/
import Mathlib.Data.List.Infix
import Scaffold.Proofs.Extraction.Located

namespace Scaffold

open Text Scan Pattern

/-! ### Fields that hold an arrow function -/

/-- Modifiers in front of the name of a field. -/
def FieldModifiers (cs : List Char) : Prop :=
  ∃ pieces : List (List Char), cs = pieces.flatten
    ∧ ∀ x ∈ pieces, ∃ word ∈ "static" :: fieldModifiers, Spaced word x

/-- What stands between the name of a field and the parameters of its arrow function. -/
def ArrowLead (cs : List Char) : Prop :=
  ∃ b b' mark, cs = b ++ '=' :: (b' ++ mark) ∧ (∀ c ∈ b, isBlank c = true)
    ∧ (∀ c ∈ b', isBlank c = true)
    ∧ Maybe (fun mark => ∃ b, mark = "async".toList ++ b ∧ ∀ c ∈ b, isBlank c = true) mark

/-- What stands behind the parameters: the arrow, perhaps with a return type in front. -/
def ArrowTail (cs : List Char) : Prop :=
  ∃ b type rest, cs = b ++ (type ++ ("=>".toList ++ rest)) ∧ (∀ c ∈ b, isBlank c = true)
    ∧ Maybe (fun type => ∃ t, type = ':' :: t ∧ ∀ c ∈ t, c ∉ ['=', ';', '{', '}']) type

/-- A field that holds an arrow function, directly in a body, outside parentheses, where a member
can begin. -/
structure ArrowField (b : ClassBody) (name : List Char) where
  front : List Char
  modifiers : List Char
  lead : List Char
  parameters : List Char
  tail : List Char
  text_eq : b.text
    = (front ++ modifiers) ++ (name ++ (lead ++ '(' :: (parameters ++ ')' :: tail)))
  begins : canBeginMember front = true
  areModifiers : FieldModifiers modifiers
  isLead : ArrowLead lead
  isTail : ArrowTail tail
  isCode : b.map.isCode (b.span.start + byteLength (front ++ modifiers)) = true
  depthAt_eq : b.map.depthAt (b.span.start + byteLength (front ++ modifiers))
    = b.map.depthAt b.span.start
  outside : parenDepthAt b.parens (b.span.start + byteLength (front ++ modifiers)) = 0
  closes : closingParen b.map
      (b.span.start + byteLength (front ++ modifiers ++ (name ++ lead))) 0
      ('(' :: (parameters ++ ')' :: tail))
    = some (b.span.start + byteLength (front ++ modifiers ++ (name ++ lead))
        + byteLength ('(' :: parameters))

/-- Behind its name stands a blank or an equals sign. -/
theorem ArrowField.exists_behind {b : ClassBody} {name : List Char} (f : ArrowField b name) :
    ∃ s ∈ b.text.tails, name <+: s
      ∧ (s.drop name.length).head?.any (fun c => c == '=' || isBlank c) = true := by
  obtain ⟨gap, gap', mark, hlead, hgap, -, -⟩ := f.isLead
  refine ⟨_, (List.mem_tails _ _).mpr ⟨_, f.text_eq.symm⟩, List.prefix_append _ _, ?_⟩
  rw [List.drop_left, hlead]
  cases gap with
  | nil => rfl
  | cons c gap =>
    show (c == '=' || isBlank c) = true
    rw [hgap c List.mem_cons_self, Bool.or_true]

/-! ### From heads to fields -/

section Spelled

variable {before : Option Char} {w behind : List Char}

theorem fieldModifiers_of_spells (h : (modifiers fieldModifiers).Spells before w behind) :
    FieldModifiers w := by
  obtain ⟨pieces, rfl, hpieces⟩ := h
  refine ⟨pieces, rfl, fun x hx => ?_⟩
  obtain ⟨before, behind, hspells⟩ := hpieces x hx
  simp only [spells_inOrder_cons] at hspells
  obtain ⟨-, -, rfl, ⟨rfl, -⟩, v, -, rfl, hv, b, -, rfl, hb, rfl⟩ := hspells
  obtain ⟨word, hword, rfl⟩ := spells_words.mp hv
  obtain ⟨hne, hblank, -⟩ := spells_blanks1.mp hb
  exact ⟨word, hword, b, by simp, hne, hblank⟩

theorem arrowLead_of_spells
    (h : (inOrder [blanks, char '=', blanks,
      optional (keep .asyncMark (seq (literal "async") blanks))]).Spells before w behind) :
    ArrowLead w := by
  simp only [spells_inOrder_cons] at h
  obtain ⟨b, -, rfl, ⟨hb, -⟩, e, -, rfl, he, b', -, rfl, ⟨hb', -⟩, mark, -, rfl, hmark, rfl⟩ := h
  obtain rfl := spells_char.mp he
  refine ⟨b, b', mark, by simp, hb, hb', maybe_of_spells ?_ hmark⟩
  rintro ⟨x, y, rfl, hx, hy, -⟩
  exact ⟨y, by rw [spells_literal.mp hx], hy⟩

theorem arrowTail_of_leads {rest : List Char} (h : fieldTail.leads rest = true) :
    ArrowTail rest := by
  obtain ⟨m, hm⟩ := Option.isSome_iff_exists.mp h
  obtain ⟨q, r, rfl, -, hq⟩ := exists_text_of_matchAt? (u := []) hm
  simp only [fieldTail, spells_inOrder_cons] at hq
  obtain ⟨b, -, rfl, ⟨hb, -⟩, type, -, rfl, htype, a, -, rfl, ha, rfl⟩ := hq
  refine ⟨b, type, r, by rw [spells_literal.mp ha]; simp, hb, maybe_of_spells ?_ htype⟩
  rintro ⟨x, t, rfl, hx, ht, -⟩
  rw [spells_char.mp hx]
  exact ⟨t, rfl, fun c hc => by simpa [noneOf] using ht c hc⟩

end Spelled

/-- A match of a pattern that starts with no blank begins with none. -/
theorem takeWhile_isBlank_of_mem_findAll {p : Pattern} (hnull : p.nullable = false)
    (hstarts : ∀ c, isBlank c = true → p.starts c = false) {text : List Char} {m : Match}
    (hm : m ∈ p.findAll text) : (slice m.span.start m.span.stop text).takeWhile isBlank = [] := by
  obtain ⟨u, v, rfl, hmatch⟩ := mem_findAll hm
  obtain ⟨c, hc, hbegins⟩ := starts_of_matchAt? hnull hmatch
  obtain ⟨q, r, rfl, hstop, -⟩ := exists_text_of_matchAt? hmatch
  rw [span_start_of_matchAt? hmatch, Cursor.between_offset, hstop, byteLength_append,
    slice_of_append]
  cases q with
  | nil => rfl
  | cons d q =>
    obtain rfl : d = c := Option.some.inj hc
    rw [List.takeWhile_cons_of_neg]
    intro hblank
    rw [hstarts d hblank] at hbegins
    cases hbegins

section Within

variable {cs front inside back : List Char} {method : MethodItem}

/-- **A member that is read as a field is a field that holds an arrow function.** -/
theorem exists_arrowField (h : Block cs front inside back) {m : Match} {place : Nat}
    (hm : m ∈ fieldHead.findAll inside)
    (hmember : (ClassBody.within cs front inside).member? fieldTail m = some (place, method)) :
    Nonempty (ArrowField (ClassBody.within cs front inside) method.name.toList) := by
  obtain ⟨u, x, n, lead, v, hinside, hstart, hcapture, hhead, ⟨_, _, hx⟩, -, _, _, hlead⟩ :=
    @parts_of_opening [modifiers fieldModifiers] [blanks, char '=', blanks, _] (by decide) _ _ hm
  obtain ⟨hcounts, parameters, rest, name, hparameters, hname, -, hmname, -, htail⟩ :=
    ClassBody.parts_of_member? hmember
  obtain rfl := Option.some.inj (hcapture.symm.trans hname)
  obtain ⟨-, hcode, hdepth, hparen, hbegin⟩ := ClassBody.of_isMember hcounts hname
  obtain ⟨rfl, hclosing⟩ := ClassBody.parts_of_parametersAfter h hhead hparameters
  have htext : (ClassBody.within cs front inside).text = inside := ClassBody.text_within h
  have hmethod : method.name.toList = n := by
    rw [hmname, htext, text_of_capture? hcapture (by rw [hinside, ← List.append_assoc]),
      String.toList_ofList]
  rw [hmethod]
  have hplace : ∀ y, (ClassBody.within cs front inside).span.start + byteLength y
      = byteLength (front ++ '{' :: y) := by
    intro y
    rw [byteLength_append, byteLength_cons, ← Nat.add_assoc]
    rfl
  refine ⟨u, x, lead, parameters, rest, ?_, ?_, fieldModifiers_of_spells hx,
    arrowLead_of_spells hlead, arrowTail_of_leads htail, hcode, hdepth, hparen, ?_⟩
  · rw [htext, hinside, List.append_assoc]
  · -- no blanks stand in front of the head
    have hvisible := takeWhile_isBlank_of_mem_findAll (by decide) (fun _ => fieldHead_starts) hm
    rw [htext, hvisible, hstart, byteLength_nil, Nat.add_zero, hinside, takeBytes_append] at hbegin
    exact hbegin
  · rw [hplace]
    exact hclosing

/-- **A method with a reserved name is a field that holds an arrow function.** -/
theorem exists_arrowField_of_reserved (h : Block cs front inside back)
    (hmem : method ∈ (ClassBody.within cs front inside).methods)
    (hreserved : method.name ∈ nonMethodNames) :
    Nonempty (ArrowField (ClassBody.within cs front inside) method.name.toList) := by
  obtain ⟨⟨place, method⟩, hread, rfl⟩ := List.mem_map.mp hmem
  rcases List.mem_append.mp (List.mem_mergeSort.mp hread) with hread | hread
  · -- among the members read as methods, no name is reserved
    obtain ⟨m, -, hmember⟩ := List.mem_filterMap.mp hread
    split_ifs at hmember with hdropped
    obtain ⟨-, parameters, rest, name, -, -, -, hname, -⟩ := ClassBody.parts_of_member? hmember
    rw [hname] at hreserved
    simp [hreserved] at hdropped
  · obtain ⟨m, hm, hmember⟩ := List.mem_filterMap.mp hread
    rw [ClassBody.text_within h] at hm
    exact exists_arrowField h hm hmember

end Within

/-! ### The constructor -/

/-- **A class whose body has no arrow-function field named `constructor` has no method of that
name**, whichever recognizers run. -/
theorem constructor_not_reported (recognizers : List Recognizer) (source : String) {c : ClassItem}
    (hc : c ∈ (extractWith recognizers source).classes)
    (hfield : ∀ span, bodySpan source.toList (.ofText source.toList) c.offset = some span →
      IsEmpty (ArrowField { source := source.toList, map := .ofText source.toList, span }
        "constructor".toList)) :
    ∀ m ∈ c.methods, m.name ≠ "constructor" := by
  intro m hm hname
  obtain ⟨htop, hmethods⟩ := class_of_mem hc
  rw [hmethods] at hm
  rcases hspan : bodySpan source.toList (.ofText source.toList) c.offset with - | span
  · -- without a body there are no methods
    rw [hspan] at hm
    cases hm
  · rw [hspan] at hm
    obtain ⟨front, inside, back, hblock, rfl⟩ :=
      block_of_bodySpan (depthAt_of_isTopLevel htop) hspan
    obtain ⟨f⟩ := exists_arrowField_of_reserved hblock hm (by rw [hname]; decide)
    exact (hfield _ hspan).false (hname ▸ f)

/-- A class with a constructor, and a field that holds an arrow function. -/
def storeClass : String :=
  "class Store extends Base \x7b\n  constructor(db) \x7b super(db); \x7d\n"
    ++ "  private find = async (key) => key;\n\x7d\n"

theorem constructor_not_reported_storeClass :
    ∃ c ∈ (extractWith [.exportedList, .classKeyword] storeClass).classes, c.methods ≠ []
      ∧ (∀ span, bodySpan storeClass.toList (.ofText storeClass.toList) c.offset = some span →
        IsEmpty (ArrowField { source := storeClass.toList, map := .ofText storeClass.toList, span }
          "constructor".toList))
      ∧ ∀ m ∈ c.methods, m.name ≠ "constructor" := by
  have hc : (⟨"Store", [⟨"find", ["key"], true⟩], 0⟩ : ClassItem)
      ∈ (extractWith [.exportedList, .classKeyword] storeClass).classes := by decide +kernel
  have hfield : ∀ span, bodySpan storeClass.toList (.ofText storeClass.toList) 0 = some span →
      IsEmpty (ArrowField { source := storeClass.toList, map := .ofText storeClass.toList, span }
        "constructor".toList) := by
    intro span hspan
    have hbody : bodySpan storeClass.toList (.ofText storeClass.toList) 0 = some ⟨26, 97⟩ := by
      decide +kernel
    obtain rfl := Option.some.inj (hbody.symm.trans hspan)
    exact ⟨fun f => absurd f.exists_behind (by decide +kernel)⟩
  exact ⟨_, hc, by simp, hfield, constructor_not_reported _ _ hc hfield⟩

/-- **A constructor that is written as a field is reported.** -/
theorem not_constructor_not_reported :
    ¬ ∀ (recognizers : List Recognizer) (source : String),
      ∀ c ∈ (extractWith recognizers source).classes, ∀ m ∈ c.methods, m.name ≠ "constructor" := by
  intro hall
  have hclasses : (extractWith Recognizer.all "class A \x7b constructor = () => 1; \x7d").classes
      = [⟨"A", [⟨"constructor", [], false⟩], 0⟩] := by decide +kernel
  refine hall Recognizer.all _ _ (hclasses ▸ List.mem_cons_self) ⟨"constructor", [], false⟩ ?_ rfl
  exact List.mem_cons_self

end Scaffold

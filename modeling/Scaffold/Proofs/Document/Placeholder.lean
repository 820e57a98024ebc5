/-
Scaffold/Proofs/Document/Placeholder.lean

The placeholder of a parameter is that of the name it binds.

A raw parameter that binds a name is that name with white space around it, a
rest prefix in front of it, an optional marker behind it, and then a type or a
default value, which can hold any text (`NamedParameter`).  Of all that, what is
left of the parameter is the name, and behind it at most white space and
markers (`exists_boundName`): a type or a default value is cut off where it
begins, before anything in it is looked at.

No word of the table of rules has white space or a marker in it, so what is left
behind the name decides nothing (`expressionFor_append`).  The placeholder is
that of the first rule whose word occurs in the name (`CallsFor`), as if the
name stood there alone (`placeholder_text`).
-/
import Mathlib.Data.List.Find
import Scaffold.Proofs.Extraction.Importable

namespace Scaffold

open Text Pattern

/-! ### Rules -/

section Rules

variable {cs tail word name : List Char}

theorem contains_iff_isInfix : Text.contains word cs = true ↔ word <:+: cs := by
  induction cs with
  | nil => rw [Text.contains, List.isEmpty_iff, List.infix_nil]
  | cons c cs ih =>
    rw [Text.contains, Bool.or_eq_true, List.isPrefixOf_iff_prefix, ih, List.infix_cons_iff]

/-- Behind a text, characters that a word does not have do not matter for whether it occurs. -/
theorem isInfix_append_iff (h : ∀ c ∈ tail, c ∉ word) : word <:+: cs ++ tail ↔ word <:+: cs := by
  have hnil : ∀ w : List Char, w ⊆ tail → w ⊆ word → w = [] := fun w htail hword =>
    List.eq_nil_iff_forall_not_mem.mpr fun c hc => h c (htail hc) (hword hc)
  rw [List.infix_append_iff]
  constructor
  · rintro (hcs | htail | ⟨u, v, rfl, hu, hv⟩)
    · exact hcs
    · rw [hnil word htail.subset (List.Subset.refl _)]
      exact List.nil_infix
    · rw [hnil v hv.subset (List.subset_append_right u v), List.append_nil]
      exact hu.isInfix
  · exact .inl

/-- What the first rule whose word occurs in a name calls for. -/
def expressionFor (name : List Char) : String :=
  match placeholderRules.find? (fun rule => Text.contains rule.1.toList name) with
  | some (_, expression) => expression
  | none => fallbackPlaceholder

theorem placeholder_eq (raw : String) :
    placeholder raw = expressionFor ((boundName raw.toList).map Char.toLower) := rfl

/-- What the rules call for, in the order of the table: the expression of a rule whose word occurs
in a name and no earlier one does, or the fallback where no word occurs. -/
inductive CallsFor (name : List Char) : String → Prop
  | rule {before after : List (String × String)} {word expression : String}
      (table : placeholderRules = before ++ (word, expression) :: after)
      (occurs : word.toList <:+: name) (first : ∀ r ∈ before, ¬ r.1.toList <:+: name) :
      CallsFor name expression
  | fallback (none : ∀ r ∈ placeholderRules, ¬ r.1.toList <:+: name) :
      CallsFor name fallbackPlaceholder

theorem callsFor_expressionFor (name : List Char) : CallsFor name (expressionFor name) := by
  rw [expressionFor]
  split
  next word expression hfind =>
    obtain ⟨hoccurs, before, after, htable, hfirst⟩ := List.find?_eq_some_iff_append.mp hfind
    refine .rule htable (contains_iff_isInfix.mp hoccurs) fun r hr hin => ?_
    have hnot := hfirst r hr
    rw [contains_iff_isInfix.mpr hin] at hnot
    cases hnot
  next hfind =>
    refine .fallback fun r hr hin => ?_
    exact List.find?_eq_none.mp hfind r hr (contains_iff_isInfix.mpr hin)

/-- White space and markers behind a name do not change what it calls for. -/
theorem expressionFor_append (h : ∀ c ∈ tail, isBlank c = true ∨ c = '?') :
    expressionFor ((name ++ tail).map Char.toLower) = expressionFor (name.map Char.toLower) := by
  have hwords : (placeholderRules.all fun r => ('?' :: blankChars).all fun c =>
      !r.1.toList.contains c.toLower) = true := by
    decide +kernel
  have hcontains : ∀ r ∈ placeholderRules,
      Text.contains r.1.toList ((name ++ tail).map Char.toLower)
        = Text.contains r.1.toList (name.map Char.toLower) := by
    intro r hr
    rw [Bool.eq_iff_iff, contains_iff_isInfix, contains_iff_isInfix, List.map_append]
    refine isInfix_append_iff fun d hd => ?_
    obtain ⟨c, hc, rfl⟩ := List.mem_map.mp hd
    have hmark : c ∈ '?' :: blankChars := by
      rcases h c hc with hblank | rfl
      · exact List.mem_cons_of_mem _ (mem_blankChars hblank)
      · exact List.mem_cons_self
    have hnot := List.all_eq_true.mp (List.all_eq_true.mp hwords r hr) c hmark
    rwa [Bool.not_eq_true', ← Bool.not_eq_true, List.contains_iff_mem] at hnot
  rw [expressionFor, expressionFor, List.find?_congr hcontains]

end Rules

/-! ### The name that is bound -/

/-- A name that can be bound: it has no white space in it, and nothing that ends a name or is no
part of one.  Identifiers are such names. -/
structure IsBindable (n : List Char) : Prop where
  ne_nil : n ≠ []
  plain : ∀ c ∈ n, isBlank c = false ∧ c ≠ '.' ∧ c ≠ '=' ∧ c ≠ ':' ∧ c ≠ '?'
  /-- It is no destructuring pattern. -/
  noPattern : ∀ c ∈ n.head?, c ≠ '{' ∧ c ≠ '['

theorem Pattern.IsIdentifier.isBindable {n : List Char} (h : IsIdentifier n) : IsBindable n := by
  have hmarks : (['.', '=', ':', '?', '{', '['].all fun d => !isIdentifierPart d) = true := by
    decide +kernel
  have hne : ∀ c ∈ n, ∀ d ∈ ['.', '=', ':', '?', '{', '['], c ≠ d := by
    rintro c hc d hd rfl
    have hpart := List.all_eq_true.mp hmarks c hd
    rw [h.2 c hc] at hpart
    cases hpart
  refine ⟨h.ne_nil, fun c hc => ⟨?_, ?_⟩, fun c hc => ?_⟩
  · -- an identifier holds no blank
    refine Bool.eq_false_iff.mpr fun hblank => ?_
    have hpart := isIdentifierPart_of_isBlank hblank
    rw [h.2 c hc] at hpart
    cases hpart
  · -- nor a mark that ends a name
    have hc' := hne c hc
    simp only [List.forall_mem_cons] at hc'
    exact ⟨hc'.1, hc'.2.1, hc'.2.2.1, hc'.2.2.2.1⟩
  · -- nor does it begin a destructuring
    have hc' := hne c (List.mem_of_head? hc)
    exact ⟨hc' _ (by simp), hc' _ (by simp)⟩

section BoundName

variable {u v lead n tail cs : List Char}

theorem dropRepeated_of_not_isPrefix (h : ¬ lead <+: cs) : dropRepeated lead cs = cs := by
  rw [dropRepeated]
  cases cs.length with
  | zero => rfl
  | succ k => exact if_neg (mt List.isPrefixOf_iff_prefix.mp h)

/-- A prefix that comes once is taken away. -/
theorem dropRepeated_append (hlead : lead ≠ []) (h : ¬ lead <+: cs) :
    dropRepeated lead (lead ++ cs) = cs := by
  have hlength : (lead ++ cs).length = (lead.length - 1 + cs.length) + 1 := by
    have := List.length_pos_iff.mpr hlead
    rw [List.length_append]
    omega
  rw [dropRepeated, hlength, dropRepeated.go,
    if_pos (List.isPrefixOf_iff_prefix.mpr (List.prefix_append lead cs)), List.drop_left]
  cases lead.length - 1 + cs.length with
  | zero => rfl
  | succ k => exact if_neg (mt List.isPrefixOf_iff_prefix.mp h)

/-- What is taken from the front of a text is taken from the front of a longer one. -/
theorem mem_takeWhile_of_isPrefix {q : Char → Bool} {s : List Char} (h : s <+: cs) {c : Char}
    (hc : c ∈ s.takeWhile q) : c ∈ cs.takeWhile q := by
  obtain ⟨z, rfl⟩ := h
  rw [List.takeWhile_append]
  split_ifs
  · exact List.mem_append_left _ ((List.takeWhile_prefix q).subset hc)
  · exact hc

theorem isUnannotated_of_isBlank {c : Char} (h : isBlank c = true) :
    (c != '=' && c != ':') = true := by
  have hclass := of_isBlank (p := fun c => !(c != '=' && c != ':')) (by decide +kernel) h
  simpa using hclass

/-- What can stand in front of a name: nothing, or the rest prefix and white space. -/
def IsRestLead (lead : List Char) : Prop :=
  lead = [] ∨ ∃ v, lead = ['.', '.', '.'] ++ v ∧ ∀ c ∈ v, isBlank c = true

/-- Without white space around it, a parameter begins with the name or what leads it. -/
theorem trim_parameter (hu : ∀ c ∈ u, isBlank c = true) (hlead : IsRestLead lead)
    (hn : IsBindable n) :
    trim (u ++ (lead ++ (n ++ tail))) = lead ++ (n ++ trimEnd tail) := by
  have hplain : ∀ c ∈ n, isBlank c = false := fun c hc => (hn.plain c hc).1
  have hstart : trimStart (lead ++ (n ++ tail)) = lead ++ (n ++ tail) := by
    rcases hlead with rfl | ⟨v, rfl, -⟩
    · obtain ⟨c, n, rfl⟩ := List.exists_cons_of_ne_nil hn.ne_nil
      exact List.dropWhile_cons_of_neg (by simp [hplain c List.mem_cons_self])
    · exact List.dropWhile_cons_of_neg (by decide)
  have hend : dropEndWhile isBlank (n ++ tail) = n ++ trimEnd tail :=
    dropEndWhile_append_right hplain tail
  rw [trim_blank_append hu, trim, hstart, trimEnd, dropEndWhile_append (by simp [hend, hn.ne_nil]),
    hend]

theorem dropRepeated_lead (hlead : IsRestLead lead) (hn : IsBindable n) :
    ∃ v, dropRepeated ['.', '.', '.'] (lead ++ (n ++ tail)) = v ++ (n ++ tail)
      ∧ ∀ c ∈ v, isBlank c = true := by
  -- neither a name nor white space begins with a dot
  have hdots : ∀ v, (∀ c ∈ v, isBlank c = true) → ¬ ['.', '.', '.'] <+: v ++ (n ++ tail) := by
    intro v hv hdots
    cases v with
    | nil =>
      obtain ⟨c, n, rfl⟩ := List.exists_cons_of_ne_nil hn.ne_nil
      obtain ⟨rfl, -⟩ := List.cons_prefix_cons.mp hdots
      exact (hn.plain _ List.mem_cons_self).2.1 rfl
    | cons c v =>
      obtain ⟨rfl, -⟩ := List.cons_prefix_cons.mp hdots
      exact absurd (hv _ List.mem_cons_self) (by decide)
  rcases hlead with rfl | ⟨v, rfl, hv⟩
  · exact ⟨[], dropRepeated_of_not_isPrefix (hdots [] (by simp)), by simp⟩
  · rw [List.append_assoc]
    exact ⟨v, dropRepeated_append (by simp) (hdots v hv), hv⟩

/-- **What is left of a parameter is the name it binds**, and behind it at most white space and
markers. -/
theorem exists_boundName (hu : ∀ c ∈ u, isBlank c = true) (hlead : IsRestLead lead)
    (hn : IsBindable n)
    (htail : ∀ c ∈ tail.takeWhile (fun c => c != '=' && c != ':'), isBlank c = true ∨ c = '?') :
    ∃ r, boundName (u ++ (lead ++ (n ++ tail))) = n ++ r
      ∧ ∀ c ∈ r, isBlank c = true ∨ c = '?' := by
  have htrim : trim (u ++ (lead ++ (n ++ tail))) = lead ++ (n ++ trimEnd tail) :=
    trim_parameter hu hlead hn
  obtain ⟨v, hdropped, hv⟩ : ∃ v, dropRepeated ['.', '.', '.'] (lead ++ (n ++ trimEnd tail))
      = v ++ (n ++ trimEnd tail) ∧ ∀ c ∈ v, isBlank c = true := dropRepeated_lead hlead hn
  -- up to a type or a default value there are the name and what may stand behind it
  generalize hbare : (trimEnd tail).takeWhile (fun c => c != '=' && c != ':') = s
  have hs : ∀ c ∈ s, isBlank c = true ∨ c = '?' := by
    rintro c hc
    rw [← hbare] at hc
    exact htail c (mem_takeWhile_of_isPrefix (dropEndWhile_isPrefix isBlank tail) hc)
  have hcut : (v ++ (n ++ trimEnd tail)).takeWhile (fun c => c != '=' && c != ':')
      = v ++ (n ++ s) := by
    have hblank : ∀ c ∈ v, (c != '=' && c != ':') = true := fun c hc =>
      isUnannotated_of_isBlank (hv c hc)
    have hname : ∀ c ∈ n, (c != '=' && c != ':') = true := fun c hc => by
      simp [(hn.plain c hc).2.2.1, (hn.plain c hc).2.2.2.1]
    rw [List.takeWhile_append_of_pos hblank, List.takeWhile_append_of_pos hname, hbare]
  have hinner : trim (v ++ (n ++ s)) = n ++ trimEnd s := trim_parameter hv (.inl rfl) hn
  have hhead : ∀ c ∈ (lead ++ (n ++ trimEnd tail)).head?, c ≠ '{' ∧ c ≠ '[' := by
    rcases hlead with rfl | ⟨v, rfl, -⟩
    · obtain ⟨c, n, rfl⟩ := List.exists_cons_of_ne_nil hn.ne_nil
      exact hn.noPattern
    · rintro c ⟨⟩
      decide
  refine ⟨dropEndWhile (· == '?') (trimEnd s), ?_, ?_⟩
  · rw [boundName, htrim]
    split
    · next heq => exact absurd rfl (hhead '{' (by rw [heq]; rfl)).1
    · next heq => exact absurd rfl (hhead '[' (by rw [heq]; rfl)).2
    · rw [hdropped, hcut]
      show dropEndWhile (· == '?') (trim (v ++ (n ++ s))) = _
      rw [hinner]
      exact dropEndWhile_append_right (fun c hc => by simp [(hn.plain c hc).2.2.2.2]) _
  · intro c hc
    have hmem := (dropEndWhile_isPrefix _ _).subset hc
    exact hs c ((dropEndWhile_isPrefix isBlank s).subset hmem)

end BoundName

/-! ### Parameters -/

/-- A raw parameter that binds a name, in the pieces it is written in. -/
structure NamedParameter where
  front : String
  /-- Whether there is a rest prefix. -/
  isRest : Bool
  afterRest : String
  name : String
  afterName : String
  /-- Whether there is an optional marker. -/
  isOptional : Bool
  afterMark : String
  /-- A type, a default value, or both; or nothing. -/
  declared : String
  back : String
  isBindable_name : IsBindable name.toList
  declared_begins : ∀ c ∈ declared.toList.head?, c = ':' ∨ c = '='
  /-- Between the other pieces there is white space, or nothing. -/
  isBlank_between : ∀ w ∈ [front, afterRest, afterName, afterMark, back],
    ∀ c ∈ w.toList, isBlank c = true

namespace NamedParameter

/-- How the parameter is written. -/
def text (p : NamedParameter) : String :=
  p.front ++ (if p.isRest then "..." else "") ++ p.afterRest ++ p.name ++ p.afterName
    ++ (if p.isOptional then "?" else "") ++ p.afterMark ++ p.declared ++ p.back

/-- What is written between the name and a type or a default value. -/
def marked (p : NamedParameter) : List Char :=
  p.afterName.toList ++ ((if p.isOptional then ['?'] else []) ++ p.afterMark.toList)

theorem mem_marked (p : NamedParameter) : ∀ c ∈ p.marked, isBlank c = true ∨ c = '?' := by
  have hblank := p.isBlank_between
  simp only [List.forall_mem_cons] at hblank
  obtain ⟨-, -, hname, hmark, -⟩ := hblank
  intro c hc
  rcases List.mem_append.mp hc with h | h
  · exact .inl (hname c h)
  rcases List.mem_append.mp h with h | h
  · split_ifs at h
    · exact .inr (List.mem_singleton.mp h)
    · cases h
  · exact .inl (hmark c h)

/-- Whatever a type or a default value holds, it is cut off where it begins. -/
theorem takeWhile_tail (p : NamedParameter) :
    ∀ c ∈ (p.marked ++ (p.declared.toList ++ p.back.toList)).takeWhile
      (fun c => c != '=' && c != ':'), isBlank c = true ∨ c = '?' := by
  have hback : ∀ c ∈ p.back.toList, isBlank c = true := p.isBlank_between p.back (by simp)
  have hmarked : ∀ c ∈ p.marked, (c != '=' && c != ':') = true := by
    intro c hc
    rcases p.mem_marked c hc with hblank | rfl
    · exact isUnannotated_of_isBlank hblank
    · decide
  rw [List.takeWhile_append_of_pos hmarked]
  intro c hc
  rcases List.mem_append.mp hc with hc | hc
  · exact p.mem_marked c hc
  · left
    rcases hdeclared : p.declared.toList with - | ⟨d, rest⟩
    · -- nothing is declared, and what stands behind is blank
      rw [hdeclared] at hc
      exact hback c ((List.takeWhile_prefix _).subset hc)
    · -- what is declared begins with one of the two signs
      have hbegins := p.declared_begins d (by rw [hdeclared]; rfl)
      rw [hdeclared, List.cons_append, List.takeWhile_cons_of_neg
        (by rcases hbegins with rfl | rfl <;> decide)] at hc
      cases hc

theorem exists_boundName_text (p : NamedParameter) :
    ∃ r, boundName p.text.toList = p.name.toList ++ r ∧ ∀ c ∈ r, isBlank c = true ∨ c = '?' := by
  have hfront : ∀ c ∈ p.front.toList, isBlank c = true := p.isBlank_between p.front (by simp)
  have hrest : ∀ c ∈ p.afterRest.toList, isBlank c = true := p.isBlank_between p.afterRest (by simp)
  cases hlead : p.isRest with
  | true =>
    have htext : p.text.toList = p.front.toList ++ ((['.', '.', '.'] ++ p.afterRest.toList)
        ++ (p.name.toList ++ (p.marked ++ (p.declared.toList ++ p.back.toList)))) := by
      cases hmark : p.isOptional <;> simp [text, marked, hlead, hmark]
    rw [htext]
    exact exists_boundName hfront (.inr ⟨_, rfl, hrest⟩) p.isBindable_name p.takeWhile_tail
  | false =>
    have htext : p.text.toList = (p.front.toList ++ p.afterRest.toList)
        ++ ([] ++ (p.name.toList ++ (p.marked ++ (p.declared.toList ++ p.back.toList)))) := by
      cases hmark : p.isOptional <;> simp [text, marked, hlead, hmark]
    rw [htext]
    exact exists_boundName (List.forall_mem_append.mpr ⟨hfront, hrest⟩) (.inl rfl)
      p.isBindable_name p.takeWhile_tail

/-- A name alone. -/
def ofName (name : String) (h : IsBindable name.toList) : NamedParameter :=
  ⟨"", false, "", name, "", false, "", "", "", h, by simp, by simp⟩

theorem placeholder_eq_expressionFor (p : NamedParameter) :
    placeholder p.text = expressionFor (p.name.toList.map Char.toLower) := by
  obtain ⟨r, hname, hr⟩ := p.exists_boundName_text
  rw [placeholder_eq, hname, expressionFor_append hr]

end NamedParameter

/-- **Types and default values never change a placeholder.**  The placeholder of a parameter that
binds a name is what the first rule calls for whose word occurs in the name, whatever its case; it
is the one the name has alone, whatever is written around it. -/
theorem placeholder_text (p : NamedParameter) :
    CallsFor (p.name.toList.map Char.toLower) (placeholder p.text)
      ∧ placeholder p.text = placeholder p.name := by
  have halone : (NamedParameter.ofName p.name p.isBindable_name).text = p.name := by
    simp [NamedParameter.ofName, NamedParameter.text]
  have hname := (NamedParameter.ofName p.name p.isBindable_name).placeholder_eq_expressionFor
  rw [halone] at hname
  rw [p.placeholder_eq_expressionFor]
  exact ⟨callsFor_expressionFor _, hname.symm⟩

/-- A parameter with words of other rules, brackets and further marks in its type and its default
value. -/
def annotatedParameter : NamedParameter where
  front := " "
  isRest := true
  afterRest := "\t"
  name := "userIds"
  afterName := " "
  isOptional := true
  afterMark := "\n"
  declared := ": Map<callback, \x7b name?: string \x7d> = options => [config ? 'name' : callback]"
  back := "  "
  isBindable_name := Pattern.IsIdentifier.isBindable
    ⟨⟨'u', rfl, by decide⟩, List.all_eq_true.mp (by decide +kernel)⟩
  declared_begins := by
    rintro c ⟨⟩
    exact .inl rfl
  isBlank_between := by
    have hall : ([" ", "\t", " ", "\n", "  "].all fun w => w.toList.all isBlank) = true := by decide
    exact fun w hw => List.all_eq_true.mp (List.all_eq_true.mp hall w hw)

/-- It is called with the placeholder of its name. -/
theorem placeholder_annotatedParameter : placeholder annotatedParameter.text = "1" :=
  (placeholder_text annotatedParameter).2.trans (by decide +kernel)

end Scaffold

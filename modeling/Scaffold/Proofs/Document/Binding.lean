/-
Scaffold/Proofs/Document/Binding.lean

The name a module is bound to is an identifier, and that of its file but for
what cannot stand in one.

The binding is made by cutting the file's name into parts and putting these
together again.  Here it is told by its characters: those of the file's name
that can stand in a binding, in order and each as it is, but that the first of
a part is a capital (`Spells`).  To see that, the file's name is gone over once
(`spelling`):

* `spelling_eq` — that gives the parts put together;
* `spells_spelling` — and has every character at its place.

What is then left of the name may begin with a digit, or be nothing at all;
`BindingOf` says what the binding is in each case, and `moduleBinding_spells`
that it always is.
-/
import Mathlib
import Scaffold.Proofs.Document.Groups

namespace Scaffold

open Text

/-! ### Parts -/

/-- Whether a character that can stand in a binding begins a part, given the text in front. -/
def beginsPart (before : List Char) : Bool := before.getLast?.all fun d => !isBindingChar d

/-- A text has the characters of a unit's name that can stand in a binding, the first of each part
as a capital. -/
structure Spells (unit spelled : List Char) : Prop where
  length_eq : spelled.length = (unit.filter isBindingChar).length
  char_at : ∀ u c v, unit = u ++ c :: v → isBindingChar c = true →
    spelled[(u.filter isBindingChar).length]? = some (if beginsPart u then c.toUpper else c)

/-- What a module is bound to, given the name of its file. -/
inductive BindingOf (unit : List Char) : List Char → Prop
  /-- The name as it is spelled. -/
  | spelled {c : Char} {cs : List Char} (h : Spells unit (c :: cs)) (hc : c.isDigit = false) :
      BindingOf unit (c :: cs)
  /-- An underscore keeps a digit from coming first. -/
  | guarded {c : Char} {cs : List Char} (h : Spells unit (c :: cs)) (hc : c.isDigit = true) :
      BindingOf unit ('_' :: c :: cs)
  /-- Nothing of the name can stand in a binding. -/
  | fallback (h : ∀ c ∈ unit, isBindingChar c = false) : BindingOf unit "Module".toList

/-! ### Going over the name once -/

/-- The characters of a text that can stand in a binding, the first of each part as a capital;
`fresh` says whether one at the head begins a part. -/
def spelling : (fresh : Bool) → List Char → List Char
  | _, [] => []
  | fresh, c :: cs =>
    if isBindingChar c then (if fresh then c.toUpper else c) :: spelling false cs
    else spelling true cs

theorem spelling_of_bindingChar {c : Char} (h : isBindingChar c = true) (fresh : Bool)
    (cs : List Char) :
    spelling fresh (c :: cs) = (if fresh then c.toUpper else c) :: spelling false cs := if_pos h

theorem spelling_of_not_bindingChar {c : Char} (h : ¬ isBindingChar c = true) (fresh : Bool)
    (cs : List Char) : spelling fresh (c :: cs) = spelling true cs := if_neg h

/-- The first piece of a text has a capital only if it begins a part. -/
theorem exists_spelling_eq (cs : List Char) :
    ∃ first rest, splitWhere (fun c => !isBindingChar c) cs = first :: rest
      ∧ spelling true cs = capitalize first ++ (rest.map capitalize).flatten
      ∧ spelling false cs = first ++ (rest.map capitalize).flatten := by
  induction cs with
  | nil => exact ⟨[], [], rfl, rfl, rfl⟩
  | cons c cs ih =>
    obtain ⟨first, rest, hsplit, hfresh, hinside⟩ := ih
    by_cases hc : isBindingChar c = true
    · -- the character goes on with the first word
      refine ⟨c :: first, rest, ?_, ?_, ?_⟩
      · rw [splitWhere, if_neg (by simpa using hc), hsplit]
      · rw [spelling_of_bindingChar hc, hinside]
        rfl
      · rw [spelling_of_bindingChar hc, hinside]
        rfl
    · -- the first word is over, and the next one begins with a capital
      refine ⟨[], first :: rest, ?_, ?_, ?_⟩
      · rw [splitWhere, if_pos (by simpa using hc), hsplit]
      · rw [spelling_of_not_bindingChar hc, hfresh]
        rfl
      · rw [spelling_of_not_bindingChar hc, hfresh]
        rfl

/-- **The parts of a name put together are its spelling.** -/
theorem spelling_eq (cs : List Char) :
    ((splitWhere (fun c => !isBindingChar c) cs).map capitalize).flatten = spelling true cs := by
  obtain ⟨first, rest, hsplit, hfresh, -⟩ := exists_spelling_eq cs
  rw [hsplit, hfresh]
  rfl

theorem length_spelling (fresh : Bool) (cs : List Char) :
    (spelling fresh cs).length = (cs.filter isBindingChar).length := by
  induction cs generalizing fresh with
  | nil => rfl
  | cons c cs ih =>
    by_cases hc : isBindingChar c = true
    · rw [spelling_of_bindingChar hc, List.filter_cons_of_pos hc, List.length_cons,
        List.length_cons, ih]
    · rw [spelling_of_not_bindingChar hc, List.filter_cons_of_neg hc, ih]

/-- Every character is at its place; whether it begins a part, the one in front of it says. -/
theorem getElem?_spelling {c : Char} (hc : isBindingChar c = true) (fresh : Bool)
    (u v : List Char) :
    (spelling fresh (u ++ c :: v))[(u.filter isBindingChar).length]?
      = some (if (u.getLast?.map fun d => !isBindingChar d).getD fresh then c.toUpper else c) := by
  induction u generalizing fresh with
  | nil =>
    rw [List.nil_append, spelling_of_bindingChar hc]
    rfl
  | cons d u ih =>
    -- behind `d` a part begins just when `d` is of none
    have hlast : ((d :: u).getLast?.map fun d => !isBindingChar d).getD fresh
        = (u.getLast?.map fun d => !isBindingChar d).getD (!isBindingChar d) := by
      rw [List.getLast?_cons]
      cases u.getLast? <;> rfl
    rw [List.cons_append, hlast]
    by_cases hd : isBindingChar d = true
    · rw [spelling_of_bindingChar hd, List.filter_cons_of_pos hd, List.length_cons,
        List.getElem?_cons_succ, ih, hd]
      rfl
    · rw [spelling_of_not_bindingChar hd, List.filter_cons_of_neg hd, ih,
        Bool.eq_false_iff.mpr hd]
      rfl

theorem spells_spelling (unit : List Char) : Spells unit (spelling true unit) where
  length_eq := length_spelling true unit
  char_at := by
    rintro u c v rfl hc
    have hbegins : beginsPart u = (u.getLast?.map fun d => !isBindingChar d).getD true := by
      rw [beginsPart]
      cases u.getLast? <;> rfl
    rw [getElem?_spelling hc, hbegins]

/-! ### The binding -/

/-- A spelling begins with a capital, or a character that has none. -/
theorem isLower_head?_spelling (unit : List Char) :
    ∀ c ∈ (spelling true unit).head?, c.isLower = false := by
  induction unit with
  | nil => simp [spelling]
  | cons c cs ih =>
    by_cases hc : isBindingChar c = true
    · rw [spelling_of_bindingChar hc]
      rintro d ⟨⟩
      exact Char.isLower_toUpper_eq_false c
    · rwa [spelling_of_not_bindingChar hc]

theorem toList_moduleBinding (unitName : String) :
    (moduleBinding unitName).toList
      = match spelling true unitName.toList with
        | [] => "Module".toList
        | c :: cs => if c.isDigit then '_' :: c :: cs else c :: cs := by
  rw [moduleBinding, spelling_eq]
  cases spelling true unitName.toList with
  | nil => rfl
  | cons c cs => exact String.toList_ofList

theorem isLower_head?_moduleBinding (unitName : String) :
    ∀ c ∈ (moduleBinding unitName).toList.head?, c.isLower = false := by
  have hhead := isLower_head?_spelling unitName.toList
  rw [toList_moduleBinding]
  rcases hspelling : spelling true unitName.toList with - | ⟨c, cs⟩
  · rintro c ⟨⟩
    rfl
  · rw [hspelling] at hhead
    simp only
    split_ifs
    · rintro c ⟨⟩
      rfl
    · exact hhead

theorem bindingOf_moduleBinding (unitName : String) :
    BindingOf unitName.toList (moduleBinding unitName).toList := by
  have hspells := spells_spelling unitName.toList
  rw [toList_moduleBinding]
  rcases hspelling : spelling true unitName.toList with - | ⟨c, cs⟩
  · refine .fallback fun c hc => Bool.eq_false_iff.mpr fun hbinding => ?_
    have hnone := List.eq_nil_of_length_eq_zero (hspelling ▸ hspells.length_eq).symm
    exact List.filter_eq_nil_iff.mp hnone c hc hbinding
  · rw [hspelling] at hspells
    simp only
    split_ifs with hdigit
    · exact .guarded hspells hdigit
    · exact .spelled hspells (Bool.eq_false_iff.mpr hdigit)

/-- **The name a module is bound to is an identifier that spells the name of its file.**  It is not
empty, has only letters, digits, `_` and `$`, and begins with no digit and no small letter. -/
theorem moduleBinding_spells (unitName : String) :
    (moduleBinding unitName).toList ≠ []
      ∧ (∀ c ∈ (moduleBinding unitName).toList, c.isAlphanum = true ∨ c = '_' ∨ c = '$')
      ∧ (∀ c ∈ (moduleBinding unitName).toList.head?, c.isDigit = false ∧ c.isLower = false)
      ∧ BindingOf unitName.toList (moduleBinding unitName).toList := by
  obtain ⟨c, cs, hname, hdigit, hchars⟩ := moduleBinding_eq unitName
  have hlist : (moduleBinding unitName).toList = c :: cs := by rw [hname, String.toList_ofList]
  have hlower := isLower_head?_moduleBinding unitName
  refine ⟨by simp [hlist], fun d hd => ?_, ?_, bindingOf_moduleBinding unitName⟩
  · rw [hlist] at hd
    simpa [isBindingChar, or_assoc] using hchars d hd
  · rw [hlist] at hlower ⊢
    rintro d ⟨⟩
    exact ⟨hdigit, hlower c rfl⟩

/-- A digit first, a mark and a letter that cannot stand in a binding, and one that can. -/
theorem moduleBinding_spells_digitFirst :
    moduleBinding "2d-modèle$" = "_2dModLe$"
      ∧ '$' ∈ "_2dModLe$".toList ∧ ('$'.isAlphanum = true ∨ '$' = '_' ∨ '$' = '$')
      ∧ '_' ∈ "_2dModLe$".toList.head? ∧ ('_'.isDigit = false ∧ '_'.isLower = false)
      ∧ BindingOf "2d-modèle$".toList "_2dModLe$".toList := by
  have hbinding : moduleBinding "2d-modèle$" = "_2dModLe$" := by decide
  have hspells := moduleBinding_spells "2d-modèle$"
  rw [hbinding] at hspells
  obtain ⟨-, hchars, hfirst, hof⟩ := hspells
  have hdollar : '$' ∈ "_2dModLe$".toList := by decide
  have hhead : '_' ∈ "_2dModLe$".toList.head? := by decide
  exact ⟨hbinding, hdollar, hchars _ hdollar, hhead, hfirst _ hhead, hof⟩

end Scaffold

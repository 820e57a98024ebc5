/-
Scaffold/Proofs/Text/Commas.lean

Splitting parameter lists, and putting them together again.

A comma divides a parameter list where the counter of brackets is at zero, and
behind it the list is read as if it began there.  So a list that closes its
brackets (`ClosesBrackets`) can be put in front of any other one
(`splitParameters_append`), and every list is either one piece, or such a list of
one piece in front of a comma (`whole_or_divided`).

Blanks are no brackets, so a trimmed piece is split as the piece is
(`splitParameters_trim`).  Parameters are therefore lists of one parameter, and
all but the last one close their brackets (`AreParameters`): behind a counter
that does not come back to zero no comma divides.  Joined by commas such
parameters are split into the same again (`AreParameters.splitParameters_eq`).
Nothing here asks for brackets that match.
-/
import Scaffold.Proofs.Text.Pieces

namespace Scaffold

open Text

/-! ### Trimmed texts -/

namespace Text

variable {cs u v : List Char}

theorem dropEndWhile_eq_nil {p : Char → Bool} (h : ∀ c ∈ v, p c = true) :
    dropEndWhile p v = [] := by
  induction v with
  | nil => rfl
  | cons c v ih =>
    obtain ⟨hc, hv⟩ := List.forall_mem_cons.mp h
    rw [dropEndWhile, ih hv]
    exact if_pos hc

theorem trim_blank_append (h : ∀ c ∈ u, isBlank c = true) (cs : List Char) :
    trim (u ++ cs) = trim cs := by
  rw [trim, trimStart, List.dropWhile_append_of_pos h]
  rfl

theorem trim_append_blank (h : ∀ c ∈ v, isBlank c = true) (cs : List Char) :
    trim (cs ++ v) = trim cs := by
  rw [trim, trim, trimStart, trimStart, List.dropWhile_append]
  split_ifs with hnil
  · rw [List.isEmpty_iff.mp hnil, List.dropWhile_eq_nil_iff.mpr h]
  · exact dropEndWhile_append_of_nil (dropEndWhile_eq_nil h) _

end Text

/-! ### The counter of brackets -/

/-- The counter of brackets is back at zero behind a text. -/
def ClosesBrackets (cs : List Char) : Prop := cs.foldl bracketDepth 0 = 0

instance (cs : List Char) : Decidable (ClosesBrackets cs) := inferInstanceAs (Decidable (_ = _))

section Commas

variable {cs u v : List Char} {c : Char} {depth : Nat}

/-- The characters the counter counts. -/
def brackets : List Char := ['(', '[', '{', '<', ')', ']', '}', '>']

theorem bracketDepth_of_not_mem (h : c ∉ brackets) (depth : Nat) :
    bracketDepth depth c = depth := by
  have hother : isOpening c = false ∧ isClosing c = false := by
    simpa [brackets, isOpening, isClosing, and_assoc] using h
  rw [bracketDepth, hother.1, hother.2]
  rfl

theorem foldl_bracketDepth_of_not_mem (h : ∀ c ∈ u, c ∉ brackets) (depth : Nat) :
    u.foldl bracketDepth depth = depth := by
  induction u with
  | nil => rfl
  | cons c u ih =>
    obtain ⟨hc, hu⟩ := List.forall_mem_cons.mp h
    rw [List.foldl_cons, bracketDepth_of_not_mem hc, ih hu]

theorem not_mem_brackets_of_isBlank (h : isBlank c = true) : c ∉ brackets := by
  have hprinted : brackets.all (fun d => !isBlank d) = true := by decide
  intro hc
  have := List.all_eq_true.mp hprinted c hc
  rw [h] at this
  cases this

/-- A text is counted without the blanks around it. -/
theorem foldl_bracketDepth_trim (cs : List Char) (depth : Nat) :
    (trim cs).foldl bracketDepth depth = cs.foldl bracketDepth depth := by
  obtain ⟨u, v, hcs, hu, hv⟩ := exists_blanks_trim cs
  conv_rhs => rw [hcs, List.foldl_append, List.foldl_append,
    foldl_bracketDepth_of_not_mem fun c hc => not_mem_brackets_of_isBlank (hu c hc),
    foldl_bracketDepth_of_not_mem fun c hc => not_mem_brackets_of_isBlank (hv c hc)]

/-! ### Pieces -/

theorem splitAtCommas_ne_nil (depth : Nat) (cs : List Char) : splitAtCommas depth cs ≠ [] := by
  cases cs with
  | nil => exact List.cons_ne_nil _ _
  | cons c cs =>
    rw [splitAtCommas]
    split_ifs
    · exact List.cons_ne_nil _ _
    · split <;> exact List.cons_ne_nil _ _

/-- A character that does not divide belongs to the first piece behind it. -/
theorem splitAtCommas_cons (h : ¬ (c = ',' ∧ depth = 0)) (cs : List Char) :
    ∃ p ps, splitAtCommas (bracketDepth depth c) cs = p :: ps
      ∧ splitAtCommas depth (c :: cs) = (c :: p) :: ps := by
  obtain ⟨p, ps, hsplit⟩ :=
    List.exists_cons_of_ne_nil (splitAtCommas_ne_nil (bracketDepth depth c) cs)
  refine ⟨p, ps, hsplit, ?_⟩
  rw [splitAtCommas, if_neg h, hsplit]

/-- **A comma divides where the counter is at zero**, and the text behind it is split by itself. -/
theorem splitAtCommas_append (h : u.foldl bracketDepth depth = 0) (v : List Char) :
    splitAtCommas depth (u ++ ',' :: v) = splitAtCommas depth u ++ splitAtCommas 0 v := by
  induction u generalizing depth with
  | nil =>
    obtain rfl : depth = 0 := h
    rfl
  | cons c u ih =>
    rw [List.foldl_cons] at h
    by_cases hc : c = ',' ∧ depth = 0
    · obtain ⟨rfl, rfl⟩ := hc
      exact congrArg ([] :: ·) (ih h)
    · obtain ⟨p, ps, hsplit, hcons⟩ := splitAtCommas_cons hc u
      have hrest := ih h
      rw [hsplit] at hrest
      rw [hcons, List.cons_append, splitAtCommas, if_neg hc, hrest]
      rfl

/-- **A text is one piece, or the first comma that divides it stands behind one piece.** -/
theorem whole_or_divided (depth : Nat) (cs : List Char) :
    splitAtCommas depth cs = [cs]
      ∨ ∃ u v, cs = u ++ ',' :: v ∧ splitAtCommas depth u = [u]
        ∧ u.foldl bracketDepth depth = 0 := by
  induction cs generalizing depth with
  | nil => exact .inl rfl
  | cons c cs ih =>
    by_cases hc : c = ',' ∧ depth = 0
    · obtain ⟨rfl, rfl⟩ := hc
      exact .inr ⟨[], cs, rfl, rfl, rfl⟩
    · -- in front of one piece the character makes one piece
      have hglue : ∀ {w}, splitAtCommas (bracketDepth depth c) w = [w] →
          splitAtCommas depth (c :: w) = [c :: w] := by
        intro w hw
        obtain ⟨p, ps, hsplit, hcons⟩ := splitAtCommas_cons hc w
        rw [hw] at hsplit
        obtain ⟨rfl, rfl⟩ := List.cons.inj hsplit
        exact hcons
      rcases ih (bracketDepth depth c) with hwhole | ⟨u, v, rfl, hwhole, hclose⟩
      · exact .inl (hglue hwhole)
      · exact .inr ⟨c :: u, v, rfl, hglue hwhole, hclose⟩

/-- Blanks in front of a text belong to its first piece. -/
theorem splitAtCommas_blank_append (h : ∀ c ∈ u, isBlank c = true) (cs : List Char) :
    ∃ p ps, splitAtCommas depth cs = p :: ps ∧ splitAtCommas depth (u ++ cs) = (u ++ p) :: ps := by
  induction u with
  | nil =>
    obtain ⟨p, ps, hsplit⟩ := List.exists_cons_of_ne_nil (splitAtCommas_ne_nil depth cs)
    exact ⟨p, ps, hsplit, hsplit⟩
  | cons c u ih =>
    obtain ⟨hc, hu⟩ := List.forall_mem_cons.mp h
    obtain ⟨p, ps, hsplit, hu⟩ := ih hu
    have hcomma : ¬ (c = ',' ∧ depth = 0) := by
      rintro ⟨rfl, -⟩
      exact absurd hc (by decide)
    obtain ⟨q, qs, hsplit', hcons⟩ := splitAtCommas_cons hcomma (u ++ cs)
    rw [bracketDepth_of_not_mem (not_mem_brackets_of_isBlank hc), hu] at hsplit'
    obtain ⟨rfl, rfl⟩ := List.cons.inj hsplit'
    exact ⟨p, ps, hsplit, hcons⟩

/-- Blanks behind a text belong to its last piece. -/
theorem splitAtCommas_append_blank (h : ∀ c ∈ v, isBlank c = true) (cs : List Char) :
    ∃ ps p, splitAtCommas depth cs = ps ++ [p]
      ∧ splitAtCommas depth (cs ++ v) = ps ++ [p ++ v] := by
  induction cs generalizing depth with
  | nil =>
    obtain ⟨p, ps, hsplit, hblank⟩ := @splitAtCommas_blank_append v depth h []
    obtain ⟨rfl, rfl⟩ := List.cons.inj (show [[]] = p :: ps from hsplit)
    rw [List.append_nil] at hblank
    exact ⟨[], [], rfl, hblank⟩
  | cons c cs ih =>
    by_cases hc : c = ',' ∧ depth = 0
    · obtain ⟨rfl, rfl⟩ := hc
      obtain ⟨ps, p, hsplit, hblank⟩ := @ih 0
      exact ⟨[] :: ps, p, congrArg ([] :: ·) hsplit, congrArg ([] :: ·) hblank⟩
    · obtain ⟨ps, p, hsplit, hblank⟩ := @ih (bracketDepth depth c)
      obtain ⟨q, qs, hq, hcons⟩ := splitAtCommas_cons hc cs
      obtain ⟨q', qs', hq', hcons'⟩ := splitAtCommas_cons hc (cs ++ v)
      rw [hsplit] at hq
      rw [hblank] at hq'
      rw [List.cons_append, hcons, hcons']
      -- the character goes to the first piece, which may be the last one
      cases ps with
      | nil =>
        obtain ⟨rfl, rfl⟩ := List.cons.inj hq
        obtain ⟨rfl, rfl⟩ := List.cons.inj hq'
        exact ⟨[], c :: p, rfl, rfl⟩
      | cons r ps =>
        obtain ⟨rfl, rfl⟩ := List.cons.inj hq
        obtain ⟨rfl, rfl⟩ := List.cons.inj hq'
        exact ⟨(c :: r) :: ps, p, rfl, rfl⟩

/-! ### Parameters -/

/-- **A list that closes its brackets is split by itself in front of a comma.** -/
theorem splitParameters_append (h : ClosesBrackets u) (v : List Char) :
    splitParameters (u ++ ',' :: v) = splitParameters u ++ splitParameters v := by
  rw [splitParameters, splitAtCommas_append h, List.map_append, List.filter_append,
    List.map_append]
  rfl

theorem splitParameters_blank_append (h : ∀ c ∈ u, isBlank c = true) (cs : List Char) :
    splitParameters (u ++ cs) = splitParameters cs := by
  obtain ⟨p, ps, hsplit, hblank⟩ := @splitAtCommas_blank_append u 0 h cs
  rw [splitParameters, splitParameters, hsplit, hblank, List.map_cons, List.map_cons,
    trim_blank_append h]

theorem splitParameters_append_blank (h : ∀ c ∈ v, isBlank c = true) (cs : List Char) :
    splitParameters (cs ++ v) = splitParameters cs := by
  obtain ⟨ps, p, hsplit, hblank⟩ := @splitAtCommas_append_blank v 0 h cs
  rw [splitParameters, splitParameters, hsplit, hblank, List.map_append, List.map_append,
    List.map_singleton, List.map_singleton, trim_append_blank h]

/-- A list is split without the blanks around it. -/
theorem splitParameters_trim (cs : List Char) : splitParameters (trim cs) = splitParameters cs := by
  obtain ⟨u, v, hcs, hu, hv⟩ := exists_blanks_trim cs
  conv_rhs => rw [hcs, splitParameters_blank_append hu, splitParameters_append_blank hv]

/-- One piece is no parameter, or one that is its own list of parameters. -/
theorem splitParameters_of_whole (h : splitAtCommas 0 cs = [cs]) :
    splitParameters cs = []
      ∨ ∃ p, p.toList = trim cs ∧ splitParameters cs = [p] ∧ splitParameters p.toList = [p] := by
  have hsplit : splitParameters cs
      = ([trim cs].filter fun p => !p.isEmpty).map String.ofList := by
    rw [splitParameters, h, List.map_singleton]
  rcases hblank : (trim cs).isEmpty with - | -
  · refine .inr ⟨String.ofList (trim cs), String.toList_ofList, ?_, ?_⟩
    · rw [hsplit]
      simp [hblank]
    · rw [String.toList_ofList, splitParameters_trim, hsplit]
      simp [hblank]
  · refine .inl ?_
    rw [hsplit]
    simp [hblank]

/-- Texts that are parameters side by side: each is its own list of parameters, and all but the
last one close their brackets. -/
inductive AreParameters : List String → Prop
  | nil : AreParameters []
  | last {p : String} (h : splitParameters p.toList = [p]) : AreParameters [p]
  | cons {p : String} {ps : List String} (h : splitParameters p.toList = [p])
      (hclose : ClosesBrackets p.toList) (hps : AreParameters ps) : AreParameters (p :: ps)

/-- **Parameters joined by commas are split into the same parameters.** -/
theorem AreParameters.splitParameters_eq {ps : List String} (h : AreParameters ps) :
    splitParameters (", ".intercalate ps).toList = ps := by
  induction h with
  | nil => rfl
  | last h => rw [String.intercalate_singleton, h]
  | @cons p ps h hclose hps ih =>
    cases ps with
    | nil => rw [String.intercalate_singleton, h]
    | cons q qs =>
      -- the blank behind the comma goes to the next parameter, which is trimmed
      have htext : (", ".intercalate (p :: q :: qs)).toList
          = p.toList ++ ',' :: ([' '] ++ (", ".intercalate (q :: qs)).toList) := by
        rw [String.intercalate_cons_cons, String.toList_append, String.toList_append,
          List.append_assoc]
        rfl
      have hblank : ∀ c ∈ [' '], isBlank c = true := List.all_eq_true.mp (by decide)
      rw [htext, splitParameters_append hclose, splitParameters_blank_append hblank, h, ih]
      rfl

/-- **The parameters of every list are parameters side by side.**  By induction on the length of the
list: what stands in front of the first comma that divides it closes its brackets. -/
theorem areParameters_splitParameters (raw : List Char) : AreParameters (splitParameters raw) := by
  induction hlen : raw.length using Nat.strongRecOn generalizing raw with
  | ind n ih =>
    rcases whole_or_divided 0 raw with hwhole | ⟨u, v, rfl, hwhole, hclose⟩
    · rcases splitParameters_of_whole hwhole with hnone | ⟨p, -, hone, hself⟩
      · -- blanks alone are no parameter
        rw [hnone]
        exact .nil
      · -- one parameter
        rw [hone]
        exact .last hself
    · -- cut at the first comma outside brackets
      have hshort : v.length < n := by
        rw [List.length_append, List.length_cons] at hlen
        omega
      rw [splitParameters_append hclose]
      have hrest := ih v.length hshort v rfl
      rcases splitParameters_of_whole hwhole with hnone | ⟨p, htrim, hone, hself⟩
      · rw [hnone]
        exact hrest
      · rw [hone]
        refine .cons hself ?_ hrest
        rw [ClosesBrackets, htrim, foldl_bracketDepth_trim]
        exact hclose

end Commas

/-- **Splitting turns commas into appends, and what it gives is in normal form**: a list that closes
its brackets is split apart from what follows its comma; and the parameters of every list are
trimmed, not empty, and the parameters of the list they are joined to. -/
theorem splitParameters_appends_and_rejoins :
    (∀ a b : List Char, ClosesBrackets a →
        splitParameters (a ++ ',' :: b) = splitParameters a ++ splitParameters b)
      ∧ ∀ raw : List Char,
        (∀ p ∈ splitParameters raw, p.toList ≠ [] ∧ trim p.toList = p.toList)
          ∧ splitParameters (", ".intercalate (splitParameters raw)).toList
            = splitParameters raw := by
  refine ⟨fun a b hclose => splitParameters_append hclose b, fun raw => ⟨fun p hp => ?_, ?_⟩⟩
  · obtain ⟨hne, htrim, -⟩ := isInfix_of_mem_splitParameters hp
    exact ⟨hne, htrim⟩
  · exact (areParameters_splitParameters raw).splitParameters_eq

/-- A list with an arrow, a comma in brackets and an empty entry. -/
def closedList : List Char := " f = x => x , { a, b } ,, ".toList

/-- A list whose last bracket stays open. -/
def openList : List Char := "\t m: Map<K, V>,rest = [ p, q ".toList

/-- Two lists that are split side by side; the second one swallows its last comma, also when it is
joined again. -/
theorem splitParameters_closedList_openList :
    ClosesBrackets closedList
      ∧ splitParameters (closedList ++ ',' :: openList)
        = ["f = x => x", "\x7b a, b \x7d", "m: Map<K, V>", "rest = [ p, q"]
      ∧ splitParameters (", ".intercalate (splitParameters openList)).toList
        = ["m: Map<K, V>", "rest = [ p, q"] := by
  obtain ⟨happend, hnormal⟩ := splitParameters_appends_and_rejoins
  have hclose : ClosesBrackets closedList := by decide +kernel
  have hopen : splitParameters openList = ["m: Map<K, V>", "rest = [ p, q"] := by decide +kernel
  refine ⟨hclose, ?_, (hnormal openList).2.trans hopen⟩
  rw [happend _ _ hclose, hopen]
  decide +kernel

end Scaffold

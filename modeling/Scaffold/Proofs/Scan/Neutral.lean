/-
Scaffold/Proofs/Scan/Neutral.lean

Maps behind a neutral text.

White space, semicolons and closing braces open nothing: the pass goes over
them, at depth zero, and is where it began, for a closing brace without an open
one is absorbed.  What it meets behind them it meets further on by their length
(`marksFrom_shift`, `marksFrom_neutral`).

So the map of a text with a neutral text in front is that of the text moved
(`Moved`), but for braces that close nothing, and every question to it has the
moved answer.
-/
import Mathlib.Data.List.Basic
import Scaffold.Proofs.Scan.Nesting

namespace Scaffold

open Text Scan

/-! ### Moving -/

/-- A span further on. -/
def Span.shift (d : Nat) (s : Span) : Span := ⟨d + s.start, d + s.stop⟩

/-- A brace further on. -/
def Brace.shift (d : Nat) (b : Brace) : Brace := { b with offset := d + b.offset }

/-- A mark further on. -/
def Mark.shift (d : Nat) : Mark → Mark
  | .quiet s => .quiet (s.shift d)
  | .brace b => .brace (b.shift d)

/-- A text that begins further on has its marks further on. -/
theorem marksFrom_shift (d skip offset depth : Nat) (cs : List Char) :
    marksFrom skip (d + offset) depth cs = (marksFrom skip offset depth cs).map (Mark.shift d) := by
  induction cs generalizing skip offset depth with
  | nil => rfl
  | cons c cs ih =>
    have hrest : ∀ skip depth, marksFrom skip (d + offset + c.utf8Size) depth cs
        = (marksFrom skip (offset + c.utf8Size) depth cs).map (Mark.shift d) := by
      intro skip depth
      rw [Nat.add_assoc]
      exact ih skip (offset + c.utf8Size) depth
    rw [marksFrom, marksFrom]
    simp only [hrest]
    split_ifs
    · -- inside a span nothing is marked
      rfl
    · rcases quietLength (c :: cs) with - | n
      · rfl
      · simp [Mark.shift, Span.shift, Nat.add_assoc]
    · rcases quietLength (c :: cs) with - | n
      · rfl
      · simp [Mark.shift, Span.shift, Nat.add_assoc]
    · rcases quietLength (c :: cs) with - | n
      · rfl
      · simp [Mark.shift, Span.shift, Nat.add_assoc]

theorem spansOf_map_shift (d : Nat) (marks : List Mark) :
    spansOf (marks.map (Mark.shift d)) = (spansOf marks).map (Span.shift d) := by
  rw [spansOf, List.filterMap_map, List.map_filterMap]
  refine List.filterMap_congr fun m _ => ?_
  cases m <;> rfl

theorem bracesOf_map_shift (d : Nat) (marks : List Mark) :
    bracesOf (marks.map (Mark.shift d)) = (bracesOf marks).map (Brace.shift d) := by
  rw [bracesOf, List.filterMap_map, List.map_filterMap]
  refine List.filterMap_congr fun m _ => ?_
  cases m <;> rfl

/-! ### Neutral texts -/

/-- White space, a semicolon or a closing brace. -/
def isNeutral (c : Char) : Bool := isBlank c || c == ';' || c == '}'

/-- White space opens nothing. -/
theorem isPlain_of_isBlank {c : Char} (h : isBlank c = true) : isPlain c = true := by
  have hopening : ['/', '\'', '"', '`', '{', '}'].all (fun d => !isBlank d) = true := by decide
  by_contra hc
  rw [isPlain, Bool.not_eq_true', Bool.not_eq_false, List.contains_iff_mem] at hc
  have hblank := List.all_eq_true.mp hopening c hc
  rw [h] at hblank
  cases hblank

theorem isNeutral_cases {c : Char} (h : isNeutral c = true) :
    isPlain c = true ∨ c = '}' := by
  rw [isNeutral, Bool.or_eq_true, Bool.or_eq_true, beq_iff_eq, beq_iff_eq] at h
  rcases h with (h | rfl) | rfl
  · exact .inl (isPlain_of_isBlank h)
  · exact .inl (by decide)
  · exact .inr rfl

/-- The pass goes over a neutral text, and is at depth zero again. -/
theorem marksFrom_neutral {p : List Char} (hp : ∀ c ∈ p, isNeutral c = true) (offset : Nat)
    (rest : List Char) :
    ∃ closing : List Brace, marksFrom 0 offset 0 (p ++ rest)
        = closing.map .brace ++ marksFrom 0 (offset + byteLength p) 0 rest
      ∧ ∀ b ∈ closing, b.opens = false ∧ b.depth = 0 ∧ b.offset < offset + byteLength p := by
  induction p generalizing offset with
  | nil => exact ⟨[], rfl, by simp⟩
  | cons c p ih =>
    obtain ⟨hc, hp⟩ := List.forall_mem_cons.mp hp
    obtain ⟨closing, hmarks, hclosing⟩ := ih hp (offset + c.utf8Size)
    rw [Nat.add_assoc, ← byteLength_cons] at hmarks hclosing
    -- depth zero is kept: a plain character leaves no mark, and a brace has nothing to close
    rcases isNeutral_cases hc with hplain | rfl
    · refine ⟨closing, ?_, hclosing⟩
      rw [List.cons_append, marksFrom_plain hplain, hmarks]
    · refine ⟨⟨offset, false, 0⟩ :: closing, ?_, ?_⟩
      · rw [List.cons_append, marksFrom_close]
        exact congrArg (_ :: ·) hmarks
      · refine List.forall_mem_cons.mpr ⟨⟨rfl, rfl, ?_⟩, hclosing⟩
        exact Nat.lt_add_of_pos_right (byteLength_pos_of_ne_nil (List.cons_ne_nil _ _))

namespace CodeMap

/-- A map that is another one moved by `d` bytes, but for closing braces in front. -/
structure Moved (d : Nat) (map' map : CodeMap) : Prop where
  size_eq : map'.size = d + map.size
  quiet_eq : map'.quiet = map.quiet.map (Span.shift d)
  braces_eq : ∃ closing, map'.braces = closing ++ map.braces.map (Brace.shift d)
    ∧ ∀ b ∈ closing, b.opens = false ∧ b.depth = 0 ∧ b.offset < d

/-- **Behind a neutral text the map of a text is moved.** -/
theorem moved_ofText {p : List Char} (hp : ∀ c ∈ p, isNeutral c = true) (cs : List Char) :
    Moved (byteLength p) (ofText (p ++ cs)) (ofText cs) := by
  obtain ⟨closing, hmarks, hclosing⟩ := marksFrom_neutral hp 0 cs
  rw [Nat.zero_add] at hmarks hclosing
  have hshift := marksFrom_shift (byteLength p) 0 0 0 cs
  rw [Nat.add_zero] at hshift
  rw [hshift] at hmarks
  constructor
  case size_eq => exact byteLength_append p cs
  case quiet_eq =>
    have hnone : spansOf (closing.map .brace) = [] := by simp [spansOf, Mark.span?]
    show spansOf (marksFrom 0 0 0 (p ++ cs)) = _
    rw [hmarks, spansOf, List.filterMap_append]
    change spansOf _ ++ spansOf _ = _
    rw [hnone, spansOf_map_shift]
    rfl
  case braces_eq =>
    have hall : bracesOf (closing.map .brace) = closing := by
      rw [bracesOf, List.filterMap_map]
      exact List.filterMap_some
    refine ⟨closing, ?_, hclosing⟩
    show bracesOf (marksFrom 0 0 0 (p ++ cs)) = _
    rw [hmarks, bracesOf, List.filterMap_append]
    change bracesOf _ ++ bracesOf _ = _
    rw [hall, bracesOf_map_shift]
    rfl

variable {d : Nat} {map' map : CodeMap}

namespace Moved

variable (h : Moved d map' map)

include h

theorem isCode_eq (n : Nat) : map'.isCode (d + n) = map.isCode n := by
  rw [isCode, isCode, h.quiet_eq, List.any_map]
  simp [Function.comp_def, Span.contains, Span.shift]

/-- The braces in front of an offset are those moved, behind the closing ones. -/
theorem takeWhile_braces (n : Nat) :
    ∃ closing, map'.braces.takeWhile (fun b => decide (b.offset < d + n))
        = closing ++ (map.braces.takeWhile (fun b => decide (b.offset < n))).map (Brace.shift d)
      ∧ ∀ b ∈ closing, b.depth = 0 := by
  obtain ⟨closing, hbraces, hclosing⟩ := h.braces_eq
  -- all of the closing ones are in front of `d`
  refine ⟨closing, ?_, fun b hb => (hclosing b hb).2.1⟩
  rw [hbraces, List.takeWhile_append_of_pos, List.takeWhile_map]
  · simp [Function.comp_def, Brace.shift]
  · intro b hb
    exact decide_eq_true (Nat.lt_add_right n (hclosing b hb).2.2)

theorem depthAt_eq (n : Nat) : map'.depthAt (d + n) = map.depthAt n := by
  obtain ⟨closing, hbraces, hclosing⟩ := h.takeWhile_braces n
  rw [depthAt, depthAt, hbraces, List.getLast?_append, List.getLast?_map]
  generalize (map.braces.takeWhile (fun b => decide (b.offset < n))).getLast? = last
  cases last with
  | some b => rfl
  | none =>
    -- only closing braces in front
    rcases hlast : closing.getLast? with - | b
    · rfl
    · exact hclosing b (List.mem_of_getLast? hlast)

theorem isTopLevel_eq (n : Nat) : map'.isTopLevel (d + n) = map.isTopLevel n := by
  rw [isTopLevel, isTopLevel, h.isCode_eq, h.depthAt_eq]

/-- The braces from an offset on are those moved. -/
theorem dropWhile_braces (n : Nat) :
    map'.braces.dropWhile (fun b => decide (b.offset < d + n))
      = (map.braces.dropWhile (fun b => decide (b.offset < n))).map (Brace.shift d) := by
  obtain ⟨closing, hbraces, hclosing⟩ := h.braces_eq
  rw [hbraces, List.dropWhile_append_of_pos, List.dropWhile_map]
  · simp [Function.comp_def, Brace.shift]
  · intro b hb
    exact decide_eq_true (Nat.lt_add_right n (hclosing b hb).2.2)

theorem blockFrom_eq (n : Nat) : map'.blockFrom (d + n) = (map.blockFrom n).map (Span.shift d) := by
  have hopens : (fun b : Brace => !b.opens) ∘ Brace.shift d = fun b => !b.opens := rfl
  rw [blockFrom, blockFrom, h.dropWhile_braces, List.dropWhile_map, hopens, h.size_eq]
  generalize (map.braces.dropWhile (fun b => decide (b.offset < n))).dropWhile (fun b => !b.opens)
    = later
  cases later with
  | nil => rfl
  | cons opening rest =>
    have hcloser : (rest.map (Brace.shift d)).find?
          (fun b => !b.opens && b.depth == (opening.shift d).depth - 1)
        = (rest.find? (fun b => !b.opens && b.depth == opening.depth - 1)).map (Brace.shift d) :=
      List.find?_map
    have hstop : ∀ closer : Option Brace,
        ((closer.map (Brace.shift d)).map (·.offset)).getD (d + map.size)
          = d + (closer.map (·.offset)).getD map.size := by
      rintro (- | closer) <;> rfl
    simp only [List.map_cons, hcloser, hstop]
    rfl

end Moved

end CodeMap

end Scaffold

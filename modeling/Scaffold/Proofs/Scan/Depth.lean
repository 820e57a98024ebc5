/-
Scaffold/Proofs/Scan/Depth.lean

The depth of braces in a text without comments and strings.

In such a text all is code, and every brace counts.  The depth behind a piece
of it can be counted on the piece alone (`braceDepth?`), as long as no brace
closes more than is open, and that is the depth a map answers
(`depthAt_of_braceDepth?`).
-/
import Scaffold.Proofs.Scan.Nesting

namespace Scaffold

open Text

namespace Scan

/-! ### Counting -/

/-- The depth behind a character; nothing where a brace closes more than is open. -/
def braceStep? (depth : Nat) (c : Char) : Option Nat :=
  if c = '{' then some (depth + 1)
  else if c = '}' then if depth = 0 then none else some (depth - 1)
  else some depth

/-- The depth behind a text, `depth` being that in front. -/
def braceDepth? (depth : Nat) (cs : List Char) : Option Nat := cs.foldlM braceStep? depth

/-- The braces of a text are paired. -/
def PairsBraces (cs : List Char) : Prop := braceDepth? 0 cs = some 0

instance (cs : List Char) : Decidable (PairsBraces cs) :=
  inferInstanceAs (Decidable (braceDepth? 0 cs = some 0))

@[simp] theorem braceDepth?_nil (depth : Nat) : braceDepth? depth [] = some depth := rfl

theorem braceDepth?_cons (depth : Nat) (c : Char) (cs : List Char) :
    braceDepth? depth (c :: cs) = (braceStep? depth c).bind fun d => braceDepth? d cs := rfl

theorem braceDepth?_append (depth : Nat) (u v : List Char) :
    braceDepth? depth (u ++ v) = (braceDepth? depth u).bind fun d => braceDepth? d v :=
  List.foldlM_append

theorem braceDepth?_append_of_eq {depth d : Nat} {u : List Char} (h : braceDepth? depth u = some d)
    (v : List Char) : braceDepth? depth (u ++ v) = braceDepth? d v := by
  rw [braceDepth?_append, h, Option.bind_some]

/-- The beginning of a text that is counted is counted too. -/
theorem exists_braceDepth?_of_append {depth d : Nat} {u v : List Char}
    (h : braceDepth? depth (u ++ v) = some d) : ∃ e, braceDepth? depth u = some e := by
  rw [braceDepth?_append] at h
  obtain ⟨e, he, -⟩ := Option.bind_eq_some_iff.mp h
  exact ⟨e, he⟩

/-- What is open in front of a text stays open behind it. -/
theorem braceDepth?_add {depth d : Nat} {cs : List Char} (h : braceDepth? depth cs = some d)
    (k : Nat) : braceDepth? (depth + k) cs = some (d + k) := by
  induction cs generalizing depth with
  | nil => rw [braceDepth?_nil, Option.some.inj h]
  | cons c cs ih =>
    rw [braceDepth?_cons] at h ⊢
    obtain ⟨e, hstep, hrest⟩ := Option.bind_eq_some_iff.mp h
    have hstep' : braceStep? (depth + k) c = some (e + k) := by
      rw [braceStep?] at hstep ⊢
      split_ifs at hstep ⊢ with _ _ hzero
      all_goals first
        | omega
        | cases hstep; exact congrArg some (by omega)
    rw [hstep', Option.bind_some]
    exact ih hrest

theorem PairsBraces.braceDepth?_eq {cs : List Char} (h : PairsBraces cs) (depth : Nat) :
    braceDepth? depth cs = some depth := by
  have hadd := braceDepth?_add h depth
  rwa [Nat.zero_add] at hadd

theorem PairsBraces.append {u v : List Char} (hu : PairsBraces u) (hv : PairsBraces v) :
    PairsBraces (u ++ v) := (braceDepth?_append_of_eq hu v).trans hv

/-- What is left of a text whose braces are paired, when such a text in front is taken away. -/
theorem PairsBraces.of_append {u v : List Char} (h : PairsBraces (u ++ v)) (hu : PairsBraces u) :
    PairsBraces v := (braceDepth?_append_of_eq hu v).symm.trans h

theorem PairsBraces.of_forall {cs : List Char} (h : ∀ c ∈ cs, c ≠ '{' ∧ c ≠ '}') :
    PairsBraces cs := by
  induction cs with
  | nil => rfl
  | cons c cs ih =>
    obtain ⟨hc, hcs⟩ := List.forall_mem_cons.mp h
    rw [PairsBraces, braceDepth?_cons, braceStep?, if_neg hc.1, if_neg hc.2]
    exact ih hcs

theorem PairsBraces.block {cs : List Char} (h : PairsBraces cs) :
    PairsBraces ('{' :: (cs ++ ['}'])) :=
  braceDepth?_append_of_eq (h.braceDepth?_eq 1) ['}']

/-- Inside a text whose braces are paired no less is open than in front of it. -/
theorem PairsBraces.le_of_append {u v : List Char} (h : PairsBraces (u ++ v)) (depth : Nat) :
    ∃ d, braceDepth? depth u = some d ∧ depth ≤ d := by
  obtain ⟨e, he⟩ := exists_braceDepth?_of_append h
  have hadd := braceDepth?_add he depth
  rw [Nat.zero_add] at hadd
  exact ⟨e + depth, hadd, Nat.le_add_left _ _⟩

/-! ### What a map answers -/

/-- The braces of a text without comments and strings leave the depth that is counted. -/
theorem depthAmong_of_braceDepth? {offset depth d : Nat} {u v : List Char}
    (hquiet : spansOf (marksFrom 0 offset depth (u ++ v)) = [])
    (h : braceDepth? depth u = some d) :
    depthAmong depth (bracesOf (marksFrom 0 offset depth (u ++ v))) (offset + byteLength u)
      = d := by
  induction u generalizing offset depth with
  | nil =>
    rw [byteLength_nil, Nat.add_zero, depthAmong_of_le le_offset_of_mem_braces]
    exact Option.some.inj h
  | cons c u ih =>
    rw [braceDepth?_cons] at h
    obtain ⟨e, hstep, hrest⟩ := Option.bind_eq_some_iff.mp h
    have hlt : offset < offset + (c.utf8Size + byteLength u) :=
      Nat.lt_add_of_pos_right (Nat.add_pos_left c.utf8Size_pos _)
    rw [byteLength_cons, List.cons_append]
    rw [List.cons_append] at hquiet
    rw [braceStep?] at hstep
    split_ifs at hstep with hopen hclose hzero
    · -- a brace opens
      subst hopen
      obtain rfl := Option.some.inj hstep
      have hdepth := @ih (offset + 1) (depth + 1) hquiet hrest
      rw [marksFrom_open]
      show depthAmong depth (⟨offset, true, depth + 1⟩ :: bracesOf _) _ = d
      rw [depthAmong_cons, if_pos hlt, ← hdepth, Nat.add_assoc]
      rfl
    · -- a brace closes
      subst hclose
      obtain rfl := Option.some.inj hstep
      have hdepth := @ih (offset + 1) (depth - 1) hquiet hrest
      rw [marksFrom_close]
      show depthAmong depth (⟨offset, false, depth - 1⟩ :: bracesOf _) _ = d
      rw [depthAmong_cons, if_pos hlt, ← hdepth, Nat.add_assoc]
      rfl
    · obtain rfl := Option.some.inj hstep
      have hnext : marksFrom 0 offset depth (c :: (u ++ v))
          = marksFrom 0 (offset + c.utf8Size) depth (u ++ v) := by
        rw [marksFrom, if_neg (Nat.lt_irrefl 0)] at hquiet ⊢
        cases hlength : quietLength (c :: (u ++ v)) with
        | some n =>
          rw [hlength] at hquiet
          cases hquiet
        | none => exact (if_neg hopen).trans (if_neg hclose)
      rw [hnext] at hquiet ⊢
      rw [← Nat.add_assoc]
      exact ih hquiet hrest

/-- **In a text without comments and strings the depth is that of the braces in front.** -/
theorem depthAt_of_braceDepth? {d : Nat} {u v : List Char}
    (hquiet : (CodeMap.ofText (u ++ v)).quiet = []) (h : braceDepth? 0 u = some d) :
    (CodeMap.ofText (u ++ v)).depthAt (byteLength u) = d := by
  have hdepth := depthAmong_of_braceDepth? hquiet h
  rwa [Nat.zero_add] at hdepth

theorem isTopLevel_iff_of_braceDepth? {d : Nat} {u v : List Char}
    (hquiet : (CodeMap.ofText (u ++ v)).quiet = []) (h : braceDepth? 0 u = some d) :
    (CodeMap.ofText (u ++ v)).isTopLevel (byteLength u) = true ↔ d = 0 := by
  rw [CodeMap.isTopLevel, depthAt_of_braceDepth? hquiet h, CodeMap.isCode, hquiet]
  exact beq_iff_eq

end Scan

end Scaffold

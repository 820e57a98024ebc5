/-
Scaffold/Proofs/Scan/Seam.lean

Maps of a text and of what stands behind it.

A comment or string is measured from where it opens, as far as it goes, so the
map of a text can change everywhere when something is written behind it.  It
does not where the text ends with a newline in code: behind such a newline the
automaton is in code, whatever comes next (`run_newline`), and so it was at the
end of the text alone.  In front of the seam both texts together are then read
as the first one alone, and behind it as the second one alone, but for the
depth, which is counted on from that of the first (`ofText_append_newline`).

The count is told brace by brace (`countBefore`): the braces of a text that
stand in code are those of the automaton (`countBefore_eq`).
-/
import Scaffold.Proofs.Scan.Block

namespace Scaffold

open Text

namespace Scan

/-! ### Counting the braces in code -/

/-- The count behind a byte at an offset: an opening brace in code adds one, and a closing one takes
one away where there is one. -/
def countByte (map : CodeMap) (offset depth : Nat) : ByteClass → Nat
  | .openBrace => if map.isCode offset then depth + 1 else depth
  | .closeBrace => if map.isCode offset then depth - 1 else depth
  | _ => depth

/-- The count of the braces in code before an offset, `depth` being the count in front of the
text. -/
def countBefore (source : String) (depth : Nat) : Nat → Nat
  | 0 => depth
  | n + 1 =>
    match (classesOf source)[n]? with
    | some b => countByte (CodeMap.ofText source.toList) n (countBefore source depth n) b
    | none => countBefore source depth n

/-- The automaton counts a byte in the mode it is read in. -/
theorem depthBefore_succ (m : Mode) (d : Nat) (bs : List ByteClass) (n : Nat) :
    depthBefore m d bs (n + 1)
      = match bs[n]? with
        | some b => (modeAt m bs n).count (depthBefore m d bs n) b
        | none => depthBefore m d bs n := by
  induction bs generalizing m d n with
  | nil => simp
  | cons b bs ih =>
    cases n with
    | zero => simp [depthBefore, modeAt]
    | succ n =>
      rw [depthBefore, ih]
      rfl

/-- No comment or string opens at a brace. -/
theorem opensAt_brace {bs : List ByteClass} {n : Nat} {b : ByteClass} (h : bs[n]? = some b)
    (hb : b = .openBrace ∨ b = .closeBrace) : opensAt bs n = false := by
  induction bs generalizing n with
  | nil => rfl
  | cons x bs ih =>
    cases n with
    | succ n => exact ih h
    | zero =>
      obtain rfl : x = b := Option.some.inj h
      rcases hb with rfl | rfl <;> rfl

/-- A byte counts in the map as it does for the automaton. -/
theorem countByte_eq {cs : List Char} {n : Nat} {b : ByteClass}
    (h : (textClasses cs)[n]? = some b) (depth : Nat) :
    countByte (CodeMap.ofText cs) n depth b
      = (modeAt .code (textClasses cs) n).count depth b := by
  have hcode : b = .openBrace ∨ b = .closeBrace →
      ((CodeMap.ofText cs).isCode n = true ↔ modeAt .code (textClasses cs) n = .code) := by
    intro hb
    rw [isCode_iff, opensAt_brace h hb]
    exact and_iff_left rfl
  by_cases hmode : modeAt .code (textClasses cs) n = .code
  · rw [hmode]
    cases b with
    | openBrace => exact if_pos ((hcode (.inl rfl)).mpr hmode)
    | closeBrace => exact if_pos ((hcode (.inr rfl)).mpr hmode)
    | _ => rfl
  · -- outside code no brace counts
    have hcount : (modeAt .code (textClasses cs) n).count depth b = depth := by
      rcases hm : modeAt .code (textClasses cs) n <;> first | exact absurd hm hmode | rfl
    rw [hcount]
    cases b with
    | openBrace => exact if_neg (mt (hcode (.inl rfl)).mp hmode)
    | closeBrace => exact if_neg (mt (hcode (.inr rfl)).mp hmode)
    | _ => rfl

/-- **The braces in code are counted as the automaton counts.** -/
theorem countBefore_eq (source : String) (depth n : Nat) :
    countBefore source depth n = depthBefore .code depth (textClasses source.toList) n := by
  induction n with
  | zero => rw [countBefore, depthBefore_zero]
  | succ n ih =>
    rw [countBefore, depthBefore_succ, classesOf_eq, ih]
    rcases hbyte : (textClasses source.toList)[n]? with - | b
    · rfl
    · exact countByte_eq hbyte _

/-! ### Behind a newline in code -/

/-- **Behind a newline in code the automaton is in code**, whatever comes next. -/
theorem run_newline {bs : List ByteClass}
    (h : modeAt .code (bs ++ [.newline]) bs.length = .code) (next : Option ByteClass) :
    run .code (bs ++ [.newline]) next = .code := by
  have hfront : run .code bs (some .newline) = .code := by
    rw [← Nat.add_zero bs.length, modeAt_append] at h
    exact h
  rw [run_append]
  show run (run .code bs (some .newline)) [.newline] next = .code
  rw [hfront]
  exact Mode.before_code next

/-- What is written behind a newline opens nothing at it or in front of it. -/
theorem opensAt_append_newline {bs ys : List ByteClass} {n : Nat} (h : n < bs.length + 1) :
    opensAt (bs ++ .newline :: ys) n = opensAt (bs ++ [.newline]) n := by
  rcases Nat.lt_succ_iff_lt_or_eq.mp h with hn | rfl
  · have hfront : ∀ ys, opensAt (bs ++ .newline :: ys) n = opensAt bs n := fun ys =>
      opensAt_append_left hn (by rintro b ⟨⟩; decide)
    rw [hfront, hfront]
  · exact (opensAt_append bs (.newline :: ys) 0).trans (opensAt_append bs [.newline] 0).symm

section Seam

variable {front back : List Char}

/-- The bytes of a text that ends with a newline. -/
theorem textClasses_newline (front : List Char) :
    textClasses (front ++ ['\n']) = textClasses front ++ [.newline] := by
  rw [textClasses_append]
  rfl

theorem length_newline (front : List Char) :
    byteLength (front ++ ['\n']) = (textClasses front).length + 1 := by
  rw [byteLength_append, length_textClasses]
  rfl

/-- In front of the seam both texts are read as the first one alone. -/
theorem isCode_before_seam {n : Nat} (hn : n < byteLength (front ++ ['\n'])) :
    (CodeMap.ofText (front ++ ['\n'] ++ back)).isCode n
      = (CodeMap.ofText (front ++ ['\n'])).isCode n := by
  rw [length_newline] at hn
  have hlen : n < (textClasses front ++ [ByteClass.newline]).length := by
    rw [List.length_append]
    exact hn
  have hmode := modeAt_append_left .code _ (textClasses back) [] n hlen
  rw [List.append_nil] at hmode
  have hopens := @opensAt_append_newline _ (textClasses back) _ hn
  rw [List.append_cons] at hopens
  rw [Bool.eq_iff_iff, isCode_iff, isCode_iff, textClasses_append, textClasses_newline, hopens,
    hmode]

theorem depthAt_before_seam {n : Nat} (hn : n ≤ byteLength front) :
    (CodeMap.ofText (front ++ back)).depthAt n = (CodeMap.ofText front).depthAt n := by
  have hdepth := depthBefore_append_left .code 0 (textClasses front) (textClasses back) [] n
    (by rwa [length_textClasses])
  rw [List.append_nil] at hdepth
  rw [depthAt_eq, depthAt_eq, textClasses_append, hdepth]

/-- Where the first text ends with a newline in code, the automaton is in code at the seam. -/
theorem run_seam (hcode : (CodeMap.ofText (front ++ ['\n'])).isCode (byteLength front) = true)
    (next : Option ByteClass) : run .code (textClasses (front ++ ['\n'])) next = .code := by
  have hmode := ((isCode_iff _ _).mp hcode).1
  rw [textClasses_newline, ← length_textClasses] at hmode
  rw [textClasses_newline]
  exact run_newline hmode next

/-- Behind the seam both texts are read as the second one alone. -/
theorem isCode_behind_seam
    (hcode : (CodeMap.ofText (front ++ ['\n'])).isCode (byteLength front) = true) (n : Nat) :
    (CodeMap.ofText (front ++ ['\n'] ++ back)).isCode (byteLength (front ++ ['\n']) + n)
      = (CodeMap.ofText back).isCode n := by
  rw [Bool.eq_iff_iff, isCode_iff, isCode_iff, textClasses_append, ← length_textClasses,
    modeAt_append, run_seam hcode, opensAt_append]

theorem depthAt_behind_seam
    (hcode : (CodeMap.ofText (front ++ ['\n'])).isCode (byteLength front) = true) (n : Nat) :
    (CodeMap.ofText (front ++ ['\n'] ++ back)).depthAt (byteLength (front ++ ['\n']) + n)
      = depthBefore .code
          ((CodeMap.ofText (front ++ ['\n'])).depthAt (byteLength (front ++ ['\n'])))
          (textClasses back) n := by
  have hseam := @depthAt_before_seam _ back _ (Nat.le_refl (byteLength (front ++ ['\n'])))
  rw [← hseam, depthAt_eq, depthAt_eq, textClasses_append, ← length_textClasses,
    depthBefore_append, run_seam hcode]

end Seam

/-- **Scanning composes at a newline in code.**  Where a text ends with a newline that stands in
code, the map of it and a second text behind it answers, in front of the seam, as the map of the
first text and, behind it, as that of the second one; the depth there is counted on, from the depth
at the end of the first text, by the braces of the second one in code. -/
theorem ofText_append_newline (s t : String) (hend : s.toList.getLast? = some '\n')
    (hcode : (CodeMap.ofText s.toList).isCode (byteLength s.toList - 1) = true) :
    (∀ n < byteLength s.toList,
        (CodeMap.ofText (s ++ t).toList).isCode n = (CodeMap.ofText s.toList).isCode n
          ∧ (CodeMap.ofText (s ++ t).toList).depthAt n = (CodeMap.ofText s.toList).depthAt n)
      ∧ ∀ k, (CodeMap.ofText (s ++ t).toList).isCode (byteLength s.toList + k)
            = (CodeMap.ofText t.toList).isCode k
          ∧ (CodeMap.ofText (s ++ t).toList).depthAt (byteLength s.toList + k)
            = countBefore t ((CodeMap.ofText s.toList).depthAt (byteLength s.toList)) k := by
  obtain ⟨front, hfront⟩ := List.getLast?_eq_some_iff.mp hend
  rw [String.toList_append]
  rw [hfront, byteLength_append, byteLength_cons, byteLength_nil] at hcode
  have hcode' : (CodeMap.ofText (front ++ ['\n'])).isCode (byteLength front) = true := hcode
  refine ⟨fun n hn => ?_, fun k => ?_⟩
  · -- in front of the seam
    rw [hfront] at hn ⊢
    exact ⟨isCode_before_seam hn, depthAt_before_seam (Nat.le_of_lt hn)⟩
  · -- behind it
    rw [countBefore_eq, hfront]
    exact ⟨isCode_behind_seam hcode' k, depthAt_behind_seam hcode' k⟩

/-- A text with an unclosed string and an unclosed brace, and one that closes more than that. -/
theorem ofText_append_newline_unclosed :
    "a \x7b 'b\n".toList.getLast? = some '\n'
      ∧ (CodeMap.ofText "a \x7b 'b\n".toList).isCode (byteLength "a \x7b 'b\n".toList - 1) = true
      ∧ (CodeMap.ofText ("a \x7b 'b\n" ++ "' \x7d\n\x7d \x7d \x7b c").toList).isCode 8 = false
      ∧ (CodeMap.ofText ("a \x7b 'b\n" ++ "' \x7d\n\x7d \x7d \x7b c").toList).depthAt (7 + 9)
        = 1 := by
  have hend : "a \x7b 'b\n".toList.getLast? = some '\n' := by decide
  have hcode : (CodeMap.ofText "a \x7b 'b\n".toList).isCode
      (byteLength "a \x7b 'b\n".toList - 1) = true := by decide +kernel
  obtain ⟨-, hbehind⟩ := ofText_append_newline "a \x7b 'b\n" "' \x7d\n\x7d \x7d \x7b c" hend hcode
  refine ⟨hend, hcode, (hbehind 1).1.trans ?_, (hbehind 9).2.trans ?_⟩
  · decide +kernel
  · decide +kernel

end Scan

end Scaffold

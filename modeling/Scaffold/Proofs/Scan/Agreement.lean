/-
Scaffold/Proofs/Scan/Agreement.lean

The map of a source text and the automaton agree.

The map is two lists, the spans of comments and strings and the braces in
code, and its answers are searches in them.  The automaton has no lists: it is
in a mode at every byte.  Here the two are compared at every offset:

* the spans are non-empty, in ascending order, apart from each other, and
  inside the text (`spans_range`, `spans_pairwise`), and so are the braces;
* an offset is code in the map exactly when the automaton is in code there and
  nothing opens (`not_in_spans_iff`);
* the depth at an offset is the automaton's brace count (`depthAmong_eq`).

Each statement is about the rest of a text from the middle of a scan, and is
an induction over that rest by `marksFrom_cons`.
-/
import Scaffold.Proofs.Scan.Characters

namespace Scaffold

open Text

namespace Scan

/-- The spans of comments and strings among the marks of a pass. -/
abbrev spansOf (marks : List Mark) : List Span := marks.filterMap Mark.span?

/-- The braces among the marks of a pass. -/
abbrev bracesOf (marks : List Mark) : List Brace := marks.filterMap Mark.brace?

/-- The marks of the rest of a text, the automaton being in a mode. -/
abbrev marksIn (m : Mode) (offset depth : Nat) (cs : List Char) : List Mark :=
  marksFrom (m.remaining cs) offset depth cs

/-! ### The marks at one character -/

section MarksAt

variable {m : Mode} {offset depth : Nat} {c : Char} {cs : List Char}

theorem spansOf_marksAt :
    spansOf (marksAt m offset depth c cs)
      = if m = .code ∧ (opening? (.ofChar c) (nextClass cs)).isSome then
          [⟨offset, offset + (c.utf8Size + (m.step (.ofChar c) (nextClass cs)).remaining cs)⟩]
        else [] := by
  unfold marksAt
  split_ifs with hm ho h1 h2 <;> simp_all [Mark.span?]

theorem bracesOf_marksAt :
    bracesOf (marksAt m offset depth c cs)
      = if m = .code ∧ c = '{' then [⟨offset, true, depth + 1⟩]
        else if m = .code ∧ c = '}' then [⟨offset, false, depth - 1⟩]
        else [] := by
  unfold marksAt
  have h1 : c = '{' → (opening? (.ofChar c) (nextClass cs)).isSome = false := by rintro rfl; rfl
  have h2 : c = '}' → (opening? (.ofChar c) (nextClass cs)).isSome = false := by rintro rfl; rfl
  split_ifs <;> simp_all [Mark.brace?]

end MarksAt

/-! ### Where the marks lie -/

theorem spans_range {m : Mode} {offset depth : Nat} {cs : List Char}
    (hfit : ∀ b ∈ nextClass cs, m.Fits b) :
    ∀ s ∈ spansOf (marksIn m offset depth cs),
      offset + m.remaining cs ≤ s.start ∧ s.start < s.stop ∧ s.stop ≤ offset + byteLength cs := by
  induction cs generalizing m offset depth with
  | nil => simp [marksFrom]
  | cons c cs ih =>
    have hpos := c.utf8Size_pos
    have hfit' := fits_step m (.ofChar c) (nextClass cs)
    have hle := remaining_le hfit'
    intro s hs
    rw [marksIn, marksFrom_cons offset depth (hfit _ rfl), spansOf, List.filterMap_append,
      List.mem_append] at hs
    rw [byteLength_cons]
    rcases hs with hs | hs
    · -- the region that opens here
      rw [← spansOf, spansOf_marksAt] at hs
      split_ifs at hs with h
      · obtain rfl := List.mem_singleton.mp hs
        rw [h.1] at hle ⊢
        rw [remaining_code]
        refine ⟨by simp, ?_, ?_⟩ <;> simp only <;> omega
      · simp at hs
    · obtain ⟨h1, h2, h3⟩ := ih hfit' s hs
      refine ⟨?_, h2, by omega⟩
      by_cases hm : m = .code
      · rw [hm, remaining_code]
        omega
      · rw [remaining_cons cs hm (hfit _ rfl)]
        omega

theorem spans_pairwise {m : Mode} {offset depth : Nat} {cs : List Char}
    (hfit : ∀ b ∈ nextClass cs, m.Fits b) :
    (spansOf (marksIn m offset depth cs)).Pairwise (fun s t => s.stop ≤ t.start) := by
  induction cs generalizing m offset depth with
  | nil => simp [marksFrom]
  | cons c cs ih =>
    have hfit' := fits_step m (.ofChar c) (nextClass cs)
    rw [marksIn, marksFrom_cons offset depth (hfit _ rfl), spansOf, List.filterMap_append,
      ← spansOf, spansOf_marksAt]
    split_ifs with h
    · refine List.pairwise_cons.mpr ⟨fun t ht => ?_, ih hfit'⟩
      have := (spans_range hfit' t ht).1
      show offset + _ ≤ t.start
      omega
    · exact ih hfit'

theorem braces_range {m : Mode} {offset depth : Nat} {cs : List Char}
    (hfit : ∀ b ∈ nextClass cs, m.Fits b) :
    ∀ b ∈ bracesOf (marksIn m offset depth cs),
      offset ≤ b.offset ∧ b.offset < offset + byteLength cs := by
  induction cs generalizing m offset depth with
  | nil => simp [marksFrom]
  | cons c cs ih =>
    have hpos := c.utf8Size_pos
    intro b hb
    rw [marksIn, marksFrom_cons offset depth (hfit _ rfl), bracesOf, List.filterMap_append,
      List.mem_append] at hb
    rw [byteLength_cons]
    rcases hb with hb | hb
    · -- a brace of this character
      rw [← bracesOf, bracesOf_marksAt] at hb
      split_ifs at hb <;> simp at hb <;> subst hb <;> simp only <;> omega
    · -- a later one
      have := ih (fits_step m _ _) b hb
      omega

theorem braces_pairwise {m : Mode} {offset depth : Nat} {cs : List Char}
    (hfit : ∀ b ∈ nextClass cs, m.Fits b) :
    (bracesOf (marksIn m offset depth cs)).Pairwise (fun a b => a.offset < b.offset) := by
  induction cs generalizing m offset depth with
  | nil => simp [marksFrom]
  | cons c cs ih =>
    have hpos := c.utf8Size_pos
    have hfit' := fits_step m (.ofChar c) (nextClass cs)
    have hlater : ∀ b ∈ bracesOf (marksIn (m.step (.ofChar c) (nextClass cs)) (offset + c.utf8Size)
        (m.count depth (.ofChar c)) cs), offset < b.offset := by
      intro b hb
      have := (braces_range hfit' b hb).1
      omega
    rw [marksIn, marksFrom_cons offset depth (hfit _ rfl), bracesOf, List.filterMap_append,
      ← bracesOf, bracesOf_marksAt]
    split_ifs
    · exact List.pairwise_cons.mpr ⟨hlater, ih hfit'⟩
    · exact List.pairwise_cons.mpr ⟨hlater, ih hfit'⟩
    · exact ih hfit'

/-! ### Inside one character -/

theorem step_other_eq_code_iff {m : Mode} (hfit : m.Fits .other) :
    m.step .other (some .other) = .code ↔ m = .code := by
  have hstep : m.step .other (some .other) = m.read .other (some .other) := by
    simp [Mode.step, Mode.before]
  rw [hstep]
  cases m <;> simp_all [Mode.read, opening?, Mode.Fits]

theorem modeAt_replicate_other {m : Mode} (n k : Nat) (bs : List ByteClass)
    (hfit : m.Fits .other) (h : n < k) :
    modeAt m (List.replicate k .other ++ bs) n = .code ↔ m = .code := by
  induction n generalizing m k with
  | zero =>
    obtain ⟨k, rfl⟩ := Nat.exists_eq_succ_of_ne_zero (Nat.ne_of_gt h)
    rfl
  | succ n ih =>
    obtain ⟨k, rfl⟩ := Nat.exists_eq_add_of_lt h
    have hcons : List.replicate (n + 1 + k + 1) ByteClass.other ++ bs
        = .other :: .other :: (List.replicate (n + k) .other ++ bs) := by
      rw [show n + 1 + k + 1 = n + k + 1 + 1 by omega]
      rfl
    rw [hcons, modeAt, ← step_other_eq_code_iff hfit]
    exact ih (n + k + 1) (m.step_fits _ _) (by omega)

theorem opensAt_replicate_other (n k : Nat) (bs : List ByteClass) (h : n < k) :
    opensAt (List.replicate k .other ++ bs) n = false := by
  induction n generalizing k with
  | zero =>
    obtain ⟨k, rfl⟩ := Nat.exists_eq_succ_of_ne_zero (Nat.ne_of_gt h)
    rfl
  | succ n ih =>
    obtain ⟨k, rfl⟩ := Nat.exists_eq_succ_of_ne_zero (Nat.ne_of_gt (Nat.zero_lt_of_lt h))
    exact ih k (by omega)

/-- All bytes of a character are code, or none. -/
theorem code_in_char_iff {m : Mode} {c : Char} {n : Nat} (bs : List ByteClass)
    (hfit : m.Fits (.ofChar c)) (h : n < c.utf8Size) :
    (modeAt m (charClasses c ++ bs) n = .code ∧ opensAt (charClasses c ++ bs) n = false)
      ↔ m = .code ∧ (opening? (.ofChar c) bs.head?).isSome = false := by
  rcases charClasses_cases c with ⟨hc, hs⟩ | ⟨k, hc, ho, hs⟩
  · obtain rfl : n = 0 := by omega
    rw [hc]
    rfl
  · rw [ho] at hfit ⊢
    rw [hc, modeAt_replicate_other n _ bs hfit (by omega),
      opensAt_replicate_other n _ bs (by omega)]
    simp [opening?]

/-! ### The answers agree -/

theorem step_of_not_opening {b : ByteClass} {next : Option ByteClass}
    (h : (opening? b next).isSome = false) : Mode.step .code b next = .code := by
  rw [Option.isSome_eq_false_iff, Option.isNone_iff_eq_none] at h
  rw [Mode.step, Mode.read, h]
  exact Mode.before_code _

/-- **Code in the map is code for the automaton.**  In the middle of a region, offsets before its
end are never code. -/
theorem not_in_spans_iff {m : Mode} (offset depth : Nat) {cs : List Char}
    (hfit : ∀ b ∈ nextClass cs, m.Fits b) (n : Nat) :
    (m.remaining cs ≤ n
        ∧ ∀ s ∈ spansOf (marksIn m offset depth cs), s.contains (offset + n) = false)
      ↔ modeAt m (textClasses cs) n = .code ∧ opensAt (textClasses cs) n = false := by
  induction cs generalizing m offset depth n with
  | nil => simp [marksFrom, remaining_nil]
  | cons c cs ih =>
    have hpos := c.utf8Size_pos
    have hfitc : m.Fits (.ofChar c) := hfit _ rfl
    have hfit' := fits_step m (.ofChar c) (nextClass cs)
    rw [marksIn, marksFrom_cons offset depth hfitc, spansOf, List.filterMap_append, ← spansOf,
      spansOf_marksAt, List.forall_mem_append, textClasses_cons]
    rcases Nat.lt_or_ge n c.utf8Size with hn | hn
    · -- inside `c`: what comes later lies behind it
      have hlater : ∀ s ∈ spansOf (marksIn (m.step (.ofChar c) (nextClass cs))
          (offset + c.utf8Size) (m.count depth (.ofChar c)) cs), s.contains (offset + n) = false := by
        intro s hs
        have := (spans_range hfit' s hs).1
        simp only [Span.contains, Bool.and_eq_false_iff, decide_eq_false_iff_not]
        left
        omega
      rw [code_in_char_iff _ hfitc hn, head?_textClasses]
      by_cases hm : m = .code
      · subst hm
        by_cases ho : (opening? (.ofChar c) (nextClass cs)).isSome
        · simp [ho, Span.contains]
          omega
        · simpa [ho] using hlater
      · have hrem := remaining_cons cs hm hfitc
        simp only [hm, false_and, iff_false, not_and]
        intro hle
        omega
    · obtain ⟨k, rfl⟩ := Nat.exists_eq_add_of_le hn
      rw [modeAt_charClasses, opensAt_charClasses, head?_textClasses,
        ← ih (offset + c.utf8Size) (m.count depth (.ofChar c)) hfit' k,
        ← Nat.add_assoc offset c.utf8Size k, ← and_assoc]
      refine and_congr_left' ?_
      by_cases hm : m = .code
      · subst hm
        by_cases ho : (opening? (.ofChar c) (nextClass cs)).isSome
        · simp only [remaining_code, Nat.zero_le, true_and, ho, if_true, List.forall_mem_singleton,
            Span.contains, Bool.and_eq_false_iff, decide_eq_false_iff_not]
          omega
        · rw [step_of_not_opening (by simpa using ho)]
          simp [ho]
      · rw [remaining_cons cs hm hfitc]
        simp [hm]

/-- The depth after the last brace before an offset, `d` being the depth in front. -/
def depthAmong (d : Nat) (bs : List Brace) (offset : Nat) : Nat :=
  match (bs.takeWhile (fun b => decide (b.offset < offset))).getLast? with
  | some b => b.depth
  | none => d

@[simp] theorem depthAmong_nil (d offset : Nat) : depthAmong d [] offset = d := rfl

theorem depthAmong_cons (d : Nat) (b : Brace) (bs : List Brace) (offset : Nat) :
    depthAmong d (b :: bs) offset
      = if b.offset < offset then depthAmong b.depth bs offset else d := by
  unfold depthAmong
  by_cases h : b.offset < offset
  · rw [List.takeWhile_cons_of_pos (by simpa using h), if_pos h, List.getLast?_cons]
    rcases (bs.takeWhile _).getLast? with - | b' <;> rfl
  · rw [List.takeWhile_cons_of_neg (by simpa using h), if_neg h]
    rfl

/-- An offset before all braces is at the depth in front. -/
theorem depthAmong_of_le {d : Nat} {bs : List Brace} {offset : Nat}
    (h : ∀ b ∈ bs, offset ≤ b.offset) : depthAmong d bs offset = d := by
  cases bs with
  | nil => rfl
  | cons b bs =>
    have := h b List.mem_cons_self
    rw [depthAmong_cons, if_neg (by omega)]

theorem count_eq (m : Mode) (depth : Nat) (c : Char) :
    m.count depth (.ofChar c)
      = if m = .code ∧ c = '{' then depth + 1
        else if m = .code ∧ c = '}' then depth - 1
        else depth := by
  by_cases hm : m = .code
  · subst hm
    split_ifs with h1 h2
    · rw [h1.2]
      rfl
    · rw [h2.2]
      rfl
    · rw [Mode.count]
      · exact fun _ h => h1 ⟨rfl, ofChar_eq_openBrace.mp h⟩
      · exact fun _ h => h2 ⟨rfl, ofChar_eq_closeBrace.mp h⟩
  · -- outside code no brace counts
    rw [if_neg (fun h => hm h.1), if_neg (fun h => hm h.1)]
    cases m <;> first | exact absurd rfl hm | rfl

/-- Behind a character, the depth among its marks and later ones starts from the count after it. -/
theorem depthAmong_marksAt_append {m : Mode} {offset o : Nat} (depth : Nat) (c : Char)
    (cs : List Char) (bs : List Brace) (h : offset < o) :
    depthAmong depth (bracesOf (marksAt m offset depth c cs) ++ bs) o
      = depthAmong (m.count depth (.ofChar c)) bs o := by
  rw [bracesOf_marksAt, count_eq]
  split_ifs
  · rw [List.singleton_append, depthAmong_cons, if_pos h]
  · rw [List.singleton_append, depthAmong_cons, if_pos h]
  · rfl

theorem depthBefore_in_replicate_other (m : Mode) (d n k : Nat) (bs : List ByteClass) (h : n ≤ k) :
    depthBefore m d (List.replicate k .other ++ bs) n = d := by
  induction n generalizing m k with
  | zero => exact depthBefore_zero m d _
  | succ n ih =>
    obtain ⟨k, rfl⟩ := Nat.exists_eq_succ_of_ne_zero (Nat.ne_of_gt (Nat.zero_lt_of_lt h))
    have hcount : m.count d .other = d := by cases m <;> rfl
    rw [List.replicate_succ, List.cons_append, depthBefore, hcount]
    exact ih _ k (by omega)

/-- Inside a character the count is the one before it. -/
theorem depthBefore_in_char (m : Mode) (d : Nat) (c : Char) {n : Nat} (bs : List ByteClass)
    (h : n < c.utf8Size) : depthBefore m d (charClasses c ++ bs) n = d := by
  rcases charClasses_cases c with ⟨-, hs⟩ | ⟨k, hc, -, hs⟩
  · obtain rfl : n = 0 := by omega
    exact depthBefore_zero m d _
  · rw [hc]
    exact depthBefore_in_replicate_other m d n _ bs (by omega)

/-- **The depth in the map is the brace count.** -/
theorem depthAmong_eq {m : Mode} (offset depth : Nat) {cs : List Char}
    (hfit : ∀ b ∈ nextClass cs, m.Fits b) (n : Nat) :
    depthAmong depth (bracesOf (marksIn m offset depth cs)) (offset + n)
      = depthBefore m depth (textClasses cs) n := by
  induction cs generalizing m offset depth n with
  | nil => simp [marksFrom]
  | cons c cs ih =>
    have hpos := c.utf8Size_pos
    have hfit' := fits_step m (.ofChar c) (nextClass cs)
    have hbraces : bracesOf (marksIn m offset depth (c :: cs))
        = bracesOf (marksAt m offset depth c cs)
          ++ bracesOf (marksIn (m.step (.ofChar c) (nextClass cs)) (offset + c.utf8Size)
              (m.count depth (.ofChar c)) cs) := by
      rw [marksIn, marksFrom_cons offset depth (hfit _ rfl), bracesOf, List.filterMap_append]
    rw [textClasses_cons]
    rcases Nat.lt_or_ge n c.utf8Size with hn | hn
    · rw [depthBefore_in_char m depth c _ hn]
      apply depthAmong_of_le
      intro b hb
      rcases Nat.eq_zero_or_pos n with rfl | hn0
      · exact (braces_range hfit b hb).1
      · -- a character of several bytes is no brace
        have hnone : bracesOf (marksAt m offset depth c cs) = [] := by
          rw [bracesOf_marksAt, if_neg, if_neg]
          · rintro ⟨-, rfl⟩
            exact absurd hn (by rw [show '}'.utf8Size = 1 from rfl]; omega)
          · rintro ⟨-, rfl⟩
            exact absurd hn (by rw [show '{'.utf8Size = 1 from rfl]; omega)
        rw [hbraces, hnone, List.nil_append] at hb
        have := (braces_range hfit' b hb).1
        omega
    · obtain ⟨k, rfl⟩ := Nat.exists_eq_add_of_le hn
      rw [depthBefore_charClasses, head?_textClasses,
        ← ih (offset + c.utf8Size) (m.count depth (.ofChar c)) hfit' k, hbraces,
        depthAmong_marksAt_append depth c cs _ (by omega), Nat.add_assoc]

/-! ### The map of a whole text -/

theorem fits_code (cs : List Char) : ∀ b ∈ nextClass cs, Mode.code.Fits b := by
  simp [Mode.Fits, Mode.stopsAtNewline]

theorem quiet_ofText (cs : List Char) :
    (CodeMap.ofText cs).quiet = spansOf (marksIn .code 0 0 cs) := rfl

theorem braces_ofText (cs : List Char) :
    (CodeMap.ofText cs).braces = bracesOf (marksIn .code 0 0 cs) := rfl

theorem isCode_iff (cs : List Char) (n : Nat) :
    (CodeMap.ofText cs).isCode n = true
      ↔ modeAt .code (textClasses cs) n = .code ∧ opensAt (textClasses cs) n = false := by
  rw [← not_in_spans_iff 0 0 (fits_code cs) n, CodeMap.isCode, quiet_ofText, Nat.zero_add,
    remaining_code, Bool.not_eq_true', List.any_eq_false]
  constructor
  · intro h
    exact ⟨Nat.zero_le n, fun s hs => Bool.eq_false_iff.mpr (h s hs)⟩
  · rintro ⟨-, h⟩ s hs
    exact Bool.eq_false_iff.mp (h s hs)

theorem depthAt_eq (cs : List Char) (n : Nat) :
    (CodeMap.ofText cs).depthAt n = depthBefore .code 0 (textClasses cs) n := by
  rw [← depthAmong_eq 0 0 (fits_code cs) n, Nat.zero_add]
  rfl

/-- Where spans are in order, the first one that ends behind an offset decides about it. -/
theorem any_contains_eq {spans : List Span} (offset : Nat)
    (hnext : spans.Pairwise (fun s t => s.stop ≤ t.start)) :
    spans.any (fun s => s.contains offset)
      = (spans.find? (fun s => decide (offset < s.stop))).any (fun s => s.contains offset) := by
  induction spans with
  | nil => rfl
  | cons s spans ih =>
    obtain ⟨hs, hrest⟩ := List.pairwise_cons.mp hnext
    by_cases h : offset < s.stop
    · -- the first span that ends behind the offset; the later ones begin behind it
      have hlater : spans.any (fun t => t.contains offset) = false := by
        rw [List.any_eq_false]
        intro t ht hin
        have := hs t ht
        simp only [Span.contains, Bool.and_eq_true, decide_eq_true_eq] at hin
        omega
      rw [List.any_cons, hlater, Bool.or_false, List.find?_cons_of_pos (by simpa using h)]
      rfl
    · -- the span ends in front of the offset
      have hout : s.contains offset = false := by simp [Span.contains, h]
      rw [List.any_cons, hout, Bool.false_or, List.find?_cons_of_neg (by simpa using h), ih hrest]

/-- What it is for a map to tell of a text what the automaton tells of its bytes. -/
structure Agrees (map : CodeMap) (bytes : List ByteClass) : Prop where
  /-- Comments and strings are non-empty and inside the text. -/
  spans_inside : ∀ s ∈ map.quiet, s.start < s.stop ∧ s.stop ≤ bytes.length
  /-- They are in ascending order and apart from each other. -/
  spans_ascend : map.quiet.Pairwise (fun s t => s.stop ≤ t.start)
  braces_ascend : map.braces.Pairwise (fun a b => a.offset < b.offset)
  /-- The first comment or string that ends behind an offset decides about it. -/
  search : ∀ offset, map.isCode offset
    = !(map.quiet.find? (fun s => decide (offset < s.stop))).any (fun s => s.contains offset)
  /-- An offset is code where the automaton is in code and no comment or string opens. -/
  code : ∀ offset, map.isCode offset = true
    ↔ modeAt .code bytes offset = .code ∧ opensAt bytes offset = false
  /-- The depth is the count of the braces in code. -/
  depth : ∀ offset, map.depthAt offset = depthBefore .code 0 bytes offset

/-- **The map of a source text agrees with the automaton**, at every offset, also at those behind
the text. -/
theorem ofText_agrees_with_automaton (source : String) :
    Agrees (CodeMap.ofText source.toList) (classesOf source) := by
  have hfit := fits_code source.toList
  have hpair : (CodeMap.ofText source.toList).quiet.Pairwise (fun s t => s.stop ≤ t.start) :=
    spans_pairwise hfit
  rw [classesOf_eq]
  refine ⟨?_, hpair, braces_pairwise hfit, ?_, ?_, ?_⟩
  · intro s hs
    obtain ⟨-, hlt, hle⟩ := spans_range hfit s hs
    rw [length_textClasses]
    exact ⟨hlt, by omega⟩
  · intro offset
    rw [CodeMap.isCode, any_contains_eq offset hpair]
  · intro offset
    exact isCode_iff _ offset
  · intro offset
    exact depthAt_eq _ offset

end Scan

end Scaffold

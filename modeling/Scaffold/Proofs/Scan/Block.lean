/-
Scaffold/Proofs/Scan/Block.lean

What a map says inside a block depends on the block alone.

A block that opens in code outside all braces is scanned as if the text began
with its opening brace: the automaton is in code in front of that brace, with
no brace counted, and what stands behind the block is at most a closing brace,
which nothing in front of it can pair with.

* `brace_at` — a recorded brace stands in the text, in code;
* `Nests` — each brace records the depth it leaves behind;
* `block_parts` — the text around a block;
* `isCode_in_block`, `depthAt_in_block` — the answers inside it.
-/
import Mathlib.Data.List.TakeWhile
import Scaffold.Proofs.Scan.Agreement
import Scaffold.Proofs.Text.Slice

namespace Scaffold

open Text

namespace Scan

/-! ### Runs over the parts of a text -/

theorem depthBefore_append (m : Mode) (d : Nat) (xs ys : List ByteClass) (n : Nat) :
    depthBefore m d (xs ++ ys) (xs.length + n)
      = depthBefore (run m xs ys.head?) (depthBefore m d (xs ++ ys) xs.length) ys n := by
  induction xs generalizing m d with
  | nil => simp [run]
  | cons x xs ih =>
    rw [List.cons_append, List.length_cons, Nat.add_right_comm, depthBefore, depthBefore, ih, run]
    cases xs <;> simp

/-- Later bytes decide whether something opens at an offset only if they begin with the second
byte of an opener. -/
theorem opensAt_append_left {xs ys : List ByteClass} {n : Nat} (h : n < xs.length)
    (hys : ∀ b ∈ ys.head?, b ≠ .slash ∧ b ≠ .star) : opensAt (xs ++ ys) n = opensAt xs n := by
  induction xs generalizing n with
  | nil => simp at h
  | cons x xs ih =>
    cases n with
    | succ n => exact ih (by simpa using h)
    | zero =>
      cases xs with
      | cons x' xs => rfl
      | nil =>
        show (opening? x ys.head?).isSome = (opening? x none).isSome
        rcases hhead : ys.head? with - | b
        · rfl
        · have hb := hys b hhead
          cases x <;> cases b <;> simp_all [opening?]

/-! ### Recorded braces -/

/-- The brace an opening or closing one is written as. -/
def Brace.char (b : Brace) : Char := if b.opens then '{' else '}'

/-- A recorded brace stands in the text, and the automaton reads it in code. -/
theorem brace_at {m : Mode} {offset depth : Nat} {cs : List Char}
    (hfit : ∀ b ∈ nextClass cs, m.Fits b) :
    ∀ b ∈ bracesOf (marksIn m offset depth cs),
      ∃ u v, cs = u ++ Brace.char b :: v ∧ b.offset = offset + byteLength u
        ∧ modeAt m (textClasses cs) (byteLength u) = .code := by
  induction cs generalizing m offset depth with
  | nil => simp [marksFrom]
  | cons c cs ih =>
    have hpos := c.utf8Size_pos
    intro b hb
    rw [marksIn, marksFrom_cons offset depth (hfit _ rfl), bracesOf, List.filterMap_append,
      List.mem_append] at hb
    rcases hb with hb | hb
    · -- the brace is `c` itself
      have hmode : m = .code → modeAt m (textClasses (c :: cs)) 0 = .code := by
        rintro rfl
        obtain ⟨b', bs, hbs⟩ : ∃ b' bs, textClasses (c :: cs) = b' :: bs := by
          refine List.exists_cons_of_length_pos ?_
          rw [length_textClasses, byteLength_cons]
          omega
        rw [hbs]
        rfl
      rw [← bracesOf, bracesOf_marksAt] at hb
      split_ifs at hb with h1 h2
      · obtain rfl := List.mem_singleton.mp hb
        exact ⟨[], cs, by rw [h1.2]; rfl, rfl, hmode h1.1⟩
      · obtain rfl := List.mem_singleton.mp hb
        exact ⟨[], cs, by rw [h2.2]; rfl, rfl, hmode h2.1⟩
      · cases hb
    · obtain ⟨u, v, rfl, hoff, hmode⟩ := ih (fits_step m _ _) b hb
      refine ⟨c :: u, v, rfl, by rw [hoff, byteLength_cons, Nat.add_assoc], ?_⟩
      rw [textClasses_cons, byteLength_cons, modeAt_charClasses, head?_textClasses]
      exact hmode

/-- Each brace records the depth it leaves behind, `d` being the depth in front of the first. -/
def Nests : Nat → List Brace → Prop
  | _, [] => True
  | d, b :: bs => b.depth = (if b.opens then d + 1 else d - 1) ∧ Nests b.depth bs

theorem nests_marksIn {m : Mode} {offset depth : Nat} {cs : List Char}
    (hfit : ∀ b ∈ nextClass cs, m.Fits b) : Nests depth (bracesOf (marksIn m offset depth cs)) := by
  induction cs generalizing m offset depth with
  | nil => simp [marksFrom, Nests]
  | cons c cs ih =>
    have hrest : Nests (m.count depth (.ofChar c))
        (bracesOf (marksIn (m.step (.ofChar c) (nextClass cs)) (offset + c.utf8Size)
          (m.count depth (.ofChar c)) cs)) :=
      ih (fits_step m (.ofChar c) (nextClass cs))
    rw [marksIn, marksFrom_cons offset depth (hfit _ rfl), bracesOf, List.filterMap_append,
      ← bracesOf, bracesOf_marksAt]
    rw [count_eq] at hrest ⊢
    split_ifs at hrest ⊢
    · exact ⟨rfl, hrest⟩
    · exact ⟨rfl, hrest⟩
    · exact hrest

theorem Nests.append_right {d : Nat} {as bs : List Brace} (h : Nests d (as ++ bs)) :
    Nests ((as.getLast?.map Brace.depth).getD d) bs := by
  induction as generalizing d with
  | nil => exact h
  | cons a as ih =>
    have := ih h.2
    rw [List.getLast?_cons]
    cases hlast : as.getLast? <;> simpa [hlast] using this

theorem depthAmong_append {d offset : Nat} {as bs : List Brace}
    (h : ∀ a ∈ as, a.offset < offset) :
    depthAmong d (as ++ bs) offset
      = depthAmong ((as.getLast?.map Brace.depth).getD d) bs offset := by
  induction as generalizing d with
  | nil => rfl
  | cons a as ih =>
    rw [List.cons_append, depthAmong_cons, if_pos (h a List.mem_cons_self),
      ih (fun b hb => h b (List.mem_cons_of_mem _ hb)), List.getLast?_cons]
    cases as.getLast? <;> rfl

/-- Closing braces leave the depth at zero where it was zero. -/
theorem depth_after_closing {as bs : List Brace} (hnest : Nests 0 (as ++ bs))
    (hclose : ∀ a ∈ as, a.opens = false) : (as.getLast?.map Brace.depth).getD 0 = 0 := by
  induction as with
  | nil => rfl
  | cons a as ih =>
    obtain ⟨ha, hrest⟩ := hnest
    rw [hclose a List.mem_cons_self] at ha
    obtain ha : a.depth = 0 := ha
    rw [ha] at hrest
    have := ih hrest (fun b hb => hclose b (List.mem_cons_of_mem _ hb))
    rw [List.getLast?_cons]
    cases hlast : as.getLast? <;> simp_all

/-- Where the depth is zero, the first brace that opens does so outside all braces. -/
theorem depthAmong_opening {early closing rest : List Brace} {opening : Brace}
    (hnest : Nests 0 (early ++ (closing ++ opening :: rest)))
    (hsorted : (early ++ (closing ++ opening :: rest)).Pairwise (fun a b => a.offset < b.offset))
    (hearly : (early.getLast?.map Brace.depth).getD 0 = 0)
    (hclosing : ∀ b ∈ closing, b.opens = false) :
    depthAmong 0 (early ++ (closing ++ opening :: rest)) opening.offset = 0 := by
  obtain ⟨-, hsorted, hbefore⟩ := List.pairwise_append.mp hsorted
  obtain ⟨-, -, hclose⟩ := List.pairwise_append.mp hsorted
  have hnest := hnest.append_right
  rw [hearly] at hnest
  rw [depthAmong_append (fun a ha => hbefore a ha opening (by simp)), hearly,
    depthAmong_append (fun a ha => hclose a ha opening (by simp)),
    depth_after_closing hnest hclosing, depthAmong_cons, if_neg (Nat.lt_irrefl _)]

/-! ### The text around a block -/

/-- The parts of a text around a block: what stands in front of its opening brace, the inside, and
what is behind. -/
structure Block (cs front inside back : List Char) : Prop where
  text_eq : cs = front ++ ('{' :: inside ++ back)
  /-- The opening brace is code. -/
  mode_eq : modeAt .code (textClasses cs) (byteLength front) = .code
  /-- It stands outside all braces. -/
  depth_eq : depthBefore .code 0 (textClasses cs) (byteLength front) = 0
  /-- Behind the inside is a closing brace, or the end of the text. -/
  back_head : ∀ c ∈ back.head?, c = '}'

/-- The inside of a block as a span of the text. -/
def insideOf (front inside : List Char) : Span :=
  ⟨byteLength front + 1, byteLength front + 1 + byteLength inside⟩

/-- The braces that a search from an offset on looks at. -/
theorem mem_dropWhile_offset_iff {bs : List Brace} {start : Nat} {b : Brace}
    (hsorted : bs.Pairwise (fun a b => a.offset < b.offset)) :
    b ∈ bs.dropWhile (fun b => decide (b.offset < start)) ↔ b ∈ bs ∧ start ≤ b.offset := by
  induction bs with
  | nil => simp
  | cons a bs ih =>
    obtain ⟨ha, hbs⟩ := List.pairwise_cons.mp hsorted
    by_cases hlt : a.offset < start
    · -- still in front of the start
      rw [List.dropWhile_cons_of_pos (by simpa using hlt), ih hbs, List.mem_cons]
      refine and_congr_left fun hstart => ⟨.inr, fun h => h.resolve_left ?_⟩
      rintro rfl
      omega
    · -- from here on offsets ascend
      rw [List.dropWhile_cons_of_neg (by simpa using hlt)]
      refine ⟨fun hb => ⟨hb, ?_⟩, And.left⟩
      rcases List.mem_cons.mp hb with rfl | hb
      · exact Nat.le_of_not_lt hlt
      · exact (Nat.le_of_not_lt hlt).trans (Nat.le_of_lt (ha b hb))

/-- The first block from an offset on: the braces in front of it that stand at the offset or later
are closing ones. -/
theorem blockFrom_cases {map : CodeMap} {start : Nat} {span : Span}
    (h : map.blockFrom start = some span) :
    ∃ early closing opening rest, map.braces = early ++ (closing ++ opening :: rest)
      ∧ early = map.braces.takeWhile (fun b => decide (b.offset < start))
      ∧ (∀ b ∈ closing, b.opens = false) ∧ opening.opens = true
      ∧ span = ⟨opening.offset + 1,
          ((rest.find? (fun b => !b.opens && b.depth == opening.depth - 1)).map (·.offset)).getD
            map.size⟩ := by
  rw [CodeMap.blockFrom] at h
  rcases hopen : (map.braces.dropWhile (fun b => decide (b.offset < start))).dropWhile
      (fun b => !b.opens) with - | ⟨opening, rest⟩
  · -- no brace opens
    simp only [hopen] at h
    cases h
  · simp only [hopen] at h
    refine ⟨_, (map.braces.dropWhile (fun b => decide (b.offset < start))).takeWhile
      (fun b => !b.opens), opening, rest, ?_, rfl, ?_, ?_, (Option.some.inj h).symm⟩
    · rw [← hopen, List.takeWhile_append_dropWhile, List.takeWhile_append_dropWhile]
    · intro b hb
      simpa using List.mem_takeWhile_imp hb
    · have := List.head?_dropWhile_not (fun b : Brace => !b.opens)
        (map.braces.dropWhile (fun b => decide (b.offset < start)))
      simpa [hopen] using this

/-- **The parts of a block that opens outside all braces.** -/
theorem block_parts {cs : List Char} {start : Nat} {span : Span}
    (hdepth : (CodeMap.ofText cs).depthAt start = 0)
    (h : (CodeMap.ofText cs).blockFrom start = some span) :
    ∃ front inside back, Block cs front inside back ∧ span = insideOf front inside := by
  obtain ⟨early, closing, opening, rest, hsplit, hearly, hclosing, hopens, rfl⟩ :=
    blockFrom_cases h
  have hnest : Nests 0 (CodeMap.ofText cs).braces := nests_marksIn (fits_code cs)
  have hsorted : (CodeMap.ofText cs).braces.Pairwise (fun a b => a.offset < b.offset) :=
    braces_pairwise (fits_code cs)
  have hat : ∀ b ∈ (CodeMap.ofText cs).braces, ∃ u v, cs = u ++ Brace.char b :: v
      ∧ b.offset = 0 + byteLength u ∧ modeAt .code (textClasses cs) (byteLength u) = .code :=
    brace_at (fits_code cs)
  rw [hsplit] at hnest hsorted hat
  obtain ⟨u, v, hcs, hoff, hmode⟩ := hat opening (by simp)
  rw [Nat.zero_add] at hoff
  rw [Brace.char, if_pos hopens] at hcs
  have hearly' : (early.getLast?.map Brace.depth).getD 0 = 0 := by
    rw [CodeMap.depthAt, ← hearly] at hdepth
    rcases hlast : early.getLast? with - | b
    · rfl
    · rw [hlast] at hdepth
      exact hdepth
  have hdepth0 : depthBefore .code 0 (textClasses cs) (byteLength u) = 0 := by
    rw [← depthAt_eq, ← hoff]
    show depthAmong 0 (CodeMap.ofText cs).braces opening.offset = 0
    rw [hsplit]
    exact depthAmong_opening hnest hsorted hearly' hclosing
  rcases hfind : rest.find? (fun b => !b.opens && b.depth == opening.depth - 1) with - | closer
  · -- the block runs to the end of the text
    refine ⟨u, v, [], ⟨by simpa using hcs, hmode, hdepth0, by simp⟩, ?_⟩
    rw [hfind, hoff, insideOf]
    refine congrArg (Span.mk _) ?_
    show byteLength cs = _
    rw [hcs, byteLength_append, byteLength_cons, Nat.add_assoc]
    rfl
  · have hmem := List.mem_of_find?_eq_some hfind
    have hcloses : closer.opens = false := by
      have := List.find?_some hfind
      simp only [Bool.and_eq_true, Bool.not_eq_true'] at this
      exact this.1
    obtain ⟨u', v', hcs', hoff', -⟩ := hat closer (by simp [hmem])
    rw [Nat.zero_add] at hoff'
    rw [Brace.char, if_neg (by simp [hcloses])] at hcs'
    obtain ⟨-, hsorted, -⟩ := List.pairwise_append.mp hsorted
    obtain ⟨-, hsorted, -⟩ := List.pairwise_append.mp hsorted
    have hlt : opening.offset < closer.offset := (List.pairwise_cons.mp hsorted).1 closer hmem
    have hlen : byteLength (u ++ ['{']) = byteLength u + 1 := by
      rw [byteLength_append]
      rfl
    obtain ⟨inside, hu', hv⟩ := eq_append_of_byteLength_le
      (show (u ++ ['{']) ++ v = u' ++ '}' :: v' by rw [← hcs', hcs]; simp) (by omega)
    refine ⟨u, inside, '}' :: v', ⟨?_, hmode, hdepth0, by simp⟩, ?_⟩
    · rw [hcs, hv]
      simp
    · rw [hfind, insideOf, hoff]
      refine congrArg (Span.mk _) ?_
      show closer.offset = _
      rw [hoff', hu', byteLength_append, hlen]

/-! ### Answers inside a block -/

section Inside

variable {cs front inside back : List Char}

theorem Block.classes_eq (h : Block cs front inside back) :
    textClasses cs = textClasses front ++ (textClasses ('{' :: inside) ++ textClasses back) := by
  rw [h.text_eq, textClasses_append, textClasses_append]

/-- In front of the block the automaton is in code. -/
theorem Block.run_front (h : Block cs front inside back) :
    run .code (textClasses front)
      (textClasses ('{' :: inside) ++ textClasses back).head? = .code := by
  have hmode := h.mode_eq
  rw [h.classes_eq, ← length_textClasses, ← Nat.add_zero (textClasses front).length,
    modeAt_append] at hmode
  exact hmode

theorem Block.back_class (h : Block cs front inside back) :
    ∀ b ∈ (textClasses back).head?, b ≠ .slash ∧ b ≠ .star := by
  rw [head?_textClasses]
  intro b hb
  obtain ⟨c, hc, rfl⟩ := Option.map_eq_some_iff.mp hb
  rw [h.back_head c hc]
  decide

/-- **Inside a block, code is what is code in the block alone.** -/
theorem isCode_in_block (h : Block cs front inside back) {n : Nat}
    (hn : n < byteLength ('{' :: inside)) :
    (CodeMap.ofText cs).isCode (byteLength front + n)
      = (CodeMap.ofText ('{' :: inside)).isCode n := by
  have hlen : n < (textClasses ('{' :: inside)).length := by
    rw [length_textClasses]
    exact hn
  rw [Bool.eq_iff_iff, isCode_iff, isCode_iff, h.classes_eq, ← length_textClasses front,
    modeAt_append, h.run_front, opensAt_append, opensAt_append_left hlen h.back_class,
    modeAt_append_left _ _ _ [] _ hlen, List.append_nil]

/-- **Inside a block, braces are counted as in the block alone.** -/
theorem depthAt_in_block (h : Block cs front inside back) {n : Nat}
    (hn : n ≤ byteLength ('{' :: inside)) :
    (CodeMap.ofText cs).depthAt (byteLength front + n)
      = (CodeMap.ofText ('{' :: inside)).depthAt n := by
  have hlen : n ≤ (textClasses ('{' :: inside)).length := by
    rw [length_textClasses]
    exact hn
  have hdepth := h.depth_eq
  rw [h.classes_eq, ← length_textClasses front] at hdepth
  rw [depthAt_eq, depthAt_eq, h.classes_eq, ← length_textClasses front, depthBefore_append,
    hdepth, h.run_front, depthBefore_append_left _ _ _ _ [] _ hlen, List.append_nil]

end Inside

end Scan

end Scaffold

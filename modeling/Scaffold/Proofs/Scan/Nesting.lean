/-
Scaffold/Proofs/Scan/Nesting.lean

Texts whose braces are known from how they are put together.

`Leaves k w` says that the text `w`, read from code, ends in code and leaves `k`
braces open: it is made of plain characters, closed strings, whole comment
lines, opening braces, and blocks.  Where the pass goes over such a text, it
goes on behind it as if the text were not there, `k` levels deeper
(`Leaves.crossed`).  For a text that begins with one, this answers the questions
a map can be asked:

* `depthAt_leaves`, `isCode_leaves` — the depth behind it, and that it is code;
* `pos_depthAt_of_closes` — each closing brace in it closes an open block;
* `blockFrom_leaves` — the block that opens behind it.
-/
import Scaffold.Proofs.Scan.Block

namespace Scaffold

open Text

namespace Scan

/-! ### Texts and what they leave open -/

/-- A character that opens nothing in code. -/
def isPlain (c : Char) : Bool := !(['/', '\'', '"', '`', '{', '}'].contains c)

/-- A text in which code goes on, without braces. -/
inductive Flat : List Char → Prop
  | plain {w} : (∀ c ∈ w, isPlain c = true) → Flat w
  | quoted {w} : (∀ c ∈ w, c ≠ '\'' ∧ c ≠ '\\' ∧ c ≠ '\n') → Flat ('\'' :: (w ++ ['\'']))
  | comment {w} : (∀ c ∈ w, c ≠ '\n') → Flat ('/' :: '/' :: (w ++ ['\n']))
  | append {v w} : Flat v → Flat w → Flat (v ++ w)

theorem Flat.of_all {w : List Char} (h : w.all isPlain = true) : Flat w :=
  .plain (List.all_eq_true.mp h)

/-- `Leaves k w`: read from code, `w` ends in code and leaves `k` braces open, none of its closing
braces closing one in front of it. -/
inductive Leaves : Nat → List Char → Prop
  | flat {w} : Flat w → Leaves 0 w
  | opening : Leaves 1 ['{']
  | block {w} : Leaves 0 w → Leaves 0 ('{' :: (w ++ ['}']))
  | append {j k v w} : Leaves j v → Leaves k w → Leaves (j + k) (v ++ w)

/-- A text whose braces are paired. -/
abbrev Balanced (w : List Char) : Prop := Leaves 0 w

theorem Leaves.nil : Balanced [] := .flat (.plain (by simp))

/-! ### Skipping -/

/-- The pass goes over the rest of a comment or string. -/
theorem marksFrom_skip (v : List Char) (offset depth : Nat) (rest : List Char) :
    marksFrom (byteLength v) offset depth (v ++ rest)
      = marksFrom 0 (offset + byteLength v) depth rest := by
  induction v generalizing offset with
  | nil => rfl
  | cons c v ih =>
    have hpos := c.utf8Size_pos
    rw [List.cons_append, marksFrom, if_pos (by rw [byteLength_cons]; omega), byteLength_cons,
      Nat.add_sub_cancel_left, ih, Nat.add_assoc]

theorem marksFrom_plain {c : Char} (h : isPlain c = true) (offset depth : Nat) (rest : List Char) :
    marksFrom 0 offset depth (c :: rest) = marksFrom 0 (offset + c.utf8Size) depth rest := by
  have hc : c ≠ '/' ∧ c ≠ '\'' ∧ c ≠ '"' ∧ c ≠ '`' ∧ c ≠ '{' ∧ c ≠ '}' := by
    simpa [isPlain] using h
  obtain ⟨h1, h2, h3, h4, h5, h6⟩ := hc
  have hquiet : quietLength (c :: rest) = none := by
    unfold quietLength
    split <;> simp_all
  rw [marksFrom, if_neg (Nat.lt_irrefl 0), hquiet]
  simp only [if_neg h5, if_neg h6]

/-- A region that opens where code is read. -/
theorem marksFrom_quiet {v rest : List Char} (hv : v ≠ [])
    (hquiet : quietLength (v ++ rest) = some (byteLength v)) (offset depth : Nat) :
    marksFrom 0 offset depth (v ++ rest)
      = .quiet ⟨offset, offset + byteLength v⟩
        :: marksFrom 0 (offset + byteLength v) depth rest := by
  obtain ⟨c, v, rfl⟩ := List.exists_cons_of_ne_nil hv
  rw [List.cons_append] at hquiet ⊢
  rw [marksFrom, if_neg (Nat.lt_irrefl 0), hquiet]
  simp only [byteLength_cons, Nat.add_sub_cancel_left]
  rw [marksFrom_skip, Nat.add_assoc]

theorem stringLength_single {w : List Char} (hw : ∀ c ∈ w, c ≠ '\'' ∧ c ≠ '\\' ∧ c ≠ '\n')
    (rest : List Char) : stringLength '\'' (w ++ '\'' :: rest) = byteLength w + 1 := by
  induction w with
  | nil => rw [List.nil_append, stringLength_cons _ _ _ (by decide), if_pos rfl]; rfl
  | cons c w ih =>
    obtain ⟨h1, h2, h3⟩ := hw c List.mem_cons_self
    rw [List.cons_append, stringLength_cons _ _ _ h2, if_neg h1, if_neg (fun h => h3 h.1),
      ih (fun d hd => hw d (List.mem_cons_of_mem _ hd)), byteLength_cons, Nat.add_assoc]

theorem lineLength_line {w : List Char} (hw : ∀ c ∈ w, c ≠ '\n') (rest : List Char) :
    lineLength (w ++ '\n' :: rest) = byteLength w := by
  induction w with
  | nil => rfl
  | cons c w ih =>
    rw [List.cons_append, lineLength, if_neg (hw c List.mem_cons_self),
      ih (fun d hd => hw d (List.mem_cons_of_mem _ hd)), byteLength_cons]

/-! ### Going over a flat text -/

/-- **The pass goes over a flat text without meeting a brace.** -/
theorem Flat.crossed {w : List Char} (h : Flat w) (offset depth : Nat) (rest : List Char) :
    ∃ spans : List Span, marksFrom 0 offset depth (w ++ rest)
        = spans.map .quiet ++ marksFrom 0 (offset + byteLength w) depth rest
      ∧ ∀ s ∈ spans, s.stop ≤ offset + byteLength w := by
  induction h generalizing offset rest with
  | @plain w hw =>
    refine ⟨[], ?_, by simp⟩
    induction w generalizing offset with
    | nil => rfl
    | cons c w ih =>
      rw [List.cons_append, marksFrom_plain (hw c List.mem_cons_self),
        ih (fun d hd => hw d (List.mem_cons_of_mem _ hd)), byteLength_cons, Nat.add_assoc]
  | @quoted w hw =>
    refine ⟨[⟨offset, offset + byteLength ('\'' :: (w ++ ['\'']))⟩], ?_, by simp⟩
    refine marksFrom_quiet (by simp) ?_ offset depth
    rw [List.cons_append, List.append_assoc]
    show some (1 + stringLength '\'' (w ++ '\'' :: rest)) = _
    rw [stringLength_single hw, byteLength_cons, byteLength_append]
    rfl
  | @comment w hw =>
    -- the newline is not part of the comment, and is plain
    refine ⟨[⟨offset, offset + byteLength ('/' :: '/' :: w)⟩], ?_, ?_⟩
    · have hlength : quietLength (('/' :: '/' :: w) ++ '\n' :: rest)
          = some (byteLength ('/' :: '/' :: w)) := by
        show some (2 + lineLength (w ++ '\n' :: rest)) = _
        rw [lineLength_line hw, byteLength_cons, byteLength_cons, ← Nat.add_assoc]
        rfl
      have hmarks := marksFrom_quiet (by simp) hlength offset depth
      rw [marksFrom_plain (by decide)] at hmarks
      have htext : '/' :: '/' :: (w ++ ['\n']) ++ rest = ('/' :: '/' :: w) ++ '\n' :: rest := by
        simp
      have hlen : byteLength ('/' :: '/' :: (w ++ ['\n']))
          = byteLength ('/' :: '/' :: w) + '\n'.utf8Size := by
        rw [byteLength_cons, byteLength_cons, byteLength_append, byteLength_cons, byteLength_cons]
        simp only [byteLength_cons, byteLength_nil]
        omega
      rw [htext, hmarks, hlen, Nat.add_assoc]
      rfl
    · intro s hs
      rw [List.mem_singleton.mp hs]
      simp only [byteLength_cons, byteLength_append, byteLength_nil]
      omega
  | @append v w _ _ ihv ihw =>
    obtain ⟨spans, hspans, hstop⟩ := ihv offset (w ++ rest)
    obtain ⟨spans', hspans', hstop'⟩ := ihw (offset + byteLength v) rest
    refine ⟨spans ++ spans', ?_, ?_⟩
    · rw [List.append_assoc, hspans, hspans', List.map_append, List.append_assoc, byteLength_append,
        Nat.add_assoc]
    · intro s hs
      rw [byteLength_append]
      rcases List.mem_append.mp hs with hs | hs
      · have := hstop s hs
        omega
      · have := hstop' s hs
        omega

/-! ### Going over a text with braces -/

/-- The depth behind some braces. -/
def depthBehind (depth : Nat) (bs : List Brace) : Nat := (bs.getLast?.map Brace.depth).getD depth

theorem depthBehind_append (depth : Nat) (as bs : List Brace) :
    depthBehind depth (as ++ bs) = depthBehind (depthBehind depth as) bs := by
  rw [depthBehind, depthBehind, depthBehind, List.getLast?_append]
  rcases bs.getLast? with - | b <;> rfl

/-- Each closing brace closes an open block, `depth` being the depth in front. -/
def Closes : Nat → List Brace → Prop
  | _, [] => True
  | depth, b :: bs => (b.opens = false → 0 < depth) ∧ Closes b.depth bs

theorem Closes.append {depth : Nat} {as bs : List Brace} (has : Closes depth as)
    (hbs : Closes (depthBehind depth as) bs) : Closes depth (as ++ bs) := by
  induction as generalizing depth with
  | nil => exact hbs
  | cons a as ih =>
    refine ⟨has.1, ih has.2 ?_⟩
    rw [← List.singleton_append, depthBehind_append] at hbs
    exact hbs

/-- The marks of a text that begins at `offset`, ends at `stop` and leaves `k` braces open. -/
structure Crossed (offset depth k stop : Nat) (marks : List Mark) : Prop where
  quiet : ∀ s ∈ spansOf marks, s.stop ≤ stop
  within : ∀ b ∈ bracesOf marks, offset ≤ b.offset ∧ b.offset < stop
  /-- No brace leaves less open than there was in front. -/
  deep : ∀ b ∈ bracesOf marks, depth ≤ b.depth
  closes : Closes depth (bracesOf marks)
  behind : depthBehind depth (bracesOf marks) = depth + k

theorem Crossed.append {offset depth j k middle stop : Nat} {ms ms' : List Mark}
    (h : Crossed offset depth j middle ms) (h' : Crossed middle (depth + j) k stop ms')
    (hle : offset ≤ middle) (hle' : middle ≤ stop) :
    Crossed offset depth (j + k) stop (ms ++ ms') := by
  have hbraces : bracesOf (ms ++ ms') = bracesOf ms ++ bracesOf ms' := List.filterMap_append
  have hspans : spansOf (ms ++ ms') = spansOf ms ++ spansOf ms' := List.filterMap_append
  constructor
  case quiet =>
    intro s hs
    rw [hspans, List.mem_append] at hs
    rcases hs with hs | hs
    · exact (h.quiet s hs).trans hle'
    · exact h'.quiet s hs
  case within =>
    intro b hb
    rw [hbraces, List.mem_append] at hb
    rcases hb with hb | hb
    · exact ⟨(h.within b hb).1, (h.within b hb).2.trans_le hle'⟩
    · exact ⟨hle.trans (h'.within b hb).1, (h'.within b hb).2⟩
  case deep =>
    intro b hb
    rw [hbraces, List.mem_append] at hb
    rcases hb with hb | hb
    · exact h.deep b hb
    · exact (Nat.le_add_right _ _).trans (h'.deep b hb)
  case closes =>
    rw [hbraces]
    apply h.closes.append
    rw [h.behind]
    exact h'.closes
  case behind => rw [hbraces, depthBehind_append, h.behind, h'.behind, Nat.add_assoc]

theorem bracesOf_map_quiet (spans : List Span) : bracesOf (spans.map Mark.quiet) = [] := by
  apply List.filterMap_eq_nil_iff.mpr
  intro m hm
  obtain ⟨s, -, rfl⟩ := List.mem_map.mp hm
  rfl

theorem spansOf_map_quiet (spans : List Span) : spansOf (spans.map Mark.quiet) = spans := by
  rw [spansOf, List.filterMap_map]
  exact List.filterMap_some

/-- The marks of a flat text. -/
theorem crossed_quiet {offset depth stop : Nat} {spans : List Span}
    (h : ∀ s ∈ spans, s.stop ≤ stop) : Crossed offset depth 0 stop (spans.map .quiet) := by
  constructor
  case quiet =>
    rw [spansOf_map_quiet]
    exact h
  all_goals rw [bracesOf_map_quiet]
  case within => simp
  case deep => simp
  case closes => trivial
  case behind => rfl

/-- The mark of an opening brace. -/
theorem crossed_opening (offset depth : Nat) :
    Crossed offset depth 1 (offset + 1) [.brace ⟨offset, true, depth + 1⟩] where
  quiet := by simp [Mark.span?]
  within := by simp [Mark.brace?]
  deep := by simp [Mark.brace?]
  closes := ⟨by simp, trivial⟩
  behind := rfl

/-- A block: the opening brace, the inside one level deeper, and the closing brace back again. -/
theorem Crossed.block {offset depth stop : Nat} {marks : List Mark} (hle : offset + 1 ≤ stop)
    (h : Crossed (offset + 1) (depth + 1) 0 stop marks) :
    Crossed offset depth 0 (stop + 1)
      (.brace ⟨offset, true, depth + 1⟩ :: (marks ++ [.brace ⟨stop, false, depth⟩])) := by
  have hinside := (crossed_opening offset depth).append h (Nat.le_succ _) hle
  have hbraces : bracesOf (.brace ⟨offset, true, depth + 1⟩
        :: (marks ++ [.brace ⟨stop, false, depth⟩]))
      = bracesOf ([.brace ⟨offset, true, depth + 1⟩] ++ marks) ++ [⟨stop, false, depth⟩] := by
    rw [List.singleton_append, ← List.cons_append]
    exact List.filterMap_append
  have hspans : spansOf (.brace ⟨offset, true, depth + 1⟩
        :: (marks ++ [.brace ⟨stop, false, depth⟩]))
      = spansOf ([.brace ⟨offset, true, depth + 1⟩] ++ marks) := by
    rw [List.singleton_append, ← List.cons_append]
    exact List.filterMap_append.trans (List.append_nil _)
  constructor
  case quiet =>
    intro s hs
    rw [hspans] at hs
    exact (hinside.quiet s hs).trans (Nat.le_succ _)
  case within =>
    intro b hb
    rw [hbraces, List.mem_append, List.mem_singleton] at hb
    rcases hb with hb | rfl
    · exact ⟨(hinside.within b hb).1, (hinside.within b hb).2.trans (Nat.lt_succ_self _)⟩
    · exact ⟨Nat.le_of_succ_le hle, Nat.lt_succ_self _⟩
  case deep =>
    intro b hb
    rw [hbraces, List.mem_append, List.mem_singleton] at hb
    rcases hb with hb | rfl
    · exact hinside.deep b hb
    · exact Nat.le_refl _
  case closes =>
    rw [hbraces]
    apply hinside.closes.append
    rw [hinside.behind]
    exact ⟨fun _ => by omega, trivial⟩
  case behind =>
    rw [hbraces, depthBehind_append]
    rfl

theorem marksFrom_open (offset depth : Nat) (rest : List Char) :
    marksFrom 0 offset depth ('{' :: rest)
      = .brace ⟨offset, true, depth + 1⟩ :: marksFrom 0 (offset + 1) (depth + 1) rest := rfl

theorem marksFrom_close (offset depth : Nat) (rest : List Char) :
    marksFrom 0 offset depth ('}' :: rest)
      = .brace ⟨offset, false, depth - 1⟩ :: marksFrom 0 (offset + 1) (depth - 1) rest := rfl

/-- **The pass goes over a text that leaves `k` braces open as if it were not there**, but for the
depth. -/
theorem Leaves.crossed {k : Nat} {w : List Char} (h : Leaves k w) (offset depth : Nat)
    (rest : List Char) :
    ∃ marks, marksFrom 0 offset depth (w ++ rest)
        = marks ++ marksFrom 0 (offset + byteLength w) (depth + k) rest
      ∧ Crossed offset depth k (offset + byteLength w) marks := by
  induction h generalizing offset depth rest with
  | flat hw =>
    obtain ⟨spans, hmarks, hstop⟩ := hw.crossed offset depth rest
    exact ⟨_, hmarks, crossed_quiet hstop⟩
  | opening =>
    exact ⟨[.brace ⟨offset, true, depth + 1⟩], marksFrom_open offset depth rest,
      crossed_opening offset depth⟩
  | @block w _ ih =>
    obtain ⟨marks, hmarks, hcrossed⟩ := ih (offset + 1) (depth + 1) ('}' :: rest)
    have hstop : offset + byteLength ('{' :: (w ++ ['}'])) = offset + 1 + byteLength w + 1 := by
      rw [byteLength_cons, byteLength_append]
      change offset + (1 + (byteLength w + 1)) = _
      omega
    rw [hstop]
    refine ⟨.brace ⟨offset, true, depth + 1⟩
      :: (marks ++ [.brace ⟨offset + 1 + byteLength w, false, depth⟩]), ?_, ?_⟩
    · rw [List.cons_append, List.append_assoc, marksFrom_open, List.singleton_append, hmarks,
        marksFrom_close, List.cons_append, List.append_assoc]
      rfl
    · exact .block (Nat.le_add_right _ _) hcrossed
  | @append j k v w _ _ ihv ihw =>
    obtain ⟨ms, hms, hv⟩ := ihv offset depth (w ++ rest)
    obtain ⟨ms', hms', hw⟩ := ihw (offset + byteLength v) (depth + j) rest
    rw [byteLength_append, ← Nat.add_assoc, ← Nat.add_assoc]
    refine ⟨ms ++ ms', ?_, hv.append hw (Nat.le_add_right _ _) (Nat.le_add_right _ _)⟩
    rw [List.append_assoc, hms, hms', List.append_assoc]

/-! ### Questions behind a text -/

section Questions

variable {k : Nat} {u v : List Char}

/-- The braces of a text, those of its beginning first. -/
theorem braces_leaves (h : Leaves k u) (v : List Char) :
    ∃ bs, (CodeMap.ofText (u ++ v)).braces
        = bs ++ bracesOf (marksFrom 0 (byteLength u) k v)
      ∧ (∀ b ∈ bs, b.offset < byteLength u) ∧ Closes 0 bs ∧ depthBehind 0 bs = k := by
  obtain ⟨marks, hmarks, hcrossed⟩ := h.crossed 0 0 v
  rw [Nat.zero_add, Nat.zero_add] at hmarks
  refine ⟨bracesOf marks, ?_, ?_, hcrossed.closes, ?_⟩
  · rw [braces_ofText]
    show bracesOf (marksFrom 0 0 0 (u ++ v)) = _
    rw [hmarks]
    exact List.filterMap_append
  · intro b hb
    have := (hcrossed.within b hb).2
    omega
  · rw [hcrossed.behind, Nat.zero_add]

/-- The braces behind an offset. -/
theorem le_offset_of_mem_braces {offset depth : Nat} :
    ∀ b ∈ bracesOf (marksFrom 0 offset depth v), offset ≤ b.offset :=
  fun b hb => (@braces_range .code offset depth v (fits_code v) b hb).1

/-- **Behind a text that leaves `k` braces open the depth is `k`.** -/
theorem depthAt_leaves (h : Leaves k u) (v : List Char) :
    (CodeMap.ofText (u ++ v)).depthAt (byteLength u) = k := by
  obtain ⟨bs, hbraces, hbefore, -, hbehind⟩ := braces_leaves h v
  show depthAmong 0 (CodeMap.ofText (u ++ v)).braces (byteLength u) = k
  rw [hbraces, depthAmong_append hbefore, depthAmong_of_le le_offset_of_mem_braces]
  exact hbehind

/-- **Behind such a text there is code**, up to what opens a comment or string. -/
theorem isCode_leaves (h : Leaves k u) (hv : ∀ c ∈ v.head?, isPlain c = true) :
    (CodeMap.ofText (u ++ v)).isCode (byteLength u) = true := by
  obtain ⟨marks, hmarks, hcrossed⟩ := h.crossed 0 0 v
  have hspans : (CodeMap.ofText (u ++ v)).quiet
      = spansOf marks ++ spansOf (marksFrom 0 (byteLength u) k v) := by
    rw [quiet_ofText]
    show spansOf (marksFrom 0 0 0 (u ++ v)) = _
    rw [hmarks, Nat.zero_add, Nat.zero_add]
    exact List.filterMap_append
  rw [CodeMap.isCode, hspans, Bool.not_eq_true', List.any_eq_false]
  intro s hs hin
  simp only [Span.contains, Bool.and_eq_true, decide_eq_true_eq] at hin
  rcases List.mem_append.mp hs with hs | hs
  · -- the spans in front end there
    have := hcrossed.quiet s hs
    omega
  · -- the later ones begin behind `v`'s first character
    rcases v with - | ⟨c, v⟩
    · cases hs
    · have hpos := c.utf8Size_pos
      rw [marksFrom_plain (hv c rfl)] at hs
      have := (@spans_range .code _ k v (fits_code v) s hs).1
      omega

theorem pos_depthAmong_of_closes {depth : Nat} {bs : List Brace} (h : Closes depth bs)
    (hsorted : bs.Pairwise (fun a b => a.offset < b.offset)) {b : Brace} (hb : b ∈ bs)
    (hcloses : b.opens = false) : 0 < depthAmong depth bs b.offset := by
  induction bs generalizing depth with
  | nil => cases hb
  | cons a bs ih =>
    obtain ⟨hlt, hsorted⟩ := List.pairwise_cons.mp hsorted
    rcases List.mem_cons.mp hb with rfl | hb
    · rw [depthAmong_cons, if_neg (Nat.lt_irrefl _)]
      exact h.1 hcloses
    · rw [depthAmong_cons, if_pos (hlt b hb)]
      exact ih h.2 hsorted hb

/-- **Each closing brace in code closes an open block.** -/
theorem pos_depthAt_of_closes (h : Leaves k u) {b : Brace} (hb : b ∈ (CodeMap.ofText u).braces)
    (hcloses : b.opens = false) : 0 < (CodeMap.ofText u).depthAt b.offset := by
  obtain ⟨bs, hbraces, -, hpaired, -⟩ := braces_leaves h []
  have hall : (CodeMap.ofText u).braces = bs := by
    rw [List.append_nil] at hbraces
    exact hbraces.trans (List.append_nil bs)
  have hsorted : (CodeMap.ofText u).braces.Pairwise (fun a b => a.offset < b.offset) :=
    braces_pairwise (fits_code u)
  rw [hall] at hb hsorted
  show 0 < depthAmong 0 (CodeMap.ofText u).braces b.offset
  rw [hall]
  exact pos_depthAmong_of_closes hpaired hsorted hb hcloses

/-- The block of an opening brace that is the first at or behind an offset ends at the first closing
brace one level above it. -/
theorem blockFrom_of_braces {map : CodeMap} {start : Nat} {early inner later : List Brace}
    {opening closing : Brace}
    (hbraces : map.braces = early ++ opening :: (inner ++ closing :: later))
    (hearly : ∀ b ∈ early, b.offset < start) (hstart : start ≤ opening.offset)
    (hopens : opening.opens = true) (hinner : ∀ b ∈ inner, opening.depth ≤ b.depth)
    (hcloses : closing.opens = false) (hdepth : closing.depth + 1 = opening.depth) :
    map.blockFrom start = some ⟨opening.offset + 1, closing.offset⟩ := by
  have hdrop : map.braces.dropWhile (fun b => decide (b.offset < start))
      = opening :: (inner ++ closing :: later) := by
    rw [hbraces, List.dropWhile_append_of_pos (by simpa using hearly), List.dropWhile_cons_of_neg]
    simpa using hstart
  have hfind : (inner ++ closing :: later).find?
      (fun b => !b.opens && b.depth == opening.depth - 1) = some closing := by
    rw [List.find?_append, List.find?_eq_none.mpr, Option.none_or]
    · -- the closing brace restores the depth
      apply List.find?_cons_of_pos
      rw [hcloses, ← hdepth]
      simp
    · -- none inside does
      intro b hb hmatch
      have hdeep := hinner b hb
      simp only [Bool.and_eq_true, beq_iff_eq] at hmatch
      omega
  rw [CodeMap.blockFrom, hdrop, List.dropWhile_cons_of_neg (by simp [hopens])]
  show some (Span.mk _ _) = _
  rw [hfind]
  rfl

/-- **The block that opens behind a text is the one whose head stands there.** -/
theorem blockFrom_leaves {w inside : List Char} (h : Leaves k u) (hw : Flat w)
    (hinside : Balanced inside) (rest : List Char) :
    (CodeMap.ofText (u ++ (w ++ '{' :: (inside ++ '}' :: rest)))).blockFrom (byteLength u)
      = some (insideOf (u ++ w) inside) := by
  obtain ⟨bs, hbraces, hbefore, -, -⟩ := braces_leaves h (w ++ '{' :: (inside ++ '}' :: rest))
  obtain ⟨spans, hspans, -⟩ := hw.crossed (byteLength u) k ('{' :: (inside ++ '}' :: rest))
  obtain ⟨marks, hmarks, hcrossed⟩ :=
    hinside.crossed (byteLength u + byteLength w + 1) (k + 1) ('}' :: rest)
  -- the braces behind `u`: the opening one, those inside, and the closing one
  rw [hspans, bracesOf, List.filterMap_append, ← bracesOf, bracesOf_map_quiet, List.nil_append,
    marksFrom_open, hmarks, marksFrom_close] at hbraces
  generalize marksFrom 0 _ _ rest = later at hbraces
  have hsplit : (CodeMap.ofText (u ++ (w ++ '{' :: (inside ++ '}' :: rest)))).braces
      = bs ++ ⟨byteLength u + byteLength w, true, k + 1⟩ :: (bracesOf marks
        ++ ⟨byteLength u + byteLength w + 1 + byteLength inside, false, k⟩ :: bracesOf later) := by
    rw [hbraces]
    refine congrArg (bs ++ _ :: ·) ?_
    exact List.filterMap_append
  rw [blockFrom_of_braces hsplit hbefore (Nat.le_add_right _ _) rfl hcrossed.deep rfl rfl, insideOf,
    byteLength_append]

end Questions

end Scan

end Scaffold

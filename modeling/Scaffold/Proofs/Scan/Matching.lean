/-
Scaffold/Proofs/Scan/Matching.lean

A block ends where its braces are matched.

A map keeps for each brace the depth it leaves behind, which never goes below
zero, and a block is looked up by comparing such depths.  Here the look-up is
compared with counting the braces of the text itself:

* `codeChars` — the characters of a part of a text that stand in code;
* `ClosedAt` — a closing brace in code, with balanced braces in front of it;
* `map_char_bracesIn` — the recorded braces between two offsets are those of
  the text in code;
* `closedAt_iff` — the first recorded brace that restores the depth is the
  only one that balances the braces counted from zero;
* `MatchedBlock` — what a block is, told without recorded depths.

`blockFrom_matches_braces` is that the look-up finds such a block, or nothing
where no brace opens, and that two blocks are nested or apart.
-/
import Scaffold.Proofs.Scan.Depth

namespace Scaffold

open Text

namespace Scan

/-! ### Braces in code -/

/-- A character stands in code at an offset. -/
def CodeAt (cs : List Char) (offset : Nat) (c : Char) : Prop :=
  (∃ u v, cs = u ++ c :: v ∧ byteLength u = offset)
    ∧ (CodeMap.ofText cs).isCode offset = true

/-- The characters in code of a part of a text; the part begins at `offset`. -/
def codeChars (map : CodeMap) : (offset : Nat) → List Char → List Char
  | _, [] => []
  | offset, c :: cs =>
    if map.isCode offset then c :: codeChars map (offset + c.utf8Size) cs
    else codeChars map (offset + c.utf8Size) cs

/-- The braces in code between two offsets of a text are balanced. -/
def BalancedBetween (cs : List Char) (start stop : Nat) : Prop :=
  PairsBraces (codeChars (CodeMap.ofText cs) start (slice start stop cs))

/-- The first opening brace in code at `start` or later. -/
structure FirstOpening (cs : List Char) (start offset : Nat) : Prop where
  le : start ≤ offset
  opens : CodeAt cs offset '{'
  first : ∀ n, start ≤ n → n < offset → ¬ CodeAt cs n '{'

/-- A closing brace in code at `start` or later, the braces between being balanced. -/
structure ClosedAt (cs : List Char) (start stop : Nat) : Prop where
  le : start ≤ stop
  closes : CodeAt cs stop '}'
  balanced : BalancedBetween cs start stop

/-- The block of the first opening brace from an offset on. -/
structure MatchedBlock (cs : List Char) (start : Nat) (span : Span) : Prop where
  opening : ∃ offset, FirstOpening cs start offset ∧ span.start = offset + 1
  /-- It ends at the first closing brace that balances the braces of the inside, or with the text
  where there is none. -/
  closing : (ClosedAt cs span.start span.stop ∧ ∀ n < span.stop, ¬ ClosedAt cs span.start n)
    ∨ (span.stop = byteLength cs ∧ ∀ n, ¬ ClosedAt cs span.start n)
  /-- Everything inside is deeper than the opening brace. -/
  deeper : ∀ n, span.start ≤ n → n ≤ span.stop →
    (CodeMap.ofText cs).depthAt (span.start - 1) < (CodeMap.ofText cs).depthAt n
  /-- Behind the closing brace the depth is that of the opening one. -/
  restored : ClosedAt cs span.start span.stop →
    (CodeMap.ofText cs).depthAt (span.stop + 1) = (CodeMap.ofText cs).depthAt (span.start - 1)

end Scan

/-- A span inside another. -/
def Span.Within (s t : Span) : Prop := t.start ≤ s.start ∧ s.stop ≤ t.stop

/-- Spans with nothing in common. -/
def Span.Apart (s t : Span) : Prop := s.stop ≤ t.start ∨ t.stop ≤ s.start

namespace Scan

/-! ### Recorded braces and the text -/

/-- A brace. -/
def isBrace (c : Char) : Bool := c == '{' || c == '}'

theorem isBrace_iff {c : Char} : isBrace c = true ↔ c = '{' ∨ c = '}' := by
  rw [isBrace, Bool.or_eq_true, beq_iff_eq, beq_iff_eq]

/-- Only braces count. -/
theorem braceDepth?_filter (depth : Nat) (cs : List Char) :
    braceDepth? depth (cs.filter isBrace) = braceDepth? depth cs := by
  induction cs generalizing depth with
  | nil => rfl
  | cons c cs ih =>
    by_cases hc : isBrace c = true
    · rw [List.filter_cons_of_pos hc, braceDepth?_cons, braceDepth?_cons]
      exact congrArg _ (funext ih)
    · have hstep : braceStep? depth c = some depth := by
        rw [isBrace_iff, not_or] at hc
        rw [braceStep?, if_neg hc.1, if_neg hc.2]
      rw [List.filter_cons_of_neg hc, braceDepth?_cons, hstep, Option.bind_some, ih]

/-- A map tells of the rest of a text what the automaton reads in it, from a mode on. -/
structure Scans (map : CodeMap) (m : Mode) (offset : Nat) (cs : List Char) : Prop where
  fits : ∀ b ∈ nextClass cs, m.Fits b
  code : ∀ n, map.isCode (offset + n) = true
    ↔ modeAt m (textClasses cs) n = .code ∧ opensAt (textClasses cs) n = false

theorem scans_ofText (cs : List Char) : Scans (CodeMap.ofText cs) .code 0 cs where
  fits := fits_code cs
  code n := by rw [Nat.zero_add, isCode_iff]

section Rest

variable {map : CodeMap} {m : Mode} {offset : Nat} {c : Char} {cs : List Char}

theorem Scans.tail (h : Scans map m offset (c :: cs)) :
    Scans map (m.step (.ofChar c) (nextClass cs)) (offset + c.utf8Size) cs where
  fits := fits_step m _ _
  code n := by
    rw [Nat.add_assoc, h.code, textClasses_cons, modeAt_charClasses, opensAt_charClasses,
      head?_textClasses]

/-- A brace is in code where the automaton is, since no comment or string opens with one. -/
theorem Scans.isCode_brace (h : Scans map m offset (c :: cs)) (hc : isBrace c = true) :
    map.isCode offset = true ↔ m = .code := by
  have hcode := h.code 0
  rw [Nat.add_zero] at hcode
  rw [hcode]
  rcases isBrace_iff.mp hc with rfl | rfl
  · exact and_iff_left rfl
  · exact and_iff_left rfl

/-- The brace that is recorded at a character, if any. -/
theorem Scans.map_char_marksAt (h : Scans map m offset (c :: cs)) (depth : Nat) :
    (bracesOf (marksAt m offset depth c cs)).map Brace.char
      = (if map.isCode offset then [c] else []).filter isBrace := by
  by_cases hc : isBrace c = true
  · have hcode := h.isCode_brace hc
    rw [bracesOf_marksAt]
    -- a brace counts in code alone
    by_cases hm : m = .code
    · rw [if_pos (hcode.mpr hm), List.filter_cons_of_pos hc]
      rcases isBrace_iff.mp hc with rfl | rfl
      · rw [if_pos ⟨hm, rfl⟩]
        rfl
      · rw [if_neg (fun h => absurd h.2 (by decide)), if_pos ⟨hm, rfl⟩]
        rfl
    · rw [if_neg (fun h => hm h.1), if_neg (fun h => hm h.1), if_neg (fun h => hm (hcode.mp h))]
      rfl
  · have hne := not_or.mp (fun hb => hc (isBrace_iff.mpr hb))
    rw [bracesOf_marksAt, if_neg (fun h => hne.1 h.2), if_neg (fun h => hne.2 h.2)]
    split_ifs
    · -- no brace in code
      rw [List.filter_cons_of_neg hc]
      rfl
    · rfl

/-- The braces of two parts of a text. -/
theorem Scans.split {u v : List Char} (h : Scans map m offset (u ++ v)) (depth : Nat) :
    ∃ as m' depth', bracesOf (marksIn m offset depth (u ++ v))
        = as ++ bracesOf (marksIn m' (offset + byteLength u) depth' v)
      ∧ Scans map m' (offset + byteLength u) v
      ∧ (∀ a ∈ as, a.offset < offset + byteLength u)
      ∧ as.map Brace.char = (codeChars map offset u).filter isBrace := by
  induction u generalizing m offset depth with
  | nil => exact ⟨[], m, depth, rfl, h, by simp, rfl⟩
  | cons c u ih =>
    obtain ⟨as, m', depth', hbraces, hscans, hbefore, hchars⟩ :=
      ih h.tail (m.count depth (.ofChar c))
    have hlast : offset + c.utf8Size + byteLength u = offset + byteLength (c :: u) :=
      Nat.add_assoc _ _ _
    have hhead : (bracesOf (marksAt m offset depth c (u ++ v))).map Brace.char
        = (if map.isCode offset then [c] else []).filter isBrace := h.map_char_marksAt depth
    rw [hlast] at hbraces hscans hbefore
    refine ⟨bracesOf (marksAt m offset depth c (u ++ v)) ++ as, m', depth', ?_, hscans, ?_, ?_⟩
    · rw [List.append_assoc, ← hbraces]
      show bracesOf (marksFrom (m.remaining (c :: (u ++ v))) offset depth (c :: (u ++ v))) = _
      rw [marksFrom_cons offset depth (h.fits _ rfl)]
      exact List.filterMap_append
    · intro a ha
      rcases List.mem_append.mp ha with ha | ha
      · have hpos := c.utf8Size_pos
        rw [bracesOf_marksAt] at ha
        rw [byteLength_cons]
        split_ifs at ha <;> simp at ha <;> subst ha <;> simp only <;> omega
      · exact hbefore a ha
    · rw [List.map_append, hhead, hchars, codeChars, ← List.filter_append]
      split_ifs <;> rfl

end Rest

/-- The braces a map records between two offsets. -/
def bracesIn (map : CodeMap) (start stop : Nat) : List Brace :=
  map.braces.filter fun b => decide (start ≤ b.offset) && decide (b.offset < stop)

/-- The recorded braces of three parts of a text. -/
theorem bracesIn_of_append {map : CodeMap} {start stop : Nat} {before inside behind : List Brace}
    (hbraces : map.braces = before ++ (inside ++ behind)) (hbefore : ∀ b ∈ before, b.offset < start)
    (hinside : ∀ b ∈ inside, start ≤ b.offset ∧ b.offset < stop)
    (hbehind : ∀ b ∈ behind, stop ≤ b.offset) : bracesIn map start stop = inside := by
  rw [bracesIn, hbraces, List.filter_append, List.filter_append, List.filter_eq_nil_iff.mpr,
    List.filter_eq_self.mpr, List.filter_eq_nil_iff.mpr, List.append_nil, List.nil_append]
  · -- behind
    intro b hb
    have := hbehind b hb
    simp only [Bool.and_eq_true, decide_eq_true_eq]
    omega
  · -- inside
    intro b hb
    simpa using hinside b hb
  · -- in front
    intro b hb
    have := hbefore b hb
    simp only [Bool.and_eq_true, decide_eq_true_eq]
    omega

/-- **The recorded braces between two offsets are those of the text in code.** -/
theorem map_char_bracesIn {cs u w x : List Char} (hcs : cs = u ++ (w ++ x)) :
    (bracesIn (CodeMap.ofText cs) (byteLength u) (byteLength (u ++ w))).map Brace.char
      = (codeChars (CodeMap.ofText cs) (byteLength u) w).filter isBrace := by
  have hscans := scans_ofText cs
  have hall := braces_ofText cs
  generalize CodeMap.ofText cs = map at hscans hall ⊢
  subst hcs
  obtain ⟨as, m, depth, hbraces, hrest, hbefore, -⟩ := hscans.split 0
  obtain ⟨bs, m', depth', hbraces', hrest', hinside, hchars⟩ := hrest.split depth
  rw [Nat.zero_add] at hbraces hrest hbefore hbraces' hrest' hinside hchars
  rw [← hchars, byteLength_append]
  refine congrArg _ (bracesIn_of_append (by rw [hall, hbraces, hbraces']) hbefore ?_ ?_)
  · intro b hb
    refine ⟨(@braces_range m _ depth _ hrest.fits b ?_).1, hinside b hb⟩
    rw [hbraces']
    exact List.mem_append_left _ hb
  · exact fun b hb => (braces_range hrest'.fits b hb).1

/-- **A brace is recorded exactly where it stands in code.** -/
theorem codeAt_iff {cs : List Char} {n : Nat} {c : Char} (hc : isBrace c = true) :
    CodeAt cs n c ↔ ∃ b ∈ (CodeMap.ofText cs).braces, b.offset = n ∧ Brace.char b = c := by
  have hone : ∀ u v, cs = u ++ c :: v →
      (bracesIn (CodeMap.ofText cs) (byteLength u) (byteLength (u ++ [c]))).map Brace.char
        = (if (CodeMap.ofText cs).isCode (byteLength u) then [c] else []).filter isBrace :=
    fun u v hcs => map_char_bracesIn (w := [c]) hcs
  have hsize : c.utf8Size = 1 := by rcases isBrace_iff.mp hc with rfl | rfl <;> rfl
  have hlength : ∀ u, byteLength (u ++ [c]) = byteLength u + 1 := fun u => by
    rw [byteLength_append, byteLength_cons, hsize]
    rfl
  constructor
  · -- a brace in code is the one mark of its character
    rintro ⟨⟨u, v, hcs, rfl⟩, hcode⟩
    have hchars := hone u v hcs
    rw [if_pos hcode, List.filter_cons_of_pos hc] at hchars
    obtain ⟨b, hb, hchar⟩ := List.mem_map.mp (hchars ▸ List.mem_singleton_self c)
    obtain ⟨hmem, hoffset⟩ := List.mem_filter.mp hb
    simp only [Bool.and_eq_true, decide_eq_true_eq, hlength] at hoffset
    exact ⟨b, hmem, by omega, hchar⟩
  · -- outside code the character has no mark
    rintro ⟨b, hmem, rfl, rfl⟩
    obtain ⟨u, v, hcs, hoffset, -⟩ := brace_at (fits_code cs) b hmem
    rw [Nat.zero_add] at hoffset
    refine ⟨⟨u, v, hcs, hoffset.symm⟩, ?_⟩
    rw [hoffset]
    by_contra hcode
    have hchars := hone u v hcs
    rw [if_neg hcode] at hchars
    have hin : b ∈ bracesIn (CodeMap.ofText cs) (byteLength u)
        (byteLength (u ++ [Brace.char b])) := by
      refine List.mem_filter.mpr ⟨hmem, ?_⟩
      simp only [Bool.and_eq_true, decide_eq_true_eq, hlength]
      omega
    exact absurd (hchars ▸ List.mem_map_of_mem hin) List.not_mem_nil

/-! ### Depths and counting -/

theorem depthBehind_cons (depth : Nat) (b : Brace) (bs : List Brace) :
    depthBehind depth (b :: bs) = depthBehind b.depth bs := by
  rw [← List.singleton_append, depthBehind_append]
  rfl

theorem Nests.append_left {d : Nat} {as bs : List Brace} (h : Nests d (as ++ bs)) : Nests d as := by
  induction as generalizing d with
  | nil => trivial
  | cons a as ih => exact ⟨h.1, ih h.2⟩

theorem lt_depthAmong {outer depth n : Nat} {bs : List Brace} (h : outer < depth)
    (hbs : ∀ b ∈ bs, b.offset < n → outer < b.depth) : outer < depthAmong depth bs n := by
  induction bs generalizing depth with
  | nil => exact h
  | cons b bs ih =>
    obtain ⟨hb, hbs⟩ := List.forall_mem_cons.mp hbs
    rw [depthAmong_cons]
    split_ifs with hlt
    · exact ih (hb hlt) hbs
    · exact h

/-- A brace that closes a block of depth `depth`, by what is recorded. -/
def Restores (depth : Nat) (b : Brace) : Prop := b.opens = false ∧ b.depth = depth

/-- As long as no brace restores the depth in front of a block, the recorded depths are those of
counting from zero inside the block, `depth + 1` higher. -/
theorem exists_braceDepth?_of_not_restores {depth k : Nat} {as : List Brace}
    (h : Nests (depth + 1 + k) as) (hnot : ∀ a ∈ as, ¬ Restores depth a) :
    (∃ d, braceDepth? k (as.map Brace.char) = some d
      ∧ depthBehind (depth + 1 + k) as = depth + 1 + d) ∧ ∀ a ∈ as, depth < a.depth := by
  induction as generalizing k with
  | nil => exact ⟨⟨k, rfl, rfl⟩, by simp⟩
  | cons a as ih =>
    obtain ⟨hdepth, hrest⟩ := h
    obtain ⟨hnota, hnot⟩ := List.forall_mem_cons.mp hnot
    obtain ⟨j, hstep, hj⟩ : ∃ j, braceStep? k (Brace.char a) = some j ∧ a.depth = depth + 1 + j := by
      rcases hopens : a.opens with - | -
      · -- a brace that closes, but not down to `depth`
        rw [hopens, if_neg Bool.false_ne_true] at hdepth
        have hk : k ≠ 0 := by
          rintro rfl
          exact hnota ⟨hopens, by omega⟩
        refine ⟨k - 1, ?_, by omega⟩
        rw [Brace.char, hopens]
        exact if_neg hk
      · -- a brace that opens
        rw [hopens, if_pos rfl] at hdepth
        refine ⟨k + 1, ?_, by omega⟩
        rw [Brace.char, hopens]
        rfl
    rw [hj] at hrest
    obtain ⟨⟨d, hd, hbehind⟩, hdeep⟩ := ih hrest hnot
    refine ⟨⟨d, ?_, ?_⟩, List.forall_mem_cons.mpr ⟨by omega, hdeep⟩⟩
    · rw [List.map_cons, braceDepth?_cons, hstep, Option.bind_some, hd]
    · rw [depthBehind_cons, hj, hbehind]

/-- Where the count from zero inside a block does not go below zero, no brace restores the depth in
front of it. -/
theorem not_restores_of_braceDepth? {depth k d : Nat} {as : List Brace}
    (h : Nests (depth + 1 + k) as) (hcount : braceDepth? k (as.map Brace.char) = some d) :
    ∀ a ∈ as, ¬ Restores depth a := by
  induction as generalizing k with
  | nil => simp
  | cons a as ih =>
    obtain ⟨hdepth, hrest⟩ := h
    rw [List.map_cons, braceDepth?_cons] at hcount
    obtain ⟨j, hstep, hcount⟩ := Option.bind_eq_some_iff.mp hcount
    have hj : a.depth = depth + 1 + j := by
      rcases hopens : a.opens with - | -
      · rw [Brace.char, hopens] at hstep
        rw [hopens, if_neg Bool.false_ne_true] at hdepth
        change (if k = 0 then none else some (k - 1)) = some j at hstep
        split_ifs at hstep
        obtain rfl := Option.some.inj hstep
        omega
      · rw [Brace.char, hopens] at hstep
        rw [hopens, if_pos rfl] at hdepth
        obtain rfl := Option.some.inj hstep
        omega
    refine List.forall_mem_cons.mpr ⟨fun hrestores => ?_, ih (hj ▸ hrest) hcount⟩
    have := hrestores.2
    omega

/-- **A closing brace balances what is in front of it in a block exactly if it is the first that
restores the depth.** -/
theorem pairsBraces_iff {depth : Nat} {as : List Brace} {b : Brace}
    (h : Nests (depth + 1) (as ++ [b])) (hcloses : b.opens = false) :
    PairsBraces (as.map Brace.char) ↔ Restores depth b ∧ ∀ a ∈ as, ¬ Restores depth a := by
  have hnests : Nests (depth + 1 + 0) as := h.append_left
  have hlast : b.depth = depthBehind (depth + 1) as - 1 := by
    have hb := h.append_right.1
    rwa [hcloses, if_neg Bool.false_ne_true] at hb
  constructor
  · -- braces that pair never come down to `depth` on the way
    intro hpairs
    have hnot := not_restores_of_braceDepth? hnests hpairs
    obtain ⟨⟨d, hd, hbehind⟩, -⟩ := exists_braceDepth?_of_not_restores hnests hnot
    obtain rfl : (0 : Nat) = d := Option.some.inj (hpairs.symm.trans hd)
    exact ⟨⟨hcloses, by rw [hlast]; exact congrArg (· - 1) hbehind⟩, hnot⟩
  · -- what never comes down to `depth`, and then does, pairs
    rintro ⟨⟨-, hrestores⟩, hnot⟩
    obtain ⟨⟨d, hd, hbehind⟩, -⟩ := exists_braceDepth?_of_not_restores hnests hnot
    have hbehind' : depthBehind (depth + 1) as = depth + 1 + d := hbehind
    obtain rfl : d = 0 := by omega
    exact hd

/-- The first brace that restores a depth. -/
def restoring? (depth : Nat) (bs : List Brace) : Option Brace :=
  bs.find? fun b => !b.opens && b.depth == depth

theorem restoring?_eq_some_iff {depth : Nat} {bs : List Brace} {b : Brace} :
    restoring? depth bs = some b ↔ Restores depth b
      ∧ ∃ as later, bs = as ++ b :: later ∧ ∀ a ∈ as, ¬ Restores depth a := by
  have hrestores : ∀ b : Brace, (!b.opens && b.depth == depth) = true ↔ Restores depth b := by
    simp [Restores]
  rw [restoring?, List.find?_eq_some_iff_append]
  simp only [Bool.not_eq_true', ← Bool.not_eq_true, hrestores]

theorem restoring?_eq_none_iff {depth : Nat} {bs : List Brace} :
    restoring? depth bs = none ↔ ∀ b ∈ bs, ¬ Restores depth b := by
  rw [restoring?, List.find?_eq_none]
  simp [Restores]

/-- **What restores the depth in front of a block first is what balances the braces in it.** -/
theorem restoring?_eq_some_iff_pairs {depth : Nat} {rest : List Brace} {b : Brace}
    (h : Nests (depth + 1) rest) :
    restoring? depth rest = some b
      ↔ ∃ as later, rest = as ++ b :: later ∧ b.opens = false ∧ PairsBraces (as.map Brace.char) := by
  have hnests : ∀ {as later : List Brace}, rest = as ++ b :: later →
      Nests (depth + 1) (as ++ [b]) := by
    rintro as later rfl
    rw [List.append_cons] at h
    exact h.append_left
  rw [restoring?_eq_some_iff]
  constructor
  · rintro ⟨hb, as, later, hrest, hnot⟩
    exact ⟨as, later, hrest, hb.1, (pairsBraces_iff (hnests hrest) hb.1).mpr ⟨hb, hnot⟩⟩
  · rintro ⟨as, later, hrest, hcloses, hpairs⟩
    obtain ⟨hb, hnot⟩ := (pairsBraces_iff (hnests hrest) hcloses).mp hpairs
    exact ⟨hb, as, later, hrest, hnot⟩

/-! ### The braces around an opening one -/

/-- The braces of a text around an opening one. -/
structure OpensAmong (cs : List Char) (before : List Brace) (opening : Brace) (rest : List Brace) :
    Prop where
  braces_eq : (CodeMap.ofText cs).braces = before ++ opening :: rest
  opens : opening.opens = true

namespace OpensAmong

variable {cs : List Char} {before rest : List Brace} {opening : Brace}

theorem before_lt (h : OpensAmong cs before opening rest) :
    ∀ b ∈ before, b.offset < opening.offset := by
  have hsorted : (CodeMap.ofText cs).braces.Pairwise (fun a b => a.offset < b.offset) :=
    braces_pairwise (fits_code cs)
  rw [h.braces_eq] at hsorted
  exact fun b hb => (List.pairwise_append.mp hsorted).2.2 b hb opening List.mem_cons_self

theorem pairwise_rest (h : OpensAmong cs before opening rest) :
    (opening :: rest).Pairwise (fun a b => a.offset < b.offset) := by
  have hsorted : (CodeMap.ofText cs).braces.Pairwise (fun a b => a.offset < b.offset) :=
    braces_pairwise (fits_code cs)
  rw [h.braces_eq] at hsorted
  exact (List.pairwise_append.mp hsorted).2.1

/-- The depth in front of the brace is one less than the one behind it. -/
theorem depth_eq (h : OpensAmong cs before opening rest) :
    opening.depth = (CodeMap.ofText cs).depthAt opening.offset + 1 := by
  have hnest : Nests 0 (CodeMap.ofText cs).braces := nests_marksIn (fits_code cs)
  rw [h.braces_eq] at hnest
  have hdepth := hnest.append_right.1
  rw [if_pos h.opens] at hdepth
  show _ = depthAmong 0 (CodeMap.ofText cs).braces opening.offset + 1
  rw [h.braces_eq, depthAmong_append h.before_lt, depthAmong_cons, if_neg (Nat.lt_irrefl _), hdepth]

theorem nests_rest (h : OpensAmong cs before opening rest) :
    Nests (opening.depth - 1 + 1) rest := by
  have hnest : Nests 0 (CodeMap.ofText cs).braces := nests_marksIn (fits_code cs)
  rw [h.braces_eq] at hnest
  rw [h.depth_eq, Nat.add_sub_cancel, ← h.depth_eq]
  exact hnest.append_right.2

/-- The depth behind the brace, up to an offset. -/
theorem depthAt_eq (h : OpensAmong cs before opening rest) {n : Nat} (hn : opening.offset < n) :
    (CodeMap.ofText cs).depthAt n = depthAmong opening.depth rest n := by
  show depthAmong 0 (CodeMap.ofText cs).braces n = _
  rw [h.braces_eq, depthAmong_append fun b hb => (h.before_lt b hb).trans hn, depthAmong_cons,
    if_pos hn]

/-- The text between the opening brace and a later one. -/
theorem text_between (h : OpensAmong cs before opening rest) {b : Brace} (hb : b ∈ rest) :
    ∃ u w v, cs = u ++ (w ++ v) ∧ opening.offset + 1 = byteLength u
      ∧ b.offset = byteLength (u ++ w) := by
  have hat : ∀ b ∈ (CodeMap.ofText cs).braces, ∃ u v, cs = u ++ Brace.char b :: v
      ∧ b.offset = 0 + byteLength u ∧ modeAt .code (textClasses cs) (byteLength u) = .code :=
    brace_at (fits_code cs)
  rw [h.braces_eq] at hat
  obtain ⟨u, v, hcs, hoffset, -⟩ := hat opening (by simp)
  obtain ⟨u', v', hcs', hoffset', -⟩ := hat b (by simp [hb])
  rw [Nat.zero_add] at hoffset hoffset'
  have hstart : opening.offset + 1 = byteLength (u ++ [Brace.char opening]) := by
    rw [hoffset, byteLength_append, Brace.char, if_pos h.opens]
    rfl
  have hlt := (List.pairwise_cons.mp h.pairwise_rest).1 b hb
  obtain ⟨w, rfl, -⟩ := eq_append_of_byteLength_le
    (show (u ++ [Brace.char opening]) ++ v = u' ++ Brace.char b :: v' by
      rw [← hcs', hcs, List.append_assoc, List.singleton_append])
    (by omega)
  exact ⟨_, w, Brace.char b :: v', by rw [hcs', List.append_assoc], hstart, hoffset'⟩

/-- The recorded braces between the opening brace and a later one. -/
theorem bracesIn_between (h : OpensAmong cs before opening rest) {as later : List Brace}
    {b : Brace} (hrest : rest = as ++ b :: later) :
    bracesIn (CodeMap.ofText cs) (opening.offset + 1) b.offset = as := by
  have hsorted := h.pairwise_rest
  rw [hrest, List.pairwise_cons] at hsorted
  obtain ⟨hlt, hsorted⟩ := hsorted
  obtain ⟨-, hlater, hfront⟩ := List.pairwise_append.mp hsorted
  have hbraces : (CodeMap.ofText cs).braces = (before ++ [opening]) ++ (as ++ b :: later) := by
    rw [h.braces_eq, hrest, List.append_cons]
  refine bracesIn_of_append hbraces ?_ ?_ ?_
  · -- up to the opening brace
    intro a ha
    rcases List.mem_append.mp ha with ha | ha
    · exact (h.before_lt a ha).trans (Nat.lt_succ_self _)
    · rw [List.mem_singleton.mp ha]
      exact Nat.lt_succ_self _
  · -- between the two
    intro a ha
    exact ⟨hlt a (by simp [ha]), hfront a ha b List.mem_cons_self⟩
  · -- from the closing brace on
    intro a ha
    rcases List.mem_cons.mp ha with rfl | ha
    · exact Nat.le_refl _
    · exact Nat.le_of_lt ((List.pairwise_cons.mp hlater).1 a ha)

/-- The braces of the text between the opening brace and a later one are balanced if the recorded
ones are. -/
theorem balancedBetween_iff (h : OpensAmong cs before opening rest) {as later : List Brace}
    {b : Brace} (hrest : rest = as ++ b :: later) :
    BalancedBetween cs (opening.offset + 1) b.offset ↔ PairsBraces (as.map Brace.char) := by
  obtain ⟨u, w, v, hcs, hstart, hstop⟩ := h.text_between (by simp [hrest] : b ∈ rest)
  have hslice : slice (byteLength u) (byteLength (u ++ w)) cs = w := by
    rw [hcs, byteLength_append, slice_of_append]
  have hin := h.bracesIn_between hrest
  rw [hstart, hstop] at hin
  rw [BalancedBetween, hstart, hstop, hslice, PairsBraces, PairsBraces, ← braceDepth?_filter,
    ← map_char_bracesIn hcs, hin]

/-- **A block is closed where the recorded depth in front of it is restored first.** -/
theorem closedAt_iff (h : OpensAmong cs before opening rest) {stop : Nat} :
    ClosedAt cs (opening.offset + 1) stop
      ↔ (restoring? (opening.depth - 1) rest).map (·.offset) = some stop := by
  have hlt := (List.pairwise_cons.mp h.pairwise_rest).1
  rw [Option.map_eq_some_iff]
  constructor
  · -- the brace that closes is the first to restore the depth
    rintro ⟨hle, hcloses, hbalanced⟩
    obtain ⟨b, hmem, rfl, hchar⟩ := (codeAt_iff (by decide)).mp hcloses
    have hclosing : b.opens = false := by
      rw [← Bool.not_eq_true]
      intro hopens
      rw [Brace.char, if_pos hopens] at hchar
      exact absurd hchar (by decide)
    have hrest : b ∈ rest := by
      rw [h.braces_eq] at hmem
      rcases List.mem_append.mp hmem with hmem | hmem
      · have := h.before_lt b hmem
        omega
      · rcases List.mem_cons.mp hmem with rfl | hmem
        · omega
        · exact hmem
    obtain ⟨as, later, hsplit⟩ := List.append_of_mem hrest
    exact ⟨b, (restoring?_eq_some_iff_pairs h.nests_rest).mpr
      ⟨as, later, hsplit, hclosing, (h.balancedBetween_iff hsplit).mp hbalanced⟩, rfl⟩
  · -- the first brace to restore the depth closes
    rintro ⟨b, hfind, rfl⟩
    obtain ⟨as, later, hsplit, hclosing, hpairs⟩ :=
      (restoring?_eq_some_iff_pairs h.nests_rest).mp hfind
    have hmem : b ∈ rest := by simp [hsplit]
    refine ⟨hlt b hmem, (codeAt_iff (by decide)).mpr ⟨b, ?_, rfl, ?_⟩,
      (h.balancedBetween_iff hsplit).mpr hpairs⟩
    · rw [h.braces_eq]
      exact List.mem_append_right _ (List.mem_cons_of_mem _ hmem)
    · rw [Brace.char, if_neg (by simp [hclosing])]

/-- Up to the first brace that restores the depth, everything behind the opening brace is deeper. -/
theorem lt_depthAt (h : OpensAmong cs before opening rest) {n : Nat} (hn : opening.offset < n)
    (hnot : ∀ b ∈ rest, b.offset < n → ¬ Restores (opening.depth - 1) b) :
    (CodeMap.ofText cs).depthAt opening.offset < (CodeMap.ofText cs).depthAt n := by
  have hdepth := h.depth_eq
  rw [h.depthAt_eq hn]
  refine lt_depthAmong (by omega) fun b hb hlt => ?_
  obtain ⟨as, later, hrest⟩ := List.append_of_mem hb
  have hsorted := (List.pairwise_cons.mp h.pairwise_rest).2
  rw [hrest] at hsorted
  obtain ⟨-, -, hbefore⟩ := List.pairwise_append.mp hsorted
  rw [List.append_cons] at hrest
  have hnests : Nests (opening.depth - 1 + 1 + 0) (as ++ [b]) :=
    Nests.append_left (hrest ▸ h.nests_rest)
  have hdeep := (exists_braceDepth?_of_not_restores hnests fun a ha => hnot a ?_ ?_).2 b (by simp)
  · rwa [hdepth, Nat.add_sub_cancel] at hdeep
  · rw [hrest]
    exact List.mem_append_left _ ha
  · rcases List.mem_append.mp ha with ha | ha
    · exact (hbefore a ha b List.mem_cons_self).trans hlt
    · rw [List.mem_singleton.mp ha]
      exact hlt

section Restoring

variable {closing : Brace}

/-- No brace in front of the first one that restores the depth does. -/
theorem le_offset_of_restores (h : OpensAmong cs before opening rest)
    (hfirst : restoring? (opening.depth - 1) rest = some closing) {b : Brace} (hb : b ∈ rest)
    (hrestores : Restores (opening.depth - 1) b) : closing.offset ≤ b.offset := by
  obtain ⟨-, as, later, rfl, hnot⟩ := restoring?_eq_some_iff.mp hfirst
  have hsorted := (List.pairwise_cons.mp h.pairwise_rest).2
  obtain ⟨-, hlater, -⟩ := List.pairwise_append.mp hsorted
  rcases List.mem_append.mp hb with hb | hb
  · exact absurd hrestores (hnot b hb)
  · rcases List.mem_cons.mp hb with rfl | hb
    · exact Nat.le_refl _
    · exact Nat.le_of_lt ((List.pairwise_cons.mp hlater).1 b hb)

/-- Behind the brace that restores the depth, it is restored. -/
theorem depthAt_behind (h : OpensAmong cs before opening rest)
    (hfirst : restoring? (opening.depth - 1) rest = some closing) :
    (CodeMap.ofText cs).depthAt (closing.offset + 1)
      = (CodeMap.ofText cs).depthAt opening.offset := by
  obtain ⟨⟨-, hdepth⟩, as, later, rfl, -⟩ := restoring?_eq_some_iff.mp hfirst
  obtain ⟨hlt, hsorted⟩ := List.pairwise_cons.mp h.pairwise_rest
  obtain ⟨-, hlater, hfront⟩ := List.pairwise_append.mp hsorted
  have hbefore : ∀ a ∈ as, a.offset < closing.offset + 1 := fun a ha =>
    (hfront a ha closing List.mem_cons_self).trans (Nat.lt_succ_self _)
  rw [h.depthAt_eq ((hlt closing (by simp)).trans (Nat.lt_succ_self _)), depthAmong_append hbefore,
    depthAmong_cons, if_pos (Nat.lt_succ_self _), depthAmong_of_le (List.pairwise_cons.mp hlater).1,
    hdepth, h.depth_eq, Nat.add_sub_cancel]

end Restoring

/-- **The block of an opening brace ends where the depth in front of it is restored.** -/
theorem matchedBlock {start : Nat} (h : OpensAmong cs before opening rest)
    (hopening : FirstOpening cs start opening.offset) :
    MatchedBlock cs start ⟨opening.offset + 1,
      ((restoring? (opening.depth - 1) rest).map (·.offset)).getD (byteLength cs)⟩ := by
  have hclosed := fun n => @closedAt_iff _ _ _ _ h n
  rcases hfirst : restoring? (opening.depth - 1) rest with - | closing
  · -- nothing restores the depth
    have hopen : ∀ n, ¬ ClosedAt cs (opening.offset + 1) n := by simpa [hfirst] using hclosed
    refine ⟨⟨opening.offset, hopening, rfl⟩, .inr ⟨rfl, hopen⟩, fun n hn _ => ?_,
      fun hc => absurd hc (hopen _)⟩
    exact h.lt_depthAt hn fun b hb _ => restoring?_eq_none_iff.mp hfirst b hb
  · -- `closing` is the first that does
    have hclosing : ∀ n, ClosedAt cs (opening.offset + 1) n ↔ closing.offset = n := by
      simpa [hfirst] using hclosed
    refine ⟨⟨opening.offset, hopening, rfl⟩,
      .inl ⟨(hclosing _).mpr rfl, fun n hn hc => Nat.ne_of_gt hn ((hclosing n).mp hc)⟩,
      fun n hn hle => h.lt_depthAt hn fun b hb hlt hrestores => ?_,
      fun _ => h.depthAt_behind hfirst⟩
    exact Nat.lt_irrefl _ ((hlt.trans_le hle).trans_le (h.le_offset_of_restores hfirst hb hrestores))

end OpensAmong

/-! ### Blocks -/

/-- The opening braces in code from an offset on are the ones a search looks at. -/
theorem codeAt_opening_iff {cs : List Char} {start n : Nat} :
    start ≤ n ∧ CodeAt cs n '{'
      ↔ ∃ b ∈ (CodeMap.ofText cs).braces.dropWhile (fun b => decide (b.offset < start)),
        b.opens = true ∧ b.offset = n := by
  have hsorted : (CodeMap.ofText cs).braces.Pairwise (fun a b => a.offset < b.offset) :=
    braces_pairwise (fits_code cs)
  have hchar : ∀ b : Brace, Brace.char b = '{' ↔ b.opens = true := by
    intro b
    rw [Brace.char]
    split_ifs with hopens
    · simp [hopens]
    · simp [hopens]
  rw [codeAt_iff (by decide)]
  constructor
  · rintro ⟨hle, b, hb, rfl, hb'⟩
    exact ⟨b, (mem_dropWhile_offset_iff hsorted).mpr ⟨hb, hle⟩, (hchar b).mp hb', rfl⟩
  · rintro ⟨b, hb, hopens, rfl⟩
    obtain ⟨hmem, hle⟩ := (mem_dropWhile_offset_iff hsorted).mp hb
    exact ⟨hle, b, hmem, rfl, (hchar b).mpr hopens⟩

theorem blockFrom_eq_none_iff {cs : List Char} {start : Nat} :
    (CodeMap.ofText cs).blockFrom start = none ↔ ∀ n, start ≤ n → ¬ CodeAt cs n '{' := by
  have hnone : (CodeMap.ofText cs).blockFrom start = none
      ↔ ((CodeMap.ofText cs).braces.dropWhile (fun b => decide (b.offset < start))).dropWhile
        (fun b => !b.opens) = [] := by
    rw [CodeMap.blockFrom]
    split <;> simp_all
  rw [hnone, List.dropWhile_eq_nil_iff]
  constructor
  · intro h n hle hn
    obtain ⟨b, hb, hopens, -⟩ := codeAt_opening_iff.mp ⟨hle, hn⟩
    simpa [hopens] using h b hb
  · intro h b hb
    rw [Bool.not_eq_true', ← Bool.not_eq_true]
    intro hopens
    obtain ⟨hle, hn⟩ := codeAt_opening_iff.mpr ⟨b, hb, hopens, rfl⟩
    exact h _ hle hn

theorem matchedBlock_of_blockFrom {cs : List Char} {start : Nat} {span : Span}
    (h : (CodeMap.ofText cs).blockFrom start = some span) : MatchedBlock cs start span := by
  obtain ⟨early, closing, opening, rest, hsplit, hearly, hclosing, hopens, rfl⟩ :=
    blockFrom_cases h
  have hdrop : (CodeMap.ofText cs).braces.dropWhile (fun b => decide (b.offset < start))
      = closing ++ opening :: rest := by
    have happend := List.takeWhile_append_dropWhile
      (p := fun b : Brace => decide (b.offset < start)) (l := (CodeMap.ofText cs).braces)
    rw [← hearly, hsplit] at happend
    rw [hsplit]
    exact List.append_cancel_left happend
  have hamong : OpensAmong cs (early ++ closing) opening rest :=
    ⟨by rw [hsplit, List.append_assoc], hopens⟩
  obtain ⟨hle, hcode⟩ := codeAt_opening_iff.mpr
    ⟨opening, by rw [hdrop]; simp, hopens, rfl⟩
  refine hamong.matchedBlock ⟨hle, hcode, fun n hn hlt hbrace => ?_⟩
  -- an earlier opening brace would be among those the search passes over
  obtain ⟨b, hb, hb', rfl⟩ := codeAt_opening_iff.mp ⟨hn, hbrace⟩
  rw [hdrop] at hb
  rcases List.mem_append.mp hb with hb | hb
  · rw [hclosing b hb] at hb'
    cases hb'
  · rcases List.mem_cons.mp hb with rfl | hb
    · exact Nat.lt_irrefl _ hlt
    · exact Nat.lt_asymm hlt ((List.pairwise_cons.mp hamong.pairwise_rest).1 b hb)

theorem CodeAt.lt {cs : List Char} {n : Nat} {c : Char} (h : CodeAt cs n c) :
    n < byteLength cs := by
  obtain ⟨⟨u, v, rfl, rfl⟩, -⟩ := h
  have := c.utf8Size_pos
  rw [byteLength_append, byteLength_cons]
  omega

namespace MatchedBlock

variable {cs : List Char} {start start' : Nat} {a b : Span}

theorem stop_le (h : MatchedBlock cs start a) : a.stop ≤ byteLength cs := by
  rcases h.closing with ⟨hclosed, -⟩ | ⟨hstop, -⟩
  · exact Nat.le_of_lt hclosed.closes.lt
  · exact Nat.le_of_eq hstop

/-- A block that opens inside another ends there. -/
theorem stop_le_of_opens_inside (ha : MatchedBlock cs start a) (hb : MatchedBlock cs start' b)
    (hlt : a.start < b.start) (hinside : b.start ≤ a.stop) : b.stop ≤ a.stop := by
  rcases ha.closing with ⟨hclosed, -⟩ | ⟨hstop, -⟩
  · -- otherwise the depth behind `a` were that in front of `a`, and deeper than that in front of `b`
    by_contra hover
    have hrestored := ha.restored hclosed
    have hdeeper := ha.deeper (b.start - 1) (by omega) (by omega)
    have hdeeper' := hb.deeper (a.stop + 1) (by omega) (by omega)
    omega
  · rw [hstop]
    exact hb.stop_le

/-- The opening brace of a block decides where it ends. -/
theorem stop_eq (ha : MatchedBlock cs start a) (hb : MatchedBlock cs start' b)
    (heq : a.start = b.start) : a.stop = b.stop := by
  have hb' := hb.closing
  rw [← heq] at hb'
  rcases ha.closing with ⟨hclosed, hfirst⟩ | ⟨hstop, hopen⟩
  · rcases hb' with ⟨hclosed', hfirst'⟩ | ⟨-, hopen'⟩
    · rcases Nat.lt_trichotomy a.stop b.stop with hlt | heq | hlt
      · exact absurd hclosed (hfirst' _ hlt)
      · exact heq
      · exact absurd hclosed' (hfirst _ hlt)
    · exact absurd hclosed (hopen' _)
  · rcases hb' with ⟨hclosed', -⟩ | ⟨hstop', -⟩
    · exact absurd hclosed' (hopen _)
    · rw [hstop, hstop']

theorem within_or_apart_of_le (ha : MatchedBlock cs start a) (hb : MatchedBlock cs start' b)
    (hle : a.start ≤ b.start) : b.Within a ∨ a.Apart b := by
  rcases Nat.eq_or_lt_of_le hle with heq | hlt
  · exact .inl ⟨hle, Nat.le_of_eq (ha.stop_eq hb heq).symm⟩
  · by_cases hinside : b.start ≤ a.stop
    · exact .inl ⟨hle, ha.stop_le_of_opens_inside hb hlt hinside⟩
    · exact .inr (.inl (Nat.le_of_not_le hinside))

/-- Two blocks of a text are nested or apart. -/
theorem within_or_apart (ha : MatchedBlock cs start a) (hb : MatchedBlock cs start' b) :
    a.Within b ∨ b.Within a ∨ a.Apart b := by
  rcases Nat.le_total a.start b.start with hle | hle
  · exact .inr (ha.within_or_apart_of_le hb hle)
  · rcases hb.within_or_apart_of_le ha hle with hin | hapart
    · exact .inl hin
    · exact .inr (.inr hapart.symm)

end MatchedBlock

/-- **Blocks are found by matching braces.** -/
theorem blockFrom_matches_braces (source : String) :
    (∀ start, ((CodeMap.ofText source.toList).blockFrom start = none
          ↔ ∀ n, start ≤ n → ¬ CodeAt source.toList n '{')
        ∧ ∀ span ∈ (CodeMap.ofText source.toList).blockFrom start,
          MatchedBlock source.toList start span)
      ∧ ∀ start start', ∀ a ∈ (CodeMap.ofText source.toList).blockFrom start,
        ∀ b ∈ (CodeMap.ofText source.toList).blockFrom start',
          a.Within b ∨ b.Within a ∨ a.Apart b :=
  ⟨fun _ => ⟨blockFrom_eq_none_iff, fun _ => matchedBlock_of_blockFrom⟩,
    fun _ _ _ ha _ hb => (matchedBlock_of_blockFrom ha).within_or_apart
      (matchedBlock_of_blockFrom hb)⟩

end Scan

end Scaffold

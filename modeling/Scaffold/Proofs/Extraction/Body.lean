/-
Scaffold/Proofs/Extraction/Body.lean

The methods of a class depend on the text of its body alone.

Everything a body is asked for its methods is asked at an offset inside it: is
a name in code, how deep is it in braces and parentheses, where does a
parenthesis close.  Inside a block the map answers as it does for the block
standing alone (`isCode_in_block`, `depthAt_in_block`), the offsets moved by
what stands in front.  So each step is compared with the same step in the body
standing alone (`ClassBody.alone`), and the methods come out equal
(`methods_within`).

The classes of an outline are among the findings, and what is found is what some
match stands for (`StandsFor`).
-/
import Mathlib.Data.List.Basic
import Scaffold.Extraction
import Scaffold.Proofs.Pattern.Ways
import Scaffold.Proofs.Scan.Block
import Scaffold.Proofs.Text.Boundary

namespace Scaffold

open Text Scan

/-! ### Parentheses -/

section Parentheses

variable {map map' : CodeMap} {d offset : Nat} {cs : List Char}

theorem parenDepths_shift (depth : Nat)
    (h : ∀ n, offset ≤ n → n < offset + byteLength cs → map.isCode (d + n) = map'.isCode n) :
    parenDepths map (d + offset) depth cs
      = (parenDepths map' offset depth cs).map (fun p => (d + p.1, p.2)) := by
  induction cs generalizing offset depth with
  | nil => rfl
  | cons c cs ih =>
    rw [byteLength_cons] at h
    have hpos := c.utf8Size_pos
    have hhere := h offset (Nat.le_refl _) (by omega)
    have hrest : ∀ depth, parenDepths map (d + (offset + c.utf8Size)) depth cs
        = (parenDepths map' (offset + c.utf8Size) depth cs).map (fun p => (d + p.1, p.2)) :=
      fun depth => ih depth (fun n h1 h2 => h n (by omega) (by omega))
    rw [parenDepths, parenDepths, hhere, Nat.add_assoc]
    split_ifs
    · -- an opening parenthesis in code
      rw [hrest]
      rfl
    · -- a closing one
      rw [hrest]
      rfl
    · -- any other character
      exact hrest depth

theorem parenDepthAt_shift (depths : List (Nat × Nat)) (n : Nat) :
    parenDepthAt (depths.map (fun p => (d + p.1, p.2))) (d + n) = parenDepthAt depths n := by
  have htake : (depths.map (fun p => (d + p.1, p.2))).takeWhile (fun p => decide (p.1 < d + n))
      = (depths.takeWhile (fun p => decide (p.1 < n))).map (fun p => (d + p.1, p.2)) := by
    rw [List.takeWhile_map]
    refine congrArg (List.map _) (congrArg (List.takeWhile · _) (funext fun p => ?_))
    simp
  rw [parenDepthAt, parenDepthAt, htake, List.getLast?_map]
  cases (depths.takeWhile (fun p => decide (p.1 < n))).getLast? <;> rfl

theorem closingParen_shift (depth : Nat)
    (h : ∀ n, offset ≤ n → n < offset + byteLength cs → map.isCode (d + n) = map'.isCode n) :
    closingParen map (d + offset) depth cs
      = (closingParen map' offset depth cs).map (fun n => d + n) := by
  induction cs generalizing offset depth with
  | nil => rfl
  | cons c cs ih =>
    rw [byteLength_cons] at h
    have hpos := c.utf8Size_pos
    have hhere := h offset (Nat.le_refl _) (by omega)
    have hrest : ∀ depth, closingParen map (d + (offset + c.utf8Size)) depth cs
        = (closingParen map' (offset + c.utf8Size) depth cs).map (fun n => d + n) :=
      fun depth => ih depth (fun n h1 h2 => h n (by omega) (by omega))
    rw [closingParen, closingParen, hhere, Nat.add_assoc]
    split_ifs
    · exact hrest depth
    · exact hrest _
    · rfl
    · exact hrest _
    · exact hrest depth

theorem closingParen_at {depth n : Nat} (h : closingParen map offset depth cs = some n) :
    ∃ u v, cs = u ++ ')' :: v ∧ n = offset + byteLength u := by
  induction cs generalizing offset depth with
  | nil => cases h
  | cons c cs ih =>
    have hrest : ∀ {depth}, closingParen map (offset + c.utf8Size) depth cs = some n →
        ∃ u v, c :: cs = u ++ ')' :: v ∧ n = offset + byteLength u := by
      intro depth h
      obtain ⟨u, v, rfl, rfl⟩ := ih h
      exact ⟨c :: u, v, rfl, by rw [byteLength_cons, Nat.add_assoc]⟩
    rw [closingParen] at h
    split_ifs at h with h1 h2 h3 h4
    · exact hrest h
    · exact hrest h
    · -- the parenthesis that closes
      exact ⟨[], cs, by rw [h3]; rfl, (Option.some.inj h).symm⟩
    · exact hrest h
    · exact hrest h

/-- A closing parenthesis is code. -/
theorem isCode_closingParen {depth n : Nat} (h : closingParen map offset depth cs = some n) :
    map.isCode n = true := by
  induction cs generalizing offset depth with
  | nil => cases h
  | cons c cs ih =>
    rw [closingParen] at h
    split_ifs at h with h1 h2 h3 h4
    · exact ih h
    · exact ih h
    · obtain rfl := Option.some.inj h
      simpa using h1
    · exact ih h
    · exact ih h

theorem parenDepths_no_paren {depth : Nat} {b : List Char} (h : ∀ c ∈ b, c ≠ '(' ∧ c ≠ ')') :
    parenDepths map offset depth (b ++ cs) = parenDepths map (offset + byteLength b) depth cs := by
  induction b generalizing offset with
  | nil => rfl
  | cons c b ih =>
    obtain ⟨hopen, hclose⟩ := h c List.mem_cons_self
    rw [List.cons_append, parenDepths, if_neg (fun h => hopen h.1), if_neg (fun h => hclose h.1),
      ih (fun d hd => h d (List.mem_cons_of_mem _ hd)), byteLength_cons, Nat.add_assoc]

theorem le_of_mem_parenDepths {depth : Nat} {p : Nat × Nat}
    (h : p ∈ parenDepths map offset depth cs) : offset ≤ p.1 := by
  induction cs generalizing offset depth with
  | nil => cases h
  | cons c cs ih =>
    have hrest : ∀ {depth}, p ∈ parenDepths map (offset + c.utf8Size) depth cs → offset ≤ p.1 :=
      fun h => Nat.le_trans (Nat.le_add_right _ _) (ih h)
    rw [parenDepths] at h
    split_ifs at h
    · rcases List.mem_cons.mp h with rfl | h
      · exact Nat.le_refl _
      · exact hrest h
    · rcases List.mem_cons.mp h with rfl | h
      · exact Nat.le_refl _
      · exact hrest h
    · exact hrest h

/-- While no parenthesis is closed, the depth is above the one in front. -/
theorem lt_of_mem_takeWhile_parenDepths {depth : Nat} {u v : List Char} (hu : ')' ∉ u)
    {p : Nat × Nat} (h : p ∈ (parenDepths map offset depth (u ++ v)).takeWhile
      (fun d => decide (d.1 < offset + byteLength u))) : depth < p.2 := by
  induction u generalizing offset depth with
  | nil =>
    have hle := le_of_mem_parenDepths ((List.takeWhile_prefix _).subset h)
    have hlt := List.mem_takeWhile_imp h
    rw [byteLength_nil, Nat.add_zero, decide_eq_true_eq] at hlt
    exact absurd hle (Nat.not_le_of_lt hlt)
  | cons c u ih =>
    obtain ⟨hc, hu⟩ := not_or.mp (mt List.mem_cons.mpr hu)
    rw [byteLength_cons, ← Nat.add_assoc] at h
    rw [List.cons_append, parenDepths,
      if_neg (fun h : c = ')' ∧ map.isCode offset = true => hc h.1.symm)] at h
    split_ifs at h
    · have hlt : offset < offset + c.utf8Size + byteLength u := by
        have := c.utf8Size_pos
        omega
      rw [List.takeWhile_cons_of_pos (by simpa using hlt)] at h
      rcases List.mem_cons.mp h with rfl | h
      · exact Nat.lt_succ_self depth
      · exact Nat.lt_of_succ_lt (ih hu h)
    · exact ih hu h

/-- **Behind the first parenthesis of a text, while none is closed, one is open.** -/
theorem parenDepthAt_pos {w u v : List Char} (hw : ∀ c ∈ w, c ≠ '(' ∧ c ≠ ')') (hu : ')' ∉ u)
    (hcode : map.isCode (offset + byteLength w) = true) :
    0 < parenDepthAt (parenDepths map offset 0 (w ++ '(' :: (u ++ v)))
      (offset + byteLength (w ++ '(' :: u)) := by
  have hlen : offset + byteLength (w ++ '(' :: u)
      = offset + byteLength w + '('.utf8Size + byteLength u := by
    rw [byteLength_append, byteLength_cons]
    omega
  have hlt : offset + byteLength w < offset + byteLength w + '('.utf8Size + byteLength u := by
    have := '('.utf8Size_pos
    omega
  rw [parenDepths_no_paren hw, parenDepths, if_pos ⟨rfl, hcode⟩, hlen, parenDepthAt,
    List.takeWhile_cons_of_pos (by simpa using hlt)]
  cases hlast : List.getLast? (_ :: _) with
  | none => simp at hlast
  | some p =>
    rcases List.mem_cons.mp (List.mem_of_getLast? hlast) with rfl | hp
    · -- the last one recorded is the opening parenthesis itself
      exact Nat.one_pos
    · -- the last one recorded is in `u`, which closes nothing
      exact Nat.lt_of_succ_lt (lt_of_mem_takeWhile_parenDepths hu hp)

end Parentheses

/-! ### Heads -/

/-- A match that ends with an opening parenthesis; what it captured ends before that. -/
structure IsHead (text : List Char) (m : Pattern.Match) (u v : List Char) : Prop where
  text_eq : text = u ++ '(' :: v
  stop_eq : m.span.stop = byteLength u + 1
  capture_le : ∀ slot s, m.capture? slot = some s → s.start ≤ byteLength u

theorem isHead_of_matchAt? (ps : List Pattern) {u v : List Char} {m : Pattern.Match}
    (hm : (Pattern.inOrder (ps ++ [.char '('])).matchAt? (Cursor.between u v) = some m) :
    ∃ w x, v = w ++ '(' :: x ∧ IsHead (u ++ v) m (u ++ w) x := by
  obtain ⟨t, ht, rfl⟩ := Pattern.exists_of_matchAt? hm
  obtain ⟨r, c, cs, hr, hrest, hc, rfl⟩ := Pattern.Leads.before_last ht
  obtain rfl : c = '(' := by simpa using hc
  obtain ⟨w, kept, hv, hcur, hcap, hin⟩ := hr
  rw [hrest] at hv hcur
  rw [Cursor.between_rest] at hv
  have hoff : r.cursor.offset = byteLength (u ++ w) := by
    rw [hcur]
    simp [byteLength_append]
  refine ⟨w, cs, hv, by rw [hv, List.append_assoc], ?_, ?_⟩
  · -- the match ends behind the parenthesis
    show (r.cursor.behind ['('] cs).offset = _
    rw [Cursor.behind_offset, hoff]
    rfl
  · -- what is captured ends in front of it
    intro slot s hs
    obtain ⟨x, hx, rfl⟩ := Option.map_eq_some_iff.mp hs
    have hmem := List.mem_of_find?_eq_some hx
    rw [hcap, List.append_nil] at hmem
    obtain ⟨-, hspan, hstop⟩ := hin x hmem
    omega

theorem isHead_of_mem (ps : List Pattern) {text : List Char} {m : Pattern.Match}
    (h : m ∈ (Pattern.inOrder (ps ++ [.char '('])).findAll text) : ∃ u v, IsHead text m u v := by
  obtain ⟨u, v, rfl, hm⟩ := Pattern.mem_findAll h
  obtain ⟨w, x, -, hhead⟩ := isHead_of_matchAt? ps hm
  exact ⟨u ++ w, x, hhead⟩

namespace ClassBody

/-- The body between the opening brace after `front` and what stands behind `inside`. -/
def within (cs front inside : List Char) : ClassBody where
  source := cs
  map := .ofText cs
  span := insideOf front inside

/-- A body standing alone, in a text that is its opening brace and itself. -/
def alone (inside : List Char) : ClassBody := within ('{' :: inside) [] inside

/-- A body standing alone is a block. -/
theorem block_alone (inside : List Char) : Block ('{' :: inside) [] inside [] where
  text_eq := by simp
  mode_eq := by
    rw [textClasses_cons]
    rfl
  depth_eq := depthBefore_zero _ _ _
  back_head := by simp

/-! ### One step in a body and in the body alone -/

section Within

variable {cs front inside back : List Char} {m : Pattern.Match} {u v : List Char}

/-- A slice of the whole text that lies inside, from the beginning of a character on. -/
theorem slice_inside (h : Block cs front inside back) {x y : List Char} (hin : inside = x ++ y)
    {n : Nat} (hn : n ≤ 1 + byteLength inside) :
    slice (byteLength front + (1 + byteLength x)) (byteLength front + n) cs
      = slice (1 + byteLength x) n ('{' :: inside) := by
  rw [h.text_eq, hin]
  exact slice_within front ('{' :: x) y back (by rw [List.cons_append, ← hin]; exact hn)

/-- The rest of the inside. -/
theorem slice_rest (h : Block cs front inside back) {x y : List Char} (hin : inside = x ++ y) :
    slice (byteLength front + (1 + byteLength x)) (byteLength front + (1 + byteLength inside)) cs
      = y := by
  rw [slice_inside h hin (Nat.le_refl _), hin, byteLength_append, ← Nat.add_assoc]
  have := slice_of_append ('{' :: x) y []
  rwa [List.append_nil] at this

@[simp] theorem text_within (h : Block cs front inside back) :
    (within cs front inside).text = inside := by
  rw [(within cs front inside).text_eq]
  show slice (byteLength front + 1) (byteLength front + 1 + byteLength inside) cs = inside
  rw [Nat.add_assoc]
  exact slice_rest h (x := []) rfl

@[simp] theorem text_alone (inside : List Char) : (alone inside).text = inside :=
  text_within (block_alone inside)

theorem isCode_within (h : Block cs front inside back) {n : Nat} (hn : n ≤ byteLength inside) :
    (within cs front inside).map.isCode (byteLength front + n) = (alone inside).map.isCode n :=
  isCode_in_block h (Nat.lt_of_le_of_lt hn (by
    rw [byteLength_cons]
    exact Nat.lt_add_of_pos_left (by decide)))

theorem depthAt_within (h : Block cs front inside back) {n : Nat} (hn : n ≤ byteLength inside + 1) :
    (within cs front inside).map.depthAt (byteLength front + n) = (alone inside).map.depthAt n :=
  depthAt_in_block h (by rw [byteLength_cons, Nat.add_comm]; exact hn)

theorem parens_within (h : Block cs front inside back) :
    (within cs front inside).parens
      = (alone inside).parens.map (fun p => (byteLength front + p.1, p.2)) := by
  rw [ClassBody.parens_eq, ClassBody.parens_eq, text_within h, text_alone]
  refine parenDepths_shift 0 fun n _ hn => isCode_within h ?_
  have : n < 1 + byteLength inside := hn
  omega

theorem isMember_within (h : Block cs front inside back) (hm : IsHead inside m u v) :
    (within cs front inside).isMember m = (alone inside).isMember m := by
  have hlen : byteLength inside = byteLength u + (1 + byteLength v) := by
    rw [hm.text_eq, byteLength_append]
    rfl
  rw [isMember, isMember]
  rcases hname : m.capture? .name with - | name
  · rfl
  · have hle := hm.capture_le _ _ hname
    have hoff : (within cs front inside).span.start + name.start
        = byteLength front + (1 + name.start) := Nat.add_assoc _ _ _
    have halone : (alone inside).span.start + name.start = 1 + name.start := rfl
    have hstart : (within cs front inside).map.depthAt (within cs front inside).span.start
        = (alone inside).map.depthAt (alone inside).span.start :=
      depthAt_within h (by omega)
    simp only [hoff, halone, hstart, text_within h, text_alone, parens_within h,
      parenDepthAt_shift,
      isCode_within h (show 1 + name.start ≤ byteLength inside by omega),
      depthAt_within h (show 1 + name.start ≤ byteLength inside + 1 by omega)]

/-- The parameters after a head and the text behind them are parts of the inside. -/
theorem parametersAfter_within (h : Block cs front inside back) (hm : IsHead inside m u v) :
    (within cs front inside).parametersAfter m
      = (closingParen (alone inside).map (1 + byteLength u) 0 ('(' :: v)).map fun n =>
          (slice (1 + byteLength u + 1) n ('{' :: inside),
            slice (n + 1) (1 + byteLength inside) ('{' :: inside)) := by
  have hopen : (within cs front inside).span.start + m.span.stop - 1
      = byteLength front + (1 + byteLength u) := by
    rw [hm.stop_eq]
    show byteLength front + 1 + (byteLength u + 1) - 1 = _
    omega
  have hstop : (within cs front inside).span.stop = byteLength front + (1 + byteLength inside) :=
    Nat.add_assoc _ _ _
  have hclose : closingParen (within cs front inside).map (byteLength front + (1 + byteLength u)) 0
        ('(' :: v)
      = (closingParen (alone inside).map (1 + byteLength u) 0 ('(' :: v)).map
          (fun n => byteLength front + n) := by
    refine closingParen_shift 0 fun n _ hn => isCode_within h ?_
    rw [hm.text_eq, byteLength_append]
    omega
  rw [parametersAfter, hopen, hstop]
  show (closingParen _ _ 0 (slice _ _ cs)).map _ = _
  rw [slice_rest h hm.text_eq, hclose, Option.map_map]
  refine Option.map_congr fun n hn => ?_
  obtain ⟨w, y, hw, rfl⟩ := closingParen_at hn
  have hlen : byteLength inside = byteLength u + (byteLength w + (1 + byteLength y)) := by
    rw [hm.text_eq, hw, byteLength_append, byteLength_append]
    rfl
  -- the slices begin right after a parenthesis
  have hopened : inside = (u ++ ['(']) ++ v := by
    rw [hm.text_eq]
    simp
  have hclosed : inside = (u ++ w ++ [')']) ++ y := by
    rw [hm.text_eq, hw]
    simp
  have hparams := slice_inside h hopened
    (show 1 + byteLength u + byteLength w ≤ 1 + byteLength inside by omega)
  have hbehind := slice_inside h hclosed (Nat.le_refl _)
  have hu : byteLength (u ++ ['(']) = byteLength u + 1 := byteLength_append _ _
  have hw : byteLength (u ++ w ++ [')']) = byteLength u + byteLength w + 1 := by
    rw [byteLength_append, byteLength_append]
    rfl
  rw [hu] at hparams
  rw [hw] at hbehind
  refine Prod.ext ?_ ?_
  · show slice (byteLength front + (1 + byteLength u) + 1)
        (byteLength front + (1 + byteLength u + byteLength w)) cs = _
    simpa only [Nat.add_assoc] using hparams
  · show slice (byteLength front + (1 + byteLength u + byteLength w) + 1)
        (byteLength front + (1 + byteLength inside)) cs = _
    simpa only [Nat.add_assoc] using hbehind

/-- The parameters after a head end where its parenthesis is closed, and the rest of the inside
follows. -/
theorem parts_of_parametersAfter (h : Block cs front inside back) (hm : IsHead inside m u v)
    {parameters rest : List Char}
    (hparams : (within cs front inside).parametersAfter m = some (parameters, rest)) :
    v = parameters ++ ')' :: rest
      ∧ closingParen (.ofText cs) (byteLength (front ++ '{' :: u)) 0 ('(' :: v)
        = some (byteLength (front ++ '{' :: u) + byteLength ('(' :: parameters)) := by
  have hopening : (within cs front inside).span.start + m.span.stop - 1
      = byteLength (front ++ '{' :: u) := by
    rw [hm.stop_eq, byteLength_append]
    show byteLength front + 1 + (byteLength u + 1) - 1 = byteLength front + (1 + byteLength u)
    omega
  have hstop : (within cs front inside).span.stop = byteLength (front ++ '{' :: u ++ '(' :: v) := by
    rw [List.append_assoc, List.cons_append, ← hm.text_eq, byteLength_append]
    exact Nat.add_assoc _ _ _
  have hbody : slice (byteLength (front ++ '{' :: u)) (byteLength (front ++ '{' :: u ++ '(' :: v)) cs
      = '(' :: v := by
    rw [h.text_eq, hm.text_eq, byteLength_append (front ++ '{' :: u)]
    simpa using slice_of_append (front ++ '{' :: u) ('(' :: v) back
  rw [parametersAfter, hopening, hstop] at hparams
  change (closingParen (.ofText cs) _ 0 (slice _ _ cs)).map _ = _ at hparams
  rw [hbody] at hparams
  obtain ⟨n, hclosing, hslices⟩ := Option.map_eq_some_iff.mp hparams
  obtain ⟨x, y, hx, rfl⟩ := closingParen_at hclosing
  cases x with
  | nil => cases (List.cons.inj hx).1
  | cons d w =>
    obtain ⟨rfl, hv⟩ := List.cons.inj hx
    rw [List.append_eq] at hv
    have hcs : cs = (front ++ '{' :: u) ++ ('(' :: w ++ ')' :: y ++ back) := by
      rw [h.text_eq, hm.text_eq, hv]
      simp
    obtain ⟨hparameters, hrest⟩ := slices_around hcs
    rw [List.cons_append, ← hv, ← byteLength_append _ ('(' :: v)] at hrest
    obtain ⟨rfl, rfl⟩ := Prod.mk.inj hslices
    change v = slice _ _ cs ++ ')' :: slice _ _ cs ∧ _ = some (_ + byteLength ('(' :: slice _ _ cs))
    rw [slice_eq_of_slice? hparameters, slice_eq_of_slice? hrest]
    exact ⟨hv, hclosing⟩

theorem member?_within (h : Block cs front inside back) (hm : IsHead inside m u v)
    (tail : Pattern) :
    (within cs front inside).member? tail m
      = ((alone inside).member? tail m).map (fun x => (byteLength front + x.1, x.2)) := by
  have hparams : (within cs front inside).parametersAfter m = (alone inside).parametersAfter m := by
    rw [parametersAfter_within h hm]
    exact (parametersAfter_within (block_alone inside) hm).symm
  have hstart : ∀ name : Span, (within cs front inside).span.start + name.start
      = byteLength front + ((alone inside).span.start + name.start) := by
    intro name
    show byteLength front + 1 + name.start = byteLength front + (0 + 1 + name.start)
    omega
  rw [member?, member?, isMember_within h hm, hparams, text_within h, text_alone]
  simp only [hstart]
  split_ifs
  · rcases (alone inside).parametersAfter m with - | ⟨parameters, rest⟩
    · rfl
    · rcases m.capture? .name with - | name
      · rfl
      · show (if tail.leads rest then _ else none)
          = Option.map _ (if tail.leads rest then _ else none)
        split_ifs <;> rfl
  · rfl

/-! ### All methods of a body -/

theorem plainMethods_within (h : Block cs front inside back) :
    (within cs front inside).plainMethods
      = (alone inside).plainMethods.map (fun x => (byteLength front + x.1, x.2)) := by
  rw [plainMethods, plainMethods, text_within h, text_alone, List.map_filterMap]
  refine List.filterMap_congr fun m hm => ?_
  obtain ⟨u, v, hhead⟩ := isHead_of_mem [_, _, _, _, _, _, _] hm
  split_ifs
  · rfl
  · exact member?_within h hhead _

theorem fieldMethods_within (h : Block cs front inside back) :
    (within cs front inside).fieldMethods
      = (alone inside).fieldMethods.map (fun x => (byteLength front + x.1, x.2)) := by
  rw [fieldMethods, fieldMethods, text_within h, text_alone, List.map_filterMap]
  refine List.filterMap_congr fun m hm => ?_
  obtain ⟨u, v, hhead⟩ := isHead_of_mem [_, _, _, _, _, _] hm
  exact member?_within h hhead _

/-- **The methods of a body are those of the body standing alone.** -/
theorem methods_within (h : Block cs front inside back) :
    (within cs front inside).methods = (alone inside).methods := by
  rw [methods, methods, plainMethods_within h, fieldMethods_within h, ← List.map_append,
    ← List.map_mergeSort (r := fun x y => decide (x.1 ≤ y.1)), List.map_map]
  · rfl
  · intro x _ y _
    simp

end Within

end ClassBody

/-! ### What a match stands for -/

/-- What a match stands for, by the recognizer that reads it. -/
inductive StandsFor (source : List Char) (m : Pattern.Match) : Recognizer → Found → Prop
  | functionKeyword (hplace : inExpression source m.span.start = false) :
      StandsFor source m .functionKeyword (.function (Recognizer.functionOf source m))
  | boundFunction : StandsFor source m .boundFunction (.function (Recognizer.functionOf source m))
  | classKeyword (hname : String.ofList (m.text .name source) ∉ heritageWords) :
      StandsFor source m .classKeyword
        (.classNamed (String.ofList (m.text .name source)) m.span.start)
  | exportedDeclaration (hname : String.ofList (m.text .name source) ∉ heritageWords) :
      StandsFor source m .exportedDeclaration
        (.exporting ⟨String.ofList (m.text .name source), m.has .defaultMark, m.span.start⟩)
  | exportedName (hname : String.ofList (m.text .name source) ∉ nonNames) :
      StandsFor source m .exportedName
        (.exporting ⟨String.ofList (m.text .name source), true, m.span.start⟩)
  | exportedList {entry : List Char} {e : ExportItem} (htype : m.has .typeMark = false)
      (hentry : entry ∈ splitWhere (· == ',') (m.text .entries source))
      (hlisted : listedExport? entry m.span.start = some e) :
      StandsFor source m .exportedList (.exporting e)

/-- **What a recognizer reads off a match is what the match stands for.** -/
theorem standsFor_of_mem_read {r : Recognizer} {source : List Char} {m : Pattern.Match} {f : Found}
    (h : f ∈ r.read source m) : StandsFor source m r f := by
  cases r with
  | functionKeyword =>
    obtain ⟨hplace, hf⟩ := List.mem_ite_nil_left.mp h
    obtain rfl := List.mem_singleton.mp hf
    exact .functionKeyword (Bool.eq_false_iff.mpr hplace)
  | boundFunction =>
    obtain rfl := List.mem_singleton.mp h
    exact .boundFunction
  | classKeyword =>
    obtain ⟨hname, hf⟩ := List.mem_ite_nil_left.mp h
    obtain rfl := List.mem_singleton.mp hf
    exact .classKeyword (by simpa using hname)
  | exportedDeclaration =>
    obtain ⟨hname, hf⟩ := List.mem_ite_nil_left.mp h
    obtain rfl := List.mem_singleton.mp hf
    exact .exportedDeclaration (by simpa using hname)
  | exportedName =>
    obtain ⟨hname, hf⟩ := List.mem_ite_nil_left.mp h
    obtain rfl := List.mem_singleton.mp hf
    exact .exportedName (by simpa using hname)
  | exportedList =>
    obtain ⟨htype, hf⟩ := List.mem_ite_nil_left.mp h
    obtain ⟨entry, hentry, hlisted⟩ := List.mem_filterMap.mp hf
    obtain ⟨e, he, rfl⟩ := Option.map_eq_some_iff.mp hlisted
    exact .exportedList (Bool.eq_false_iff.mpr htype) hentry he

/-! ### The classes of an outline -/

theorem offset_of_classNamed_mem {r : Recognizer} {source : List Char} {m : Pattern.Match}
    {name : String} {offset : Nat} (h : Found.classNamed name offset ∈ r.read source m) :
    offset = m.span.start := by
  cases standsFor_of_mem_read h
  rfl

/-- A class of an outline is one of the findings, with the methods of its body. -/
theorem classNamed_mem_findings {recognizers : List Recognizer} {source : String} {c : ClassItem}
    (hc : c ∈ (extractWith recognizers source).classes) :
    .classNamed c.name c.offset ∈ findings recognizers source.toList (.ofText source.toList)
      ∧ c.methods = bodyMethods source.toList (.ofText source.toList)
          (bodySpan source.toList (.ofText source.toList) c.offset) := by
  obtain ⟨f, hf, hclass⟩ := List.mem_filterMap.mp (List.mem_mergeSort.mp hc)
  cases f with
  | classNamed name offset =>
    cases hclass
    exact ⟨hf, rfl⟩
  | function f => cases hclass
  | exporting e => cases hclass

/-- A class of an outline begins outside all braces, and its methods are those of its body. -/
theorem class_of_mem {recognizers : List Recognizer} {source : String} {c : ClassItem}
    (hc : c ∈ (extractWith recognizers source).classes) :
    (CodeMap.ofText source.toList).isTopLevel c.offset = true
      ∧ c.methods = bodyMethods source.toList (.ofText source.toList)
          (bodySpan source.toList (.ofText source.toList) c.offset) := by
  obtain ⟨hfound, hmethods⟩ := classNamed_mem_findings hc
  refine ⟨?_, hmethods⟩
  obtain ⟨r, -, hfind⟩ := List.mem_flatMap.mp hfound
  obtain ⟨m, -, hread⟩ := List.mem_flatMap.mp hfind
  split_ifs at hread with htop
  · rw [offset_of_classNamed_mem hread]
    exact htop
  · cases hread

/-- The body of what begins outside all braces is a block. -/
theorem block_of_bodySpan {cs : List Char} {offset : Nat} {span : Span}
    (hdepth : (CodeMap.ofText cs).depthAt offset = 0)
    (hspan : bodySpan cs (.ofText cs) offset = some span) :
    ∃ front inside back, Block cs front inside back ∧ span = insideOf front inside := by
  obtain ⟨body, hblock, hbody⟩ := Option.bind_eq_some_iff.mp hspan
  split_ifs at hbody
  obtain rfl := Option.some.inj hbody
  exact block_parts hdepth hblock

theorem isTopLevel_iff {map : CodeMap} {offset : Nat} :
    map.isTopLevel offset = true ↔ map.isCode offset = true ∧ map.depthAt offset = 0 := by
  rw [CodeMap.isTopLevel, Bool.and_eq_true, beq_iff_eq]

theorem depthAt_of_isTopLevel {map : CodeMap} {offset : Nat} (h : map.isTopLevel offset = true) :
    map.depthAt offset = 0 :=
  (isTopLevel_iff.mp h).2

/-- The methods in the body of what begins outside all braces are those of the body standing
alone. -/
theorem bodyMethods_eq_alone {cs : List Char} {offset : Nat} {span : Span}
    (hdepth : (CodeMap.ofText cs).depthAt offset = 0)
    (hspan : bodySpan cs (.ofText cs) offset = some span) :
    bodyMethods cs (.ofText cs) (some span)
      = (ClassBody.alone (slice span.start span.stop cs)).methods := by
  obtain ⟨front, inside, back, h, rfl⟩ := block_of_bodySpan hdepth hspan
  have hslice : slice (insideOf front inside).start (insideOf front inside).stop cs = inside :=
    ClassBody.text_within h
  rw [hslice]
  exact ClassBody.methods_within h

/-- The methods of a class with a body are those of its body standing alone. -/
theorem methods_eq_alone {source : String} {c : ClassItem} (hc : c ∈ (extract source).classes)
    {span : Span} (hspan : bodySpan source.toList (.ofText source.toList) c.offset = some span) :
    c.methods = (ClassBody.alone (slice span.start span.stop source.toList)).methods := by
  obtain ⟨htop, hmethods⟩ := class_of_mem hc
  rw [hmethods, hspan]
  exact bodyMethods_eq_alone (depthAt_of_isTopLevel htop) hspan

/-- **A class's methods are a function of its body text.**  Whatever stands in front of two classes
or behind them, and whether or not their bodies are closed: where the texts of their bodies are
equal, so are their methods, in names, parameters, marks and order. -/
theorem methods_determined_by_body (source₁ source₂ : String) {c₁ c₂ : ClassItem} {b₁ b₂ : Span}
    (hc₁ : c₁ ∈ (extract source₁).classes) (hc₂ : c₂ ∈ (extract source₂).classes)
    (hb₁ : bodySpan source₁.toList (.ofText source₁.toList) c₁.offset = some b₁)
    (hb₂ : bodySpan source₂.toList (.ofText source₂.toList) c₂.offset = some b₂)
    (htext : slice b₁.start b₁.stop source₁.toList = slice b₂.start b₂.stop source₂.toList) :
    c₁.methods = c₂.methods := by
  rw [methods_eq_alone hc₁ hb₁, methods_eq_alone hc₂ hb₂, htext]

/-- A body that is closed and one that runs to the end of its text. -/
theorem methods_of_closed_and_open_body :
    ∃ c₁ ∈ (extract "class A \x7b f() \x7b\x7d \x7d").classes,
      ∃ c₂ ∈ (extract "x \x7d\nclass B extends A \x7b f() \x7b\x7d ").classes,
        c₁.methods = c₂.methods ∧ c₁.methods ≠ [] := by
  have hc₁ : (⟨"A", [⟨"f", [], false⟩], 0⟩ : ClassItem)
      ∈ (extract "class A \x7b f() \x7b\x7d \x7d").classes := by decide +kernel
  have hc₂ : (⟨"B", [⟨"f", [], false⟩], 4⟩ : ClassItem)
      ∈ (extract "x \x7d\nclass B extends A \x7b f() \x7b\x7d ").classes := by decide +kernel
  refine ⟨_, hc₁, _, hc₂, ?_, by simp⟩
  exact @methods_determined_by_body _ _ _ _ ⟨9, 17⟩ ⟨23, 31⟩ hc₁ hc₂ (by decide +kernel)
    (by decide +kernel) (by decide +kernel)

end Scaffold

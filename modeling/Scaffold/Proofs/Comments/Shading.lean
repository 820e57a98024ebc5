/-
Scaffold/Proofs/Comments/Shading.lean

The comments of a text, and the text with its comments blanked.

The pass over a source text records comments and strings alike; a comment is
what opens with a slash (`commentSpans`).  `shade` marks each character of a
text as belonging to a comment or not, and `blankComments` writes a blank for
every byte of every comment and leaves the newlines, so nothing moves.

* `shade_eq` — the shading by spans is the one the automaton makes as it goes
  (`shadeIn`), a character at a time;
* `isChain_shadeIn` — a comment begins with a slash, and what comes after one
  is a newline or comes after a slash;
* `braces_blanked`, `isCode_blanked` — the map of the blanked text has the same
  braces, and says the same about every character outside comments.
-/
import Mathlib.Data.List.Chain
import Scaffold.Proofs.Scan.Block

namespace Scaffold

open Text Scan

/-! ### Blanking comments -/

/-- The spans of the comments of a text. -/
def commentSpans (cs : List Char) : List Span :=
  (CodeMap.ofText cs).quiet.filter (fun s => (dropBytes s.start cs).head? == some '/')

/-- A character of a text, and whether it belongs to a comment. -/
structure Glyph where
  char : Char
  inComment : Bool
deriving DecidableEq, Repr

/-- The glyphs of a text that begins at `offset`. -/
def shadeFrom (comments : List Span) (offset : Nat) : List Char → List Glyph
  | [] => []
  | c :: cs =>
    ⟨c, comments.any (fun s => s.contains offset)⟩ :: shadeFrom comments (offset + c.utf8Size) cs

/-- The glyphs of a text. -/
def shade (cs : List Char) : List Glyph := shadeFrom (commentSpans cs) 0 cs

/-- The text of some glyphs. -/
def written (gs : List Glyph) : List Char := gs.map Glyph.char

/-- What a glyph becomes: in a comment, blanks in place of its bytes, a newline apart. -/
def Glyph.blanked (g : Glyph) : List Char :=
  if g.inComment ∧ g.char ≠ '\n' then List.replicate g.char.utf8Size ' ' else [g.char]

/-- The text of some glyphs, the comments blanked. -/
def blanked (gs : List Glyph) : List Char := gs.flatMap Glyph.blanked

/-- The text with every byte of its comments replaced by a blank, and their newlines kept. -/
def blankComments (source : String) : String := String.ofList (blanked (shade source.toList))

@[simp] theorem written_nil : written [] = [] := rfl

@[simp] theorem written_cons (g : Glyph) (gs : List Glyph) :
    written (g :: gs) = g.char :: written gs :=
  rfl

@[simp] theorem written_append (gs hs : List Glyph) :
    written (gs ++ hs) = written gs ++ written hs :=
  List.map_append

@[simp] theorem blanked_nil : blanked [] = [] := rfl

@[simp] theorem blanked_cons (g : Glyph) (gs : List Glyph) :
    blanked (g :: gs) = g.blanked ++ blanked gs := List.flatMap_cons

@[simp] theorem blanked_append (gs hs : List Glyph) :
    blanked (gs ++ hs) = blanked gs ++ blanked hs := List.flatMap_append

theorem Glyph.blanked_of_code {g : Glyph} (h : g.inComment = false) : g.blanked = [g.char] :=
  if_neg (by simp [h])

/-- Of a comment only newlines and blanks remain. -/
theorem Glyph.blanked_of_comment {g : Glyph} (h : g.inComment = true) :
    g.blanked = ['\n'] ∧ g.char = '\n' ∨ g.blanked = List.replicate g.char.utf8Size ' ' := by
  by_cases hc : g.char = '\n'
  · exact .inl ⟨by rw [Glyph.blanked, if_neg (by simp [hc]), hc], hc⟩
  · exact .inr (if_pos ⟨h, hc⟩)

theorem byteLength_replicate_blank (n : Nat) : byteLength (List.replicate n ' ') = n := by
  induction n with
  | zero => rfl
  | succ n ih =>
    rw [List.replicate_succ, byteLength_cons, ih, Nat.add_comm]
    rfl

theorem Glyph.byteLength_blanked (g : Glyph) : byteLength g.blanked = g.char.utf8Size := by
  rw [Glyph.blanked]
  split_ifs
  · exact byteLength_replicate_blank _
  · rfl

/-- Blanking moves nothing. -/
theorem byteLength_blanked (gs : List Glyph) :
    byteLength (blanked gs) = byteLength (written gs) := by
  induction gs with
  | nil => rfl
  | cons g gs ih =>
    rw [blanked_cons, byteLength_append, g.byteLength_blanked, ih]
    rfl

/-! ### The automaton in and around comments -/

namespace Scan

/-- Whether the automaton is in the middle of a comment. -/
def Mode.isComment : Mode → Bool
  | lineComment | blockOpening | blockComment | blockClosing => true
  | _ => false

/-- Whether a byte belongs to a comment, the one it opens included. -/
def inCommentAt (m : Mode) (b : ByteClass) (next : Option ByteClass) : Bool :=
  m.isComment || (m == .code && (opening? b next).any Mode.isComment)

/-- The mode in the blanked text: code in place of a comment. -/
def Mode.outside (m : Mode) : Mode := if m.isComment then .code else m

variable {m : Mode} {b k : ByteClass} {next : Option ByteClass}

theorem not_isComment_of_code (h : inCommentAt m b next = false) : m.isComment = false :=
  (Bool.or_eq_false_iff.mp h).1

theorem outside_of_code (h : inCommentAt m b next = false) : m.outside = m :=
  if_neg (by simp [not_isComment_of_code h])

/-- Blanking puts the automaton into code in front of a byte of a comment. -/
theorem outside_of_comment (h : inCommentAt m b next = true) : m.outside = .code := by
  rw [Mode.outside]
  cases m <;> simp_all [inCommentAt, Mode.isComment]

theorem before_cases (m : Mode) (next : Option ByteClass) :
    m.before next = m ∨ m.before next = .code := by
  rcases next with - | k
  · exact .inr rfl
  · rw [Mode.before]
    split_ifs
    · exact .inr rfl
    · exact .inl rfl

theorem outside_eq_self (h : m.isComment = false) : m.outside = m := if_neg (by simp [h])

/-- The automaton leaves a comment into code. -/
theorem outside_step_of_comment (h : inCommentAt m b next = true) :
    (m.step b next).outside = .code := by
  have hread : (m.read b next).outside = .code := by
    cases m with
    | code =>
      obtain ⟨r, hr, hcomment⟩ : ∃ r, opening? b next = some r ∧ r.isComment = true := by
        simpa [inCommentAt, Mode.isComment, Option.any_eq_true] using h
      rw [Mode.read, hr]
      exact if_pos hcomment
    | lineComment => rfl
    | blockOpening => rfl
    | blockComment =>
      rw [Mode.read.eq_def]
      split <;> first | rfl | simp_all
    | blockClosing => rfl
    | quoted q => cases h
    | escaped q => cases h
  rw [Mode.step]
  rcases before_cases (m.read b next) next with hb | hb
  · rw [hb, hread]
  · rw [hb]
    rfl

/-- From a byte outside comments the automaton does not go into a comment. -/
theorem isComment_step_of_code (h : inCommentAt m b next = false) :
    (m.step b next).isComment = false := by
  have hread : (m.read b next).isComment = false := by
    cases m with
    | code =>
      rw [Mode.read]
      rcases ho : opening? b next with - | r
      · rfl
      · simpa [inCommentAt, Mode.isComment, ho] using h
    | quoted q =>
      rw [Mode.read]
      split_ifs <;> rfl
    | escaped q => rfl
    | _ => cases h
  rw [Mode.step]
  rcases before_cases (m.read b next) next with hb | hb
  · rw [hb, hread]
  · rw [hb]
    rfl

/-- A comment begins with a slash. -/
theorem slash_of_comment (hm : m.isComment = false) (h : inCommentAt m b next = true) :
    m = .code ∧ b = .slash := by
  cases m with
  | code =>
    refine ⟨rfl, ?_⟩
    obtain ⟨r, hr, hcomment⟩ : ∃ r, opening? b next = some r ∧ r.isComment = true := by
      simpa [inCommentAt, Mode.isComment, Option.any_eq_true] using h
    cases b with
    | slash => rfl
    | quote q =>
      cases hr
      cases hcomment
    | _ => cases hr
  | quoted q => cases h
  | escaped q => cases h
  | _ => cases hm

/-- In front of a comment, a blank in place of its slash leaves the automaton in code as well, and
opens nothing either. -/
theorem code_before_comment (h : inCommentAt m b (some .slash) = false)
    (hstep : m.step b (some .slash) = .code) :
    m.step b (some .other) = .code
      ∧ (m = .code → (opening? b (some .slash)).isSome = false
          ∧ (opening? b (some .other)).isSome = false) := by
  cases m with
  | code =>
    cases b <;>
      simp_all [inCommentAt, opening?, Mode.isComment, Mode.step, Mode.read, Mode.before]
  | quoted q => exact ⟨hstep, by simp⟩
  | escaped q => cases hstep
  | _ => cases h

/-- Behind a comment is a newline, or the comment ended in a slash. -/
theorem newline_or_slash_after_comment (hfit : m.Fits b) (h : inCommentAt m b (some k) = true)
    (hnext : inCommentAt (m.step b (some k)) k next = false) : k = .newline ∨ b = .slash := by
  cases m with
  | code => exact .inr (slash_of_comment rfl h).2
  | lineComment =>
    left
    by_contra hk
    rw [Mode.step, Mode.read, Mode.before, if_neg (by simp [hk])] at hnext
    cases hnext
  | blockOpening =>
    rw [Mode.step, Mode.read, Mode.before, if_neg (by simp [Mode.stopsAtNewline])] at hnext
    cases hnext
  | blockComment =>
    rw [Mode.step, Mode.read.eq_def] at hnext
    split at hnext
    all_goals simp_all [Mode.before, Mode.stopsAtNewline, inCommentAt, Mode.isComment]
  | blockClosing => exact .inr hfit
  | quoted q => cases h
  | escaped q => cases h

end Scan

/-! ### Shading a character at a time -/

/-- The glyphs of the rest of a text, the automaton being in a mode. -/
def shadeIn (m : Mode) : List Char → List Glyph
  | [] => []
  | c :: cs =>
    ⟨c, inCommentAt m (.ofChar c) (nextClass cs)⟩ :: shadeIn (m.step (.ofChar c) (nextClass cs)) cs

@[simp] theorem shadeIn_nil (m : Mode) : shadeIn m [] = [] := rfl

theorem shadeIn_cons (m : Mode) (c : Char) (cs : List Char) :
    shadeIn m (c :: cs) = ⟨c, inCommentAt m (.ofChar c) (nextClass cs)⟩
      :: shadeIn (m.step (.ofChar c) (nextClass cs)) cs := rfl

@[simp] theorem written_shadeIn (m : Mode) (cs : List Char) : written (shadeIn m cs) = cs := by
  induction cs generalizing m with
  | nil => rfl
  | cons c cs ih => rw [shadeIn_cons, written_cons, ih]

/-- The comments among some marks of a text. -/
def commentsAmong (whole : List Char) (marks : List Mark) : List Span :=
  (spansOf marks).filter (fun s => (dropBytes s.start whole).head? == some '/')

theorem commentsAmong_append (whole : List Char) (marks marks' : List Mark) :
    commentsAmong whole (marks ++ marks')
      = commentsAmong whole marks ++ commentsAmong whole marks' := by
  rw [commentsAmong, spansOf, List.filterMap_append, List.filter_append]
  rfl

/-- The comment that opens at a character, if one does. -/
theorem commentsAmong_marksAt (front : List Char) (m : Mode) (depth : Nat) (c : Char)
    (cs : List Char) :
    commentsAmong (front ++ c :: cs) (marksAt m (byteLength front) depth c cs)
      = if m.isComment = false ∧ inCommentAt m (.ofChar c) (nextClass cs) = true then
          [⟨byteLength front, byteLength front
            + (c.utf8Size + (m.step (.ofChar c) (nextClass cs)).remaining cs)⟩]
        else [] := by
  rw [commentsAmong, spansOf_marksAt]
  by_cases hopen : m = .code ∧ (opening? (.ofChar c) (nextClass cs)).isSome
  · rw [if_pos hopen, List.filter_singleton, dropBytes_append]
    obtain ⟨rfl, hsome⟩ := hopen
    obtain ⟨r, hr⟩ := Option.isSome_iff_exists.mp hsome
    by_cases hc : c = '/'
    · have hcomment : inCommentAt .code (.ofChar c) (nextClass cs) = true := by
        rw [ofChar_eq_slash.mpr hc] at hr ⊢
        rw [inCommentAt, hr]
        rcases hnext : nextClass cs with - | k
        · rw [hnext] at hr
          cases hr
        · rw [hnext] at hr
          cases k <;> cases hr <;> rfl
      rw [if_pos ⟨rfl, hcomment⟩, hc]
      rfl
    · -- what opens is a string
      rw [if_neg (fun h => hc (ofChar_eq_slash.mp (slash_of_comment h.1 h.2).2))]
      have hslash : (c == '/') = false := by simpa using hc
      simp [hslash]
  · rw [if_neg hopen, if_neg]
    · rfl
    · rintro ⟨hm, hcomment⟩
      obtain ⟨rfl, -⟩ := slash_of_comment hm hcomment
      refine hopen ⟨rfl, ?_⟩
      by_contra hnone
      simp only [Option.not_isSome_iff_eq_none] at hnone
      rw [inCommentAt, hnone] at hcomment
      cases hcomment

/-- That some spans cover what they are to cover of the rest of a text: what is left of a comment
the automaton is in, and the comments among the marks to come. -/
def Covers (spans : List Span) (m : Mode) (depth : Nat) (front cs : List Char) : Prop :=
  ∀ n, byteLength front ≤ n →
    (spans.any (fun s => s.contains n) = true
      ↔ (m.isComment = true ∧ n < byteLength front + m.remaining cs)
        ∨ ∃ s ∈ commentsAmong (front ++ cs) (marksIn m (byteLength front) depth cs),
            s.contains n = true)

/-- The step of a mode, and what it says about comments: it leaves one into code, and goes into one
only from a byte of it. -/
theorem step_remaining {m : Mode} {c : Char} {cs : List Char} {n : Nat} :
    (inCommentAt m (.ofChar c) (nextClass cs) = true
        ∧ n < (m.step (.ofChar c) (nextClass cs)).remaining cs)
      ↔ ((m.step (.ofChar c) (nextClass cs)).isComment = true
        ∧ n < (m.step (.ofChar c) (nextClass cs)).remaining cs) := by
  refine and_congr_left fun hn => ?_
  constructor
  · -- a step out of a comment leaves nothing of it to come
    intro h
    by_contra hcode
    have hout := outside_step_of_comment h
    rw [outside_eq_self (by simpa using hcode)] at hout
    rw [hout, remaining_code] at hn
    exact absurd hn (Nat.not_lt_zero n)
  · -- from a byte outside comments no step leads into one
    intro h
    by_contra hcode
    rw [isComment_step_of_code (by simpa using hcode)] at h
    cases h

/-- The comments of the rest of a text, from a character on. -/
theorem covers_cons {spans : List Span} {m : Mode} {depth : Nat} {front cs : List Char} {c : Char}
    (hfit : m.Fits (.ofChar c)) (h : Covers spans m depth front (c :: cs)) :
    ∀ n, byteLength front ≤ n →
      (spans.any (fun s => s.contains n) = true
        ↔ (inCommentAt m (.ofChar c) (nextClass cs) = true
            ∧ n < byteLength front + (c.utf8Size
                + (m.step (.ofChar c) (nextClass cs)).remaining cs))
          ∨ ∃ s ∈ commentsAmong (front ++ c :: cs)
              (marksIn (m.step (.ofChar c) (nextClass cs)) (byteLength front + c.utf8Size)
                (m.count depth (.ofChar c)) cs), s.contains n = true) := by
  intro n hn
  rw [h n hn, marksIn, marksFrom_cons _ depth hfit, commentsAmong_append, commentsAmong_marksAt]
  by_cases hm : m.isComment = true
  · -- in the middle of a comment, the rest of which is to come
    have hcode : m ≠ .code := by
      rintro rfl
      cases hm
    rw [if_neg (by simp [hm]), List.nil_append, remaining_cons cs hcode hfit]
    simp [inCommentAt, hm]
  · have hm' : m.isComment = false := by simpa using hm
    by_cases hcomment : inCommentAt m (.ofChar c) (nextClass cs) = true
    · -- a comment is opened here
      rw [if_pos ⟨hm', hcomment⟩]
      simp [hm', hcomment, Span.contains, hn]
    · rw [if_neg (fun h => hcomment h.2), List.nil_append]
      simp [hm', hcomment]

theorem shadeFrom_eq {spans : List Span} {m : Mode} {depth : Nat} {front cs : List Char}
    (hfit : ∀ b ∈ nextClass cs, m.Fits b) (h : Covers spans m depth front cs) :
    shadeFrom spans (byteLength front) cs = shadeIn m cs := by
  induction cs generalizing m depth front with
  | nil => rfl
  | cons c cs ih =>
    have hpos := c.utf8Size_pos
    have hfit' := fits_step m (.ofChar c) (nextClass cs)
    have hcover := covers_cons (hfit _ rfl) h
    -- comments that open later do not reach back to this character
    have hlater : ∀ s ∈ commentsAmong (front ++ c :: cs)
        (marksIn (m.step (.ofChar c) (nextClass cs)) (byteLength front + c.utf8Size)
          (m.count depth (.ofChar c)) cs), byteLength front < s.start := by
      intro s hs
      have := (spans_range hfit' s (List.mem_of_mem_filter hs)).1
      omega
    have hhead : spans.any (fun s => s.contains (byteLength front))
        = inCommentAt m (.ofChar c) (nextClass cs) := by
      rw [Bool.eq_iff_iff, hcover _ (Nat.le_refl _)]
      constructor
      · rintro (⟨hcomment, -⟩ | ⟨s, hs, hin⟩)
        · exact hcomment
        · have := hlater s hs
          simp only [Span.contains, Bool.and_eq_true, decide_eq_true_eq] at hin
          omega
      · exact fun hcomment => .inl ⟨hcomment, by omega⟩
    have hlen : byteLength (front ++ [c]) = byteLength front + c.utf8Size := byteLength_append _ _
    rw [shadeFrom, shadeIn_cons, hhead, ← hlen]
    refine congrArg (_ :: ·) (@ih _ (m.count depth (.ofChar c)) _ hfit' fun n hn => ?_)
    rw [hlen] at hn ⊢
    rw [hcover n (by omega), List.append_assoc, List.singleton_append]
    refine or_congr_left ?_
    obtain ⟨k, rfl⟩ := Nat.exists_eq_add_of_le hn
    have hshift : ∀ r,
        byteLength front + c.utf8Size + k < byteLength front + (c.utf8Size + r) ↔ k < r := by
      omega
    have hshift' : ∀ r,
        byteLength front + c.utf8Size + k < byteLength front + c.utf8Size + r ↔ k < r := by
      omega
    rw [hshift, hshift']
    exact step_remaining

/-- **The shading by spans is the one the automaton makes.** -/
theorem shade_eq (cs : List Char) : shade cs = shadeIn .code cs := by
  have hcover : Covers (commentSpans cs) .code 0 [] cs := by
    intro n _
    rw [List.any_eq_true, List.nil_append]
    constructor
    · exact .inr
    · rintro (⟨h, -⟩ | h)
      · cases h
      · exact h
  exact shadeFrom_eq (fits_code cs) hcover

/-- What neighbouring glyphs have to do with each other: a comment begins with a slash, and what
comes after one is a newline or comes after a slash. -/
def Joins (g h : Glyph) : Prop :=
  (g.inComment = false → h.inComment = true → h.char = '/')
    ∧ (g.inComment = true → h.inComment = false → h.char = '\n' ∨ g.char = '/')

theorem isChain_shadeIn {m : Mode} {cs : List Char} (hfit : ∀ b ∈ nextClass cs, m.Fits b) :
    (shadeIn m cs).IsChain Joins := by
  induction cs generalizing m with
  | nil => exact .nil
  | cons c cs ih =>
    have hrest := ih (fits_step m (.ofChar c) (nextClass cs))
    cases cs with
    | nil => exact .singleton _
    | cons d cs =>
      refine .cons_cons ⟨fun hc hd => ?_, fun hc hd => ?_⟩ hrest
      · exact ofChar_eq_slash.mp (slash_of_comment (isComment_step_of_code hc) hd).2
      · rcases newline_or_slash_after_comment (hfit _ rfl) hc hd with h | h
        · exact .inl (ofChar_eq_newline.mp h)
        · exact .inr (ofChar_eq_slash.mp h)

/-! ### The scan of the blanked text -/

section Blanked

variable {m : Mode} {c : Char} {cs : List Char}

/-- In the blanked text the automaton goes on from a character outside comments as it does in the
text. -/
theorem step_blanked (h : inCommentAt m (.ofChar c) (nextClass cs) = false) :
    m.step (.ofChar c) (nextClass (blanked (shadeIn (m.step (.ofChar c) (nextClass cs)) cs)))
        = m.step (.ofChar c) (nextClass cs)
      ∧ (m = .code →
          (opening? (.ofChar c)
            (nextClass (blanked (shadeIn (m.step (.ofChar c) (nextClass cs)) cs)))).isSome
          = (opening? (.ofChar c) (nextClass cs)).isSome) := by
  cases cs with
  | nil => exact ⟨rfl, fun _ => rfl⟩
  | cons d cs =>
    rw [shadeIn_cons, blanked_cons]
    by_cases hd : inCommentAt (m.step (.ofChar c) (nextClass (d :: cs))) (.ofChar d) (nextClass cs)
        = true
    · -- a comment begins behind `c`, with a slash
      obtain ⟨hstep, hslash⟩ := slash_of_comment (isComment_step_of_code h) hd
      obtain rfl := ofChar_eq_slash.mp hslash
      rw [hd]
      obtain ⟨hother, hopen⟩ := code_before_comment h hstep
      refine ⟨hother.trans hstep.symm, fun hm => ?_⟩
      exact (hopen hm).2.trans (hopen hm).1.symm
    · rw [Glyph.blanked_of_code (by simpa using hd)]
      exact ⟨rfl, fun _ => rfl⟩

/-- A blank or a newline in code is no mark, and the automaton stays in code. -/
theorem marksIn_code_of_other {offset depth : Nat} (hc : ∀ next, opening? (.ofChar c) next = none)
    (hopen : c ≠ '{') (hclose : c ≠ '}') :
    marksIn .code offset depth (c :: cs) = marksIn .code (offset + c.utf8Size) depth cs := by
  have hstep : Mode.step .code (.ofChar c) (nextClass cs) = .code :=
    step_of_not_opening (by rw [hc]; rfl)
  have hcount : Mode.count .code depth (.ofChar c) = depth := by
    rw [count_eq, if_neg (fun h => hopen h.2), if_neg (fun h => hclose h.2)]
  rw [marksIn, marksFrom_cons offset depth (fits_code (c :: cs) _ rfl), marksAt, if_pos rfl, hc,
    if_neg (by simp), if_neg hopen, if_neg hclose, hstep, hcount, List.nil_append]

theorem marksIn_code_replicate {offset depth : Nat} (n : Nat) :
    marksIn .code offset depth (List.replicate n ' ' ++ cs)
      = marksIn .code (offset + n) depth cs := by
  induction n generalizing offset with
  | zero => rfl
  | succ n ih =>
    rw [List.replicate_succ, List.cons_append,
      marksIn_code_of_other (fun _ => rfl) (by decide) (by decide), ih,
      show ' '.utf8Size = 1 from rfl, Nat.add_assoc, Nat.add_comm 1 n]

/-- The pass goes over what remains of a glyph in a comment without a mark. -/
theorem marksIn_blanked_comment {offset depth : Nat} {g : Glyph} (hg : g.inComment = true) :
    marksIn .code offset depth (g.blanked ++ cs)
      = marksIn .code (offset + g.char.utf8Size) depth cs := by
  rcases g.blanked_of_comment hg with ⟨hb, hc⟩ | hb
  · rw [hb, hc]
    exact marksIn_code_of_other (fun _ => rfl) (by decide) (by decide)
  · rw [hb, marksIn_code_replicate]

/-- The braces of the rest of a text, from a character on. -/
theorem bracesOf_marksIn_cons {offset depth : Nat} (hfit : m.Fits (.ofChar c)) :
    bracesOf (marksIn m offset depth (c :: cs))
      = (if m = .code ∧ c = '{' then [⟨offset, true, depth + 1⟩]
          else if m = .code ∧ c = '}' then [⟨offset, false, depth - 1⟩]
          else [])
        ++ bracesOf (marksIn (m.step (.ofChar c) (nextClass cs)) (offset + c.utf8Size)
            (m.count depth (.ofChar c)) cs) := by
  rw [marksIn, marksFrom_cons offset depth hfit, bracesOf, List.filterMap_append, ← bracesOf,
    bracesOf_marksAt]

theorem bracesOf_blanked {offset depth : Nat} (hfit : ∀ b ∈ nextClass cs, m.Fits b) :
    bracesOf (marksIn m.outside offset depth (blanked (shadeIn m cs)))
      = bracesOf (marksIn m offset depth cs) := by
  induction cs generalizing m offset depth with
  | nil => rw [shadeIn_nil, blanked_nil, marksIn, marksIn, marksFrom, marksFrom]
  | cons c cs ih =>
    have hrest := @ih _ (offset + c.utf8Size) (m.count depth (.ofChar c))
      (fits_step m (.ofChar c) (nextClass cs))
    rw [shadeIn_cons, blanked_cons, bracesOf_marksIn_cons (hfit _ rfl), ← hrest]
    by_cases hc : inCommentAt m (.ofChar c) (nextClass cs) = true
    · -- a character of a comment is no brace, in the text or blanked
      have hnone : ∀ d, d ≠ '/' → ¬ (m = .code ∧ c = d) := by
        rintro d hd ⟨rfl, rfl⟩
        exact hd (ofChar_eq_slash.mp (slash_of_comment rfl hc).2)
      rw [if_neg (hnone _ (by decide)), if_neg (hnone _ (by decide)), List.nil_append,
        count_eq, if_neg (hnone _ (by decide)), if_neg (hnone _ (by decide)),
        outside_of_comment hc, outside_step_of_comment hc]
      exact congrArg bracesOf (marksIn_blanked_comment hc)
    · have hc : inCommentAt m (.ofChar c) (nextClass cs) = false := by simpa using hc
      rw [outside_of_code hc, Glyph.blanked_of_code hc, List.singleton_append,
        bracesOf_marksIn_cons (hfit _ rfl), (step_blanked hc).1,
        outside_eq_self (isComment_step_of_code hc)]

/-- The bytes of what remains of a glyph in a comment keep the automaton in code. -/
theorem atCode_blanked_comment {g : Glyph} (hg : g.inComment = true) (bs : List ByteClass) (n : Nat) :
    modeAt .code (textClasses g.blanked ++ bs) (g.char.utf8Size + n) = modeAt .code bs n
      ∧ opensAt (textClasses g.blanked ++ bs) (g.char.utf8Size + n) = opensAt bs n := by
  have hlen : (textClasses g.blanked).length = g.char.utf8Size := by
    rw [length_textClasses, g.byteLength_blanked]
  have hrun : ∀ next, run .code (textClasses g.blanked) next = .code := by
    intro next
    rcases g.blanked_of_comment hg with ⟨hb, -⟩ | hb
    · -- a newline stays
      rw [hb]
      exact step_of_not_opening rfl
    · -- everything else becomes blanks
      rw [hb]
      generalize g.char.utf8Size = k
      induction k with
      | zero => rfl
      | succ k ih =>
        rw [List.replicate_succ, textClasses_cons]
        show run (Mode.step .code .other _) (textClasses (List.replicate k ' ')) next = .code
        rw [step_of_not_opening rfl, ih]
  rw [← hlen, modeAt_append, opensAt_append, hrun]
  exact ⟨rfl, rfl⟩

/-- Where a character stands outside comments, the automaton is in code and opens nothing in the
blanked text if and only if it does so in the text. -/
theorem atCode_blanked (hfit : ∀ b ∈ nextClass cs, m.Fits b) {X Y : List Glyph} {g : Glyph}
    (hsplit : shadeIn m cs = X ++ g :: Y) (hg : g.inComment = false) :
    (modeAt m.outside (textClasses (blanked (shadeIn m cs))) (byteLength (written X)) = .code
        ∧ opensAt (textClasses (blanked (shadeIn m cs))) (byteLength (written X)) = false)
      ↔ (modeAt m (textClasses cs) (byteLength (written X)) = .code
        ∧ opensAt (textClasses cs) (byteLength (written X)) = false) := by
  -- by induction on what is in front: the two automata step together, the one over the blanked
  -- text being in code wherever the other is in a comment
  induction X generalizing m cs with
  | nil =>
    cases cs with
    | nil => cases hsplit
    | cons c cs =>
      rw [shadeIn_cons, List.nil_append] at hsplit
      obtain ⟨rfl, -⟩ := List.cons.inj hsplit
      rw [shadeIn_cons, blanked_cons, Glyph.blanked_of_code hg, outside_of_code hg,
        List.singleton_append, textClasses_cons, textClasses_cons, written_nil, byteLength_nil,
        code_in_char_iff _ (hfit _ rfl) c.utf8Size_pos,
        code_in_char_iff _ (hfit _ rfl) c.utf8Size_pos, head?_textClasses, head?_textClasses]
      exact and_congr_right fun hm => by rw [(step_blanked hg).2 hm]
  | cons x X ih =>
    cases cs with
    | nil => cases hsplit
    | cons c cs =>
      rw [shadeIn_cons, List.cons_append] at hsplit
      obtain ⟨rfl, hrest⟩ := List.cons.inj hsplit
      have hnext := ih (fits_step m _ _) hrest
      rw [shadeIn_cons, blanked_cons, textClasses_cons, written_cons, byteLength_cons,
        modeAt_charClasses, opensAt_charClasses, head?_textClasses, ← hnext]
      by_cases hc : inCommentAt m (.ofChar c) (nextClass cs) = true
      · have hskip := atCode_blanked_comment (g := ⟨c, inCommentAt m (.ofChar c) (nextClass cs)⟩) hc
        rw [outside_of_comment hc, outside_step_of_comment hc, textClasses_append, (hskip _ _).1,
          (hskip _ _).2]
      · have hc : inCommentAt m (.ofChar c) (nextClass cs) = false := by simpa using hc
        rw [outside_of_code hc, Glyph.blanked_of_code hc, List.singleton_append, textClasses_cons,
          modeAt_charClasses, opensAt_charClasses, head?_textClasses, (step_blanked hc).1,
          outside_eq_self (isComment_step_of_code hc)]

end Blanked

/-! ### The map of the blanked text -/

section Map

variable {cs : List Char}

@[simp] theorem written_shade (cs : List Char) : written (shade cs) = cs := by
  rw [shade_eq, written_shadeIn]

theorem isChain_shade (cs : List Char) : (shade cs).IsChain Joins := by
  rw [shade_eq]
  exact isChain_shadeIn (fits_code cs)

/-- **Blanking comments changes no brace.** -/
theorem braces_blanked (cs : List Char) :
    (CodeMap.ofText (blanked (shade cs))).braces = (CodeMap.ofText cs).braces := by
  rw [braces_ofText, braces_ofText, shade_eq]
  exact bracesOf_blanked (fits_code cs)

theorem size_blanked (cs : List Char) :
    (CodeMap.ofText (blanked (shade cs))).size = (CodeMap.ofText cs).size := by
  show byteLength (blanked (shade cs)) = byteLength cs
  rw [byteLength_blanked, written_shade]

theorem depthAt_blanked (cs : List Char) (n : Nat) :
    (CodeMap.ofText (blanked (shade cs))).depthAt n = (CodeMap.ofText cs).depthAt n := by
  rw [CodeMap.depthAt, CodeMap.depthAt, braces_blanked]

theorem blockFrom_blanked (cs : List Char) (n : Nat) :
    (CodeMap.ofText (blanked (shade cs))).blockFrom n = (CodeMap.ofText cs).blockFrom n := by
  rw [CodeMap.blockFrom, CodeMap.blockFrom, braces_blanked, size_blanked]

/-- **Blanking comments changes nothing about what is code outside them.** -/
theorem isCode_blanked {X Y : List Glyph} {g : Glyph} (hsplit : shade cs = X ++ g :: Y)
    (hg : g.inComment = false) :
    (CodeMap.ofText (blanked (shade cs))).isCode (byteLength (written X))
      = (CodeMap.ofText cs).isCode (byteLength (written X)) := by
  rw [Bool.eq_iff_iff, isCode_iff, isCode_iff]
  rw [shade_eq] at hsplit ⊢
  exact atCode_blanked (fits_code cs) hsplit hg

theorem inComment_of_shadeFrom {spans : List Span} {offset : Nat} {X Y : List Glyph} {g : Glyph}
    (h : shadeFrom spans offset cs = X ++ g :: Y) :
    g.inComment = spans.any (fun s => s.contains (offset + byteLength (written X))) := by
  induction X generalizing offset cs with
  | nil =>
    cases cs with
    | nil => cases h
    | cons c cs =>
      obtain ⟨rfl, -⟩ := List.cons.inj h
      rfl
  | cons x X ih =>
    cases cs with
    | nil => cases h
    | cons c cs =>
      obtain ⟨rfl, hrest⟩ := List.cons.inj h
      rw [ih hrest, written_cons, byteLength_cons, Nat.add_assoc]

/-- No character of a comment is code. -/
theorem isCode_of_comment {X Y : List Glyph} {g : Glyph} (hsplit : shade cs = X ++ g :: Y)
    (hg : g.inComment = true) : (CodeMap.ofText cs).isCode (byteLength (written X)) = false := by
  rw [inComment_of_shadeFrom hsplit, List.any_eq_true, Nat.zero_add] at hg
  obtain ⟨s, hs, hin⟩ := hg
  rw [CodeMap.isCode, Bool.not_eq_false', List.any_eq_true]
  exact ⟨s, List.mem_of_mem_filter hs, hin⟩

end Map

/-! ### The glyphs of a block -/

theorem exists_shadeIn_append (m : Mode) (u v : List Char) :
    ∃ X, shadeIn m (u ++ v) = X ++ shadeIn (run m (textClasses u) (nextClass v)) v
      ∧ written X = u := by
  induction u generalizing m with
  | nil => exact ⟨[], rfl, rfl⟩
  | cons c u ih =>
    obtain ⟨X, hX, hu⟩ := ih (m.step (.ofChar c) (nextClass (u ++ v)))
    have hnext : ((textClasses u).head? <|> nextClass v) = nextClass (u ++ v) := by
      rw [head?_textClasses]
      cases u <;> rfl
    refine ⟨⟨c, inCommentAt m (.ofChar c) (nextClass (u ++ v))⟩ :: X, ?_, ?_⟩
    · rw [List.cons_append, shadeIn_cons, hX, textClasses_cons, run_append, run_charClasses, hnext]
      rfl
    · rw [written_cons, hu]

theorem inCommentAt_of_ne {m : Mode} {b k : ByteClass} (h : k ≠ .slash ∧ k ≠ .star) :
    inCommentAt m b (some k) = inCommentAt m b none := by
  have hopen : (opening? b (some k)).any Mode.isComment = (opening? b none).any Mode.isComment := by
    cases b <;> cases k <;> simp_all [opening?]
  rw [inCommentAt, hopen, inCommentAt]

/-- What comes later shades no character of a text, unless it begins with the second character of an
opener. -/
theorem exists_shadeIn_append_left (m : Mode) (u : List Char) {v : List Char}
    (hv : ∀ b ∈ nextClass v, b ≠ .slash ∧ b ≠ .star) :
    ∃ Y, shadeIn m (u ++ v) = shadeIn m u ++ Y ∧ written Y = v := by
  induction u generalizing m with
  | nil => exact ⟨shadeIn m v, rfl, written_shadeIn m v⟩
  | cons c u ih =>
    obtain ⟨Y, hY, hv'⟩ := ih (m.step (.ofChar c) (nextClass (u ++ v)))
    refine ⟨Y, ?_, hv'⟩
    rw [List.cons_append, shadeIn_cons, hY, shadeIn_cons]
    cases u with
    | nil =>
      -- the last character of the text
      rcases hnext : nextClass v with - | k
      · rw [List.nil_append, hnext]
        rfl
      · rw [List.nil_append, hnext, inCommentAt_of_ne (hv k hnext)]
        rfl
    | cons d u => rfl

/-- **A block is shaded as if it stood alone.** -/
theorem shade_of_block {cs front inside back : List Char} (h : Block cs front inside back) :
    ∃ X Y, shade cs = X ++ (shade ('{' :: inside) ++ Y) ∧ written X = front ∧ written Y = back := by
  obtain ⟨X, hX, hfront⟩ := exists_shadeIn_append .code front ('{' :: inside ++ back)
  obtain ⟨Y, hY, hback⟩ := exists_shadeIn_append_left .code ('{' :: inside) (v := back) (by
    have := h.back_class
    rwa [head?_textClasses] at this)
  refine ⟨X, Y, ?_, hfront, hback⟩
  have hmode : run .code (textClasses front) (nextClass ('{' :: inside ++ back)) = .code := by
    have hrun := h.run_front
    rwa [← textClasses_append, head?_textClasses] at hrun
  rw [shade_eq, h.text_eq, hX, hmode, hY, shade_eq]

end Scaffold

/-
Scaffold/Proofs/Scan/Characters.lean

The automaton read character by character.

The bytes of a character are either one byte of its own class or several of
class `other` (`charClasses_eq`), and the automaton goes over them in one step
(`run_charClasses`).  So the state of the map's pass after a character, how
many bytes of a comment or string are left, is a function of the automaton's
mode there:

* `Mode.remaining` — the bytes that are left of the region a mode is in;
* `remaining_cons` — one character less after one character;
* `quietLength_cons` — a region's length, measured where it opens;
* `marksFrom_cons` — one character of the pass, told by the automaton.
-/
import Scaffold.Proofs.Scan.Automaton

namespace Scaffold

open Text

namespace Scan

/-! ### The bytes of a character -/

/-- The classes of the bytes of a character. -/
def charClasses (c : Char) : List ByteClass := (String.utf8EncodeChar c).map ByteClass.ofByte

/-- The classes of the bytes of a text. -/
def textClasses (cs : List Char) : List ByteClass := cs.flatMap charClasses

@[simp] theorem textClasses_nil : textClasses [] = [] := rfl

@[simp] theorem textClasses_cons (c : Char) (cs : List Char) :
    textClasses (c :: cs) = charClasses c ++ textClasses cs := by
  simp [textClasses]

@[simp] theorem textClasses_append (s t : List Char) :
    textClasses (s ++ t) = textClasses s ++ textClasses t := by
  simp [textClasses]

@[simp] theorem length_charClasses (c : Char) : (charClasses c).length = c.utf8Size := by
  simp [charClasses]

@[simp] theorem length_textClasses (cs : List Char) : (textClasses cs).length = byteLength cs := by
  induction cs with
  | nil => rfl
  | cons c cs ih => simp [ih]

theorem classesOf_eq (source : String) : classesOf source = textClasses source.toList := by
  have h : source.toUTF8.data.toList = source.toList.flatMap String.utf8EncodeChar := by
    rw [String.toUTF8_eq_toByteArray, ← String.utf8Encode_toList, List.utf8Encode,
      List.data_toByteArray]
  rw [classesOf, h, List.map_flatMap]
  rfl

theorem ofCode_of_ge {n : Nat} (h : 128 ≤ n) : ByteClass.ofCode n = .other := by
  have hs : '/'.toNat < 128 ∧ '*'.toNat < 128 ∧ '\\'.toNat < 128 ∧ '\n'.toNat < 128
      ∧ '\''.toNat < 128 ∧ '"'.toNat < 128 ∧ '`'.toNat < 128 ∧ '{'.toNat < 128
      ∧ '}'.toNat < 128 := by decide
  unfold ByteClass.ofCode
  repeat' rw [if_neg (by omega)]

/-- An ASCII character is one byte of its class; any other character is bytes of class `other`. -/
theorem charClasses_eq (c : Char) :
    charClasses c = List.replicate c.utf8Size (ByteClass.ofChar c) := by
  have hc : ∀ n, 128 ≤ n → n < 256 → ByteClass.ofByte (UInt8.ofNat n) = .other := by
    intro n h h'
    rw [ByteClass.ofByte, UInt8.toNat_ofNat_of_lt' h', ofCode_of_ge h]
  have hv : c.val.toNat = c.toNat := rfl
  have hlen := String.length_utf8EncodeChar c
  unfold charClasses
  by_cases h : c.toNat ≤ 0x7F
  · -- one byte, the character itself
    have he : String.utf8EncodeChar c = [UInt8.ofNat c.toNat] := by
      simp only [String.utf8EncodeChar, hv, if_pos h]
    rw [he] at hlen ⊢
    rw [← hlen]
    simp only [List.map_cons, List.map_nil, List.length_cons, List.length_nil, List.replicate,
      ByteClass.ofByte, ByteClass.ofChar]
    rw [UInt8.toNat_ofNat_of_lt' (show c.toNat < 256 by omega)]
  · -- several bytes, none of which means anything
    have ho : ByteClass.ofChar c = .other := ofCode_of_ge (by omega)
    have hall : ∀ k ∈ (String.utf8EncodeChar c).map ByteClass.ofByte, k = .other := by
      simp only [String.utf8EncodeChar, hv, if_neg h]
      split
      · simp only [List.map_cons, List.map_nil, List.forall_mem_cons]
        exact ⟨hc _ (by omega) (by omega), hc _ (by omega) (by omega), by simp⟩
      · split
        · simp only [List.map_cons, List.map_nil, List.forall_mem_cons]
          exact ⟨hc _ (by omega) (by omega), hc _ (by omega) (by omega),
            hc _ (by omega) (by omega), by simp⟩
        · simp only [List.map_cons, List.map_nil, List.forall_mem_cons]
          exact ⟨hc _ (by omega) (by omega), hc _ (by omega) (by omega),
            hc _ (by omega) (by omega), hc _ (by omega) (by omega), by simp⟩
    rw [ho]
    exact List.eq_replicate_iff.mpr ⟨by simp, hall⟩

theorem ofChar_of_one_lt {c : Char} (h : 1 < c.utf8Size) : ByteClass.ofChar c = .other := by
  apply ofCode_of_ge
  by_contra hlt
  have hle : c.val ≤ 127 := by
    rw [UInt32.le_iff_toNat_le]
    exact Nat.le_of_lt_succ (Nat.not_le.mp hlt)
  have : c.utf8Size = 1 := Char.utf8Size_eq_one_iff.mpr hle
  omega

theorem head?_textClasses (cs : List Char) :
    (textClasses cs).head? = cs.head?.map ByteClass.ofChar := by
  cases cs with
  | nil => rfl
  | cons c cs =>
    obtain ⟨n, hn⟩ := Nat.exists_eq_succ_of_ne_zero (Nat.ne_of_gt c.utf8Size_pos)
    rw [textClasses_cons, charClasses_eq, hn]
    rfl

/-! ### The class of a character decides the character -/

/-- The one character of a class. -/
def ByteClass.char? : ByteClass → Option Char
  | slash => some '/'
  | star => some '*'
  | backslash => some '\\'
  | newline => some '\n'
  | quote q => some q.char
  | openBrace => some '{'
  | closeBrace => some '}'
  | other => none

theorem char_eq_of_ofChar {c d : Char} {k : ByteClass} (hc : ByteClass.ofChar c = k)
    (hk : k.char? = some d) : c = d := by
  subst hc
  unfold ByteClass.ofChar ByteClass.ofCode at hk
  -- each code names the one character that has it
  split_ifs at hk with h1 h2 h3 h4 h5 h6 h7 h8 h9 <;> cases hk
  exacts [Char.toNat_inj.mp h1, Char.toNat_inj.mp h2, Char.toNat_inj.mp h3, Char.toNat_inj.mp h4,
    Char.toNat_inj.mp h5, Char.toNat_inj.mp h6, Char.toNat_inj.mp h7, Char.toNat_inj.mp h8,
    Char.toNat_inj.mp h9]

theorem ofChar_eq_iff {c d : Char} {k : ByteClass} (hk : k.char? = some d)
    (hd : ByteClass.ofChar d = k) : ByteClass.ofChar c = k ↔ c = d :=
  ⟨fun h => char_eq_of_ofChar h hk, fun h => h ▸ hd⟩

@[simp] theorem ofChar_eq_slash {c : Char} : ByteClass.ofChar c = .slash ↔ c = '/' :=
  ofChar_eq_iff rfl rfl

@[simp] theorem ofChar_eq_star {c : Char} : ByteClass.ofChar c = .star ↔ c = '*' :=
  ofChar_eq_iff rfl rfl

@[simp] theorem ofChar_eq_backslash {c : Char} : ByteClass.ofChar c = .backslash ↔ c = '\\' :=
  ofChar_eq_iff rfl rfl

@[simp] theorem ofChar_eq_newline {c : Char} : ByteClass.ofChar c = .newline ↔ c = '\n' :=
  ofChar_eq_iff rfl rfl

@[simp] theorem ofChar_eq_quote {c : Char} {q : Quote} :
    ByteClass.ofChar c = .quote q ↔ c = q.char :=
  ofChar_eq_iff rfl (by cases q <;> rfl)

@[simp] theorem ofChar_eq_openBrace {c : Char} : ByteClass.ofChar c = .openBrace ↔ c = '{' :=
  ofChar_eq_iff rfl rfl

@[simp] theorem ofChar_eq_closeBrace {c : Char} : ByteClass.ofChar c = .closeBrace ↔ c = '}' :=
  ofChar_eq_iff rfl rfl

/-! ### One step for each character -/

/-- A character beyond ASCII moves the automaton as one byte of class `other` does. -/
theorem step_step_other (m : Mode) (next : Option ByteClass) :
    (m.step .other (some .other)).step .other next = m.step .other next := by
  have hstep : m.step .other (some .other) = m.read .other (some .other) := by
    simp [Mode.step, Mode.before]
  have hread : (m.read .other (some .other)).read .other next = m.read .other next := by
    cases m <;> rfl
  rw [hstep, Mode.step, hread, ← Mode.step]

theorem run_replicate_other (m : Mode) (n : Nat) (next : Option ByteClass) :
    run m (List.replicate (n + 1) .other) next = m.step .other next := by
  induction n generalizing m with
  | zero => rfl
  | succ n ih =>
    rw [List.replicate_succ, run, ih, List.replicate_succ]
    exact step_step_other m next

/-- A character of several bytes is of class `other`; one of a single byte is that byte. -/
theorem charClasses_cases (c : Char) :
    charClasses c = [ByteClass.ofChar c] ∧ c.utf8Size = 1
      ∨ ∃ n, charClasses c = List.replicate (n + 1) .other ∧ ByteClass.ofChar c = .other
          ∧ c.utf8Size = n + 1 := by
  have hpos := c.utf8Size_pos
  rcases Nat.lt_or_ge 1 c.utf8Size with h | h
  · right
    refine ⟨c.utf8Size - 1, ?_, ofChar_of_one_lt h, by omega⟩
    rw [charClasses_eq, ofChar_of_one_lt h, Nat.sub_add_cancel (by omega)]
  · left
    have h1 : c.utf8Size = 1 := by omega
    exact ⟨by rw [charClasses_eq, h1]; rfl, h1⟩

/-- The mode after a character, the class of the byte after it being `next`. -/
theorem run_charClasses (m : Mode) (c : Char) (next : Option ByteClass) :
    run m (charClasses c) next = m.step (.ofChar c) next := by
  rcases charClasses_cases c with ⟨h, -⟩ | ⟨n, h, ho, -⟩
  · rw [h]
    rfl
  · rw [h, ho, run_replicate_other]

theorem depthBefore_replicate_other (m : Mode) (d n k : Nat) (bs : List ByteClass) :
    depthBefore m d (List.replicate n .other ++ bs) (n + k)
      = depthBefore (run m (List.replicate n .other) bs.head?) d bs k := by
  induction n generalizing m with
  | zero => simp [run]
  | succ n ih =>
    have hcount : m.count d .other = d := by cases m <;> rfl
    rw [List.replicate_succ, List.cons_append, Nat.add_right_comm, depthBefore, hcount, ih, run]
    cases n <;> rfl

/-- The brace count moves over a character as over one byte of its class. -/
theorem depthBefore_charClasses (m : Mode) (d : Nat) (c : Char) (bs : List ByteClass) (k : Nat) :
    depthBefore m d (charClasses c ++ bs) (c.utf8Size + k)
      = depthBefore (m.step (.ofChar c) bs.head?) (m.count d (.ofChar c)) bs k := by
  rcases charClasses_cases c with ⟨h, hs⟩ | ⟨n, h, ho, hs⟩
  · rw [h, hs, Nat.add_comm]
    rfl
  · have hcount : m.count d .other = d := by cases m <;> rfl
    rw [h, hs, depthBefore_replicate_other, run_replicate_other, ho, hcount]

theorem modeAt_charClasses (m : Mode) (c : Char) (bs : List ByteClass) (k : Nat) :
    modeAt m (charClasses c ++ bs) (c.utf8Size + k)
      = modeAt (m.step (.ofChar c) bs.head?) bs k := by
  rw [← length_charClasses c, modeAt_append, run_charClasses]

theorem opensAt_charClasses (c : Char) (bs : List ByteClass) (k : Nat) :
    opensAt (charClasses c ++ bs) (c.utf8Size + k) = opensAt bs k := by
  rw [← length_charClasses c, opensAt_append]

/-! ### What is left of a region -/

/-- The class of the byte that comes next. -/
abbrev nextClass (cs : List Char) : Option ByteClass := cs.head?.map ByteClass.ofChar

theorem fits_step (m : Mode) (b : ByteClass) (next : Option ByteClass) :
    ∀ b' ∈ next, (m.step b next).Fits b' := by
  rintro b' rfl
  exact m.step_fits b b'

/-- The bytes that are left of the comment or string a mode is in; none in code. -/
def Mode.remaining : Mode → List Char → Nat
  | .code, _ => 0
  | .lineComment, cs => lineLength cs
  | .blockOpening, [] => 0
  | .blockOpening, c :: cs => c.utf8Size + blockCommentLength cs
  | .blockComment, cs => blockCommentLength cs
  | .blockClosing, [] => 0
  | .blockClosing, c :: _ => c.utf8Size
  | .quoted q, cs => stringLength q.char cs
  | .escaped _, [] => 0
  | .escaped q, c :: cs => c.utf8Size + stringLength q.char cs

@[simp] theorem remaining_code (cs : List Char) : Mode.remaining .code cs = 0 := rfl

theorem remaining_nil (m : Mode) : m.remaining [] = 0 := by cases m <;> rfl

theorem blockCommentLength_cons (c : Char) (cs : List Char)
    (h : ¬ (c = '*' ∧ cs.head? = some '/')) :
    blockCommentLength (c :: cs) = c.utf8Size + blockCommentLength cs := by
  rw [blockCommentLength]
  rintro cs' hc rfl
  exact h ⟨hc, rfl⟩

theorem stringLength_cons (q c : Char) (cs : List Char) (hb : c ≠ '\\') :
    stringLength q (c :: cs)
      = if c = q then c.utf8Size
        else if c = '\n' ∧ q ≠ '`' then 0
        else c.utf8Size + stringLength q cs := by
  rw [stringLength]
  · rintro rfl _; exact hb rfl
  · rintro d ds rfl _; exact hb rfl

/-- A region that gives way before the next byte has nothing left. -/
theorem remaining_before_code (m : Mode) (cs : List Char)
    (h : ∀ b, nextClass cs = some b → b = .newline ∧ m.stopsAtNewline) : m.remaining cs = 0 := by
  cases cs with
  | nil => exact remaining_nil m
  | cons c cs =>
    obtain ⟨hc, hm⟩ := h _ rfl
    rw [ofChar_eq_newline] at hc
    subst hc
    cases m with
    | lineComment => simp [Mode.remaining, lineLength]
    | quoted q =>
      have hq : q.char ≠ '`' := by cases q <;> simp_all [Mode.stopsAtNewline, Quote.char]
      have hn : '\n' ≠ q.char := by cases q <;> decide
      rw [Mode.remaining, stringLength_cons _ _ _ (by decide), if_neg hn, if_pos ⟨rfl, hq⟩]
    | _ => simp [Mode.stopsAtNewline] at hm

/-- Giving way does not change how many bytes are left. -/
@[simp] theorem remaining_before (m : Mode) (cs : List Char) :
    (m.before (nextClass cs)).remaining cs = m.remaining cs := by
  rcases h : nextClass cs with - | b
  · rw [remaining_before_code m cs (by simp [h])]
    rfl
  · by_cases hb : b = .newline ∧ m.stopsAtNewline
    · rw [remaining_before_code m cs (by rw [h]; rintro b' ⟨⟩; exact hb), Mode.before, if_pos hb]
      rfl
    · rw [Mode.before, if_neg hb]

/-- Reading one character of a region leaves so many bytes less. -/
theorem remaining_cons {m : Mode} {c : Char} (cs : List Char) (hm : m ≠ .code)
    (hfit : m.Fits (.ofChar c)) :
    m.remaining (c :: cs)
      = c.utf8Size + (m.step (.ofChar c) (nextClass cs)).remaining cs := by
  rw [Mode.step, remaining_before]
  cases m with
  | code => exact absurd rfl hm
  | lineComment =>
    have hc : c ≠ '\n' := by simpa [Mode.Fits, Mode.stopsAtNewline] using hfit
    simp [Mode.remaining, Mode.read, lineLength, hc]
  | blockOpening => rfl
  | blockComment =>
    by_cases h : c = '*' ∧ cs.head? = some '/'
    · -- the comment closes here
      obtain ⟨rfl, hcs⟩ := h
      obtain ⟨cs, rfl⟩ := List.head?_eq_some_iff.mp hcs
      rfl
    · -- it goes on
      have hread : Mode.read .blockComment (.ofChar c) (nextClass cs) = .blockComment := by
        rw [Mode.read]
        rintro h1 h2
        refine h ⟨ofChar_eq_star.mp h1, ?_⟩
        obtain ⟨d, hd, hslash⟩ := Option.map_eq_some_iff.mp h2
        rw [hd, ofChar_eq_slash.mp hslash]
      rw [hread]
      exact blockCommentLength_cons c cs h
  | blockClosing => rfl
  | quoted q =>
    by_cases hb : c = '\\'
    · -- the next character is escaped
      subst hb
      have hread : Mode.read (.quoted q) (.ofChar '\\') (nextClass cs) = .escaped q := rfl
      rw [hread]
      cases cs with
      | nil => rfl
      | cons d cs => exact Nat.add_assoc _ _ _
    · -- no line end closes the string
      have hb' : ByteClass.ofChar c ≠ .backslash := by simpa using hb
      have hline : ¬ (c = '\n' ∧ q.char ≠ '`') := by
        rintro ⟨rfl, hq⟩
        exact hfit ⟨rfl, by cases q <;> simp_all [Mode.stopsAtNewline, Quote.char]⟩
      rw [Mode.read, if_neg hb', Mode.remaining, stringLength_cons _ _ _ hb, if_neg hline]
      by_cases hq : c = q.char
      · rw [if_pos hq, if_pos (ofChar_eq_quote.mpr hq)]
        rfl
      · rw [if_neg hq, if_neg (mt ofChar_eq_quote.mp hq)]
        rfl
  | escaped q => rfl

/-- The length of the region that opens at a character of code, if one does. -/
theorem quietLength_cons (c : Char) (cs : List Char) :
    quietLength (c :: cs)
      = (opening? (.ofChar c) (nextClass cs)).map
          fun m => c.utf8Size + m.remaining cs := by
  unfold quietLength
  split
  · next cs heq =>
    obtain ⟨rfl, rfl⟩ := List.cons.inj heq
    exact congrArg some (Nat.add_assoc 1 1 _)
  · next cs heq =>
    obtain ⟨rfl, rfl⟩ := List.cons.inj heq
    exact congrArg some (Nat.add_assoc 1 1 _)
  · next cs heq =>
    obtain ⟨rfl, rfl⟩ := List.cons.inj heq
    rfl
  · next cs heq =>
    obtain ⟨rfl, rfl⟩ := List.cons.inj heq
    rfl
  · next cs heq =>
    obtain ⟨rfl, rfl⟩ := List.cons.inj heq
    rfl
  · next hline hblock hsingle hdouble hback =>
    -- no opener is left
    have hnone : opening? (.ofChar c) (nextClass cs) = none := by
      rw [opening?]
      · intro q hq
        have hc : c = q.char := ofChar_eq_quote.mp hq
        cases q with
        | single => exact hsingle cs (by rw [hc]; rfl)
        | double => exact hdouble cs (by rw [hc]; rfl)
        | back => exact hback cs (by rw [hc]; rfl)
      · rintro h1 h2
        obtain ⟨d, hd, hslash⟩ := Option.map_eq_some_iff.mp h2
        obtain ⟨cs, rfl⟩ := List.head?_eq_some_iff.mp hd
        exact hline cs (by rw [ofChar_eq_slash.mp h1, ofChar_eq_slash.mp hslash])
      · rintro h1 h2
        obtain ⟨d, hd, hstar⟩ := Option.map_eq_some_iff.mp h2
        obtain ⟨cs, rfl⟩ := List.head?_eq_some_iff.mp hd
        exact hblock cs (by rw [ofChar_eq_slash.mp h1, ofChar_eq_star.mp hstar])
    rw [hnone]
    rfl

/-! ### One character of the pass -/

/-- The marks the pass makes at one character. -/
def marksAt (m : Mode) (offset depth : Nat) (c : Char) (cs : List Char) : List Mark :=
  if m = .code then
    if (opening? (.ofChar c) (nextClass cs)).isSome then
      [.quiet ⟨offset, offset + (c.utf8Size + (m.step (.ofChar c) (nextClass cs)).remaining cs)⟩]
    else if c = '{' then [.brace ⟨offset, true, depth + 1⟩]
    else if c = '}' then [.brace ⟨offset, false, depth - 1⟩]
    else []
  else []

/-- **The pass follows the automaton.**  What the pass still has to skip is what is left of the
region the automaton is in, before and after every character. -/
theorem marksFrom_cons {m : Mode} {c : Char} {cs : List Char} (offset depth : Nat)
    (hfit : m.Fits (.ofChar c)) :
    marksFrom (m.remaining (c :: cs)) offset depth (c :: cs)
      = marksAt m offset depth c cs
        ++ marksFrom ((m.step (.ofChar c) (nextClass cs)).remaining cs) (offset + c.utf8Size)
            (m.count depth (.ofChar c)) cs := by
  by_cases hm : m = .code
  · subst hm
    rw [marksAt, if_pos rfl, remaining_code, marksFrom, if_neg (Nat.lt_irrefl 0), quietLength_cons]
    rcases ho : opening? (.ofChar c) (nextClass cs) with - | r
    · -- nothing is opened: a brace, or any other character
      have hstep : Mode.step .code (.ofChar c) (nextClass cs) = .code := by
        rw [Mode.step, Mode.read, ho]
        exact Mode.before_code _
      rw [hstep, remaining_code]
      by_cases h1 : c = '{'
      · subst h1; rfl
      · by_cases h2 : c = '}'
        · subst h2; rfl
        · have hcount : Mode.count .code depth (.ofChar c) = depth := by
            rw [Mode.count]
            · exact fun _ h => h1 (ofChar_eq_openBrace.mp h)
            · exact fun _ h => h2 (ofChar_eq_closeBrace.mp h)
          rw [hcount]
          simp only [Option.map_none, Option.isSome_none, Bool.false_eq_true, if_false, if_neg h1,
            if_neg h2, List.nil_append]
    · -- a comment or string is opened
      have hstep : (Mode.step .code (.ofChar c) (nextClass cs)).remaining cs = r.remaining cs := by
        rw [Mode.step, Mode.read, ho, remaining_before]
        rfl
      have hcount : Mode.count .code depth (.ofChar c) = depth := by
        rw [Mode.count]
        · intro _ h
          rw [h] at ho
          cases ho
        · intro _ h
          rw [h] at ho
          cases ho
      rw [hstep, hcount]
      simp only [Option.map_some, Option.isSome_some, if_true, Nat.add_sub_cancel_left,
        List.singleton_append]
  · -- in the middle of one nothing is marked
    have hcount : m.count depth (.ofChar c) = depth := by
      cases m <;> first | exact absurd rfl hm | rfl
    have hpos : 0 < m.remaining (c :: cs) := by
      rw [remaining_cons cs hm hfit]
      exact Nat.lt_of_lt_of_le c.utf8Size_pos (Nat.le_add_right _ _)
    rw [marksAt, if_neg hm, List.nil_append, marksFrom, if_pos hpos, hcount,
      remaining_cons cs hm hfit, Nat.add_sub_cancel_left]

/-- What is left of a region lies inside the text. -/
theorem remaining_le {m : Mode} {cs : List Char} (hfit : ∀ b ∈ nextClass cs, m.Fits b) :
    m.remaining cs ≤ byteLength cs := by
  induction cs generalizing m with
  | nil => exact Nat.le_of_eq (remaining_nil m)
  | cons c cs ih =>
    by_cases hm : m = .code
    · rw [hm, remaining_code]
      exact Nat.zero_le _
    · rw [remaining_cons cs hm (hfit _ rfl), byteLength_cons]
      exact Nat.add_le_add_left (ih (fits_step m _ _)) _

end Scan

end Scaffold

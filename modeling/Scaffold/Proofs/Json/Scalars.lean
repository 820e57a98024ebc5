/-
Scaffold/Proofs/Json/Scalars.lean

Printed strings and integers read back.

A printed scalar stands in front of the rest of a text, and the reader has to
find where it ends.  A string ends at the first quotation mark that is not
escaped, whatever follows it.  A run of digits has no mark of its own: it is
read back only in front of a text that does not go on as a number
(`EndsNumber`).

* `string?_stringText` — every string reads back, whatever its characters;
* `number?_intText` — so does every integer of machine size.
-/
import Mathlib.Algebra.Order.Ring.Int
import Mathlib.Data.List.Basic
import Mathlib.Data.List.TakeDrop
import Scaffold.Json.Reader
import Scaffold.Json.Printer

namespace Scaffold

namespace Json

/-! ### Strings -/

theorem hexDigit_digitChar {n : Nat} (h : n < 16) : hexUnit.hexDigit n.digitChar = some n := by
  revert n
  decide

/-- The unit of a character below the space has two zeros in front. -/
theorem hexUnit_control {n : Nat} (h : n < 0x20) (cs : List Char) :
    hexUnit ('0' :: '0' :: (n / 16).digitChar :: (n % 16).digitChar :: cs) = some (n, cs) := by
  have zero : hexUnit.hexDigit '0' = some 0 := hexDigit_digitChar (n := 0) (by decide)
  have high : hexUnit.hexDigit (n / 16).digitChar = some (n / 16) := hexDigit_digitChar (by omega)
  have low : hexUnit.hexDigit (n % 16).digitChar = some (n % 16) := hexDigit_digitChar (by omega)
  simp only [hexUnit, zero, high, low, Nat.zero_mul, Nat.zero_add, Option.some.injEq, Prod.mk.injEq,
    and_true]
  omega

/-- A control character by its code point is one step of the reader. -/
theorem stringBody_control (n : Nat) {c : Char} (h : c.toNat < 0x20) (cs : List Char) :
    stringBody (n + 1)
        ('\\' :: 'u' :: '0' :: '0' :: (c.toNat / 16).digitChar :: (c.toNat % 16).digitChar :: cs)
      = (stringBody n cs).map fun (xs, r) => (c :: xs, r) := by
  have plane : c.toNat < 0xD800 := by omega
  have read : unicodeEscape
      ('0' :: '0' :: (c.toNat / 16).digitChar :: (c.toNat % 16).digitChar :: cs) = some (c, cs) := by
    simp [unicodeEscape, hexUnit_control h, plane]
  simp [stringBody, read]

/-- A printed character is one step of the reader, which gives it back. -/
theorem stringBody_escapeChar (n : Nat) (c : Char) (cs : List Char) :
    stringBody (n + 1) (escapeChar c ++ cs) = (stringBody n cs).map fun (xs, r) => (c :: xs, r) := by
  have short {k : Nat} (h : c.toNat = k) : Char.ofNat k = c := h ▸ Char.ofNat_toNat c
  rw [escapeChar]
  split_ifs with hquote hback h8 h9 h10 h12 h13 h16 h32
  -- the short escapes
  · subst hquote; rfl
  · subst hback; rfl
  · obtain rfl := short h8; rfl
  · obtain rfl := short h9; rfl
  · obtain rfl := short h10; rfl
  · obtain rfl := short h12; rfl
  · obtain rfl := short h13; rfl
  · -- one hexadecimal digit
    have read := stringBody_control n (by omega : c.toNat < 0x20) cs
    rw [Nat.div_eq_of_lt h16, Nat.mod_eq_of_lt h16] at read
    rw [Text.hexadecimal, Nat.toDigits_of_lt_base h16]
    exact read
  · -- two of them
    have digits : Nat.toDigits 16 c.toNat
        = [(c.toNat / 16).digitChar, (c.toNat % 16).digitChar] := by
      rw [Nat.toDigits_eq_if (by decide), if_neg h16, Nat.toDigits_of_lt_base (by omega)]
      rfl
    rw [Text.hexadecimal, digits]
    exact stringBody_control n h32 cs
  · -- any other character stands for itself
    simp [stringBody, hquote, hback, h32]

/-- The characters of a string, escaped and closed, are read back. -/
theorem stringBody_escaped {n : Nat} {s : List Char} (h : s.length < n) (cs : List Char) :
    stringBody n (s.flatMap escapeChar ++ '"' :: cs) = some (s, cs) := by
  induction s generalizing n with
  | nil =>
    obtain ⟨n, rfl⟩ := Nat.exists_eq_add_one.mpr h
    simp [stringBody]
  | cons c s ih =>
    obtain ⟨n, rfl⟩ := Nat.exists_eq_add_one.mpr (Nat.zero_lt_of_lt h)
    rw [List.flatMap_cons, List.append_assoc, stringBody_escapeChar,
      ih (Nat.lt_of_succ_lt_succ h)]
    rfl

theorem escapeChar_ne_nil (c : Char) : escapeChar c ≠ [] := by
  rw [escapeChar]
  split_ifs <;> simp

/-- No string is longer than its escaped text. -/
theorem length_le_escaped (s : List Char) : s.length ≤ (s.flatMap escapeChar).length := by
  induction s with
  | nil => exact Nat.le_refl _
  | cons c s ih =>
    have := List.length_pos_iff.mpr (escapeChar_ne_nil c)
    rw [List.flatMap_cons, List.length_append, List.length_cons]
    omega

/-- **A printed string reads back**, in front of any text. -/
theorem string?_stringText (s : String) (cs : List Char) :
    string? (stringText s ++ cs) = some (s, cs) := by
  have room : s.toList.length < (s.toList.flatMap escapeChar ++ '"' :: cs).length + 1 := by
    have := length_le_escaped s.toList
    rw [List.length_append]
    omega
  simp only [stringText, List.cons_append, List.append_assoc, List.nil_append, string?]
  rw [stringBody_escaped room, Option.map_some, String.ofList_toList]

/-! ### Digits -/

/-- A text that does not go on as a number. -/
def EndsNumber (cs : List Char) : Prop :=
  ∀ c ∈ cs.head?, c.isDigit = false ∧ c ≠ '.' ∧ c ≠ 'e' ∧ c ≠ 'E'

theorem endsNumber_nil : EndsNumber [] := by simp [EndsNumber]

theorem EndsNumber.cons {c : Char} {cs : List Char}
    (h : c.isDigit = false ∧ c ≠ '.' ∧ c ≠ 'e' ∧ c ≠ 'E') : EndsNumber (c :: cs) := by
  rintro d ⟨⟩
  exact h

variable {rest : List Char}

/-- A run of digits is read up to its end. -/
theorem digits1_append {ds : List Char} (hne : ds ≠ []) (hds : ∀ d ∈ ds, d.isDigit)
    (hrest : EndsNumber rest) : digits1 (ds ++ rest) = some (ds, rest) := by
  have stop : rest.takeWhile Char.isDigit = [] ∧ rest.dropWhile Char.isDigit = rest := by
    cases rest with
    | nil => exact ⟨rfl, rfl⟩
    | cons c cs => simp [(hrest c rfl).1]
  have run : (ds ++ rest).span Char.isDigit = (ds, rest) := by
    rw [List.span_eq_takeWhile_dropWhile, List.takeWhile_append_of_pos hds,
      List.dropWhile_append_of_pos hds, stop.1, stop.2, List.append_nil]
  simp only [digits1, run, List.isEmpty_eq_false_iff.mpr hne, Bool.false_eq_true, ↓reduceIte]

theorem le_ofDigitChars (ds : List Char) (start : Nat) : start ≤ Nat.ofDigitChars 10 ds start := by
  induction ds generalizing start with
  | nil => exact Nat.le_refl _
  | cons d ds ih =>
    rw [Nat.ofDigitChars_cons]
    exact Nat.le_trans (by omega) (ih _)

/-- Digits of a number of machine size are all significant. -/
theorem significand_eq {ds : List Char} {start : Nat}
    (h : Nat.ofDigitChars 10 ds start ≤ maxUnsigned) :
    significand start ds = (Nat.ofDigitChars 10 ds start, []) := by
  induction ds generalizing start with
  | nil => rfl
  | cons d ds ih =>
    rw [Nat.ofDigitChars_cons, Nat.mul_comm] at h ⊢
    have fits : start * 10 + digitValue d ≤ maxUnsigned := Nat.le_trans (le_ofDigitChars ds _) h
    rw [significand, if_pos fits]
    exact ih h

theorem digitChar_ne_zero {d : Nat} (h : d < 10) (hd : d ≠ 0) : d.digitChar ≠ '0' := by
  revert d
  decide

/-- Only zero is written with a zero in front. -/
theorem head?_toDigits {n : Nat} (hn : n ≠ 0) : (Nat.toDigits 10 n).head? ≠ some '0' := by
  induction n using Nat.strong_induction_on with
  | _ n ih =>
    rw [Nat.toDigits_eq_if (by decide)]
    split_ifs with h
    · simpa using digitChar_ne_zero h hn
    · rw [List.head?_append_of_ne_nil _ Nat.toDigits_ne_nil]
      exact ih (n / 10) (by omega) (by omega)

/-- So no number is written with a zero that does not count. -/
theorem not_leading_zero (n : Nat) :
    ¬ ((Nat.toDigits 10 n).head? = some '0' ∧ 1 < (Nat.toDigits 10 n).length) := by
  rcases Nat.eq_zero_or_pos n with rfl | hn
  · decide
  · exact fun h => head?_toDigits hn.ne' h.1

/-! ### Integers -/

/-- A text that ends a number has no fraction and no exponent. -/
theorem fraction?_of_ends (h : EndsNumber rest) : fraction? rest = some ([], rest) := by
  cases rest with
  | nil => rfl
  | cons c cs =>
    have := (h c rfl).2.1
    rw [fraction?]
    rintro _ ⟨rfl, -⟩
    exact this rfl

theorem power?_of_ends (h : EndsNumber rest) : power? rest = some (none, rest) := by
  cases rest with
  | nil => rfl
  | cons c cs =>
    obtain ⟨-, -, he, hE⟩ := h c rfl
    simp [power?, he, hE]

/-- The digits of a number are one run. -/
theorem digits1_toDigits (n : Nat) (h : EndsNumber rest) :
    digits1 (Nat.toDigits 10 n ++ rest) = some (Nat.toDigits 10 n, rest) :=
  digits1_append Nat.toDigits_ne_nil
    (fun _ hd => Nat.isDigit_of_mem_toDigits (by decide) (by decide) hd) h

/-- A digit is no sign, so digits on their own are not negative. -/
theorem number?_toDigits (n : Nat) (h : EndsNumber rest) :
    number? (Nat.toDigits 10 n ++ rest)
      = (number false (Nat.toDigits 10 n) [] none).map fun v => (v, rest) := by
  have unsigned (cs : List Char) : Nat.toDigits 10 n ++ rest ≠ '-' :: cs := by
    intro heq
    have hd := congrArg List.head? heq
    rw [List.head?_append_of_ne_nil _ Nat.toDigits_ne_nil, List.head?_cons] at hd
    have := Nat.isDigit_of_mem_toDigits (b := 10) (by decide) (by decide)
      (List.mem_of_head? hd)
    exact absurd this (by decide)
  rw [number?]
  · simp only [digits1_toDigits n h, Option.bind_some, not_leading_zero n, ↓reduceIte,
      fraction?_of_ends h, power?_of_ends h]
  · exact unsigned

theorem number?_minus (n : Nat) (h : EndsNumber rest) :
    number? ('-' :: (Nat.toDigits 10 n ++ rest))
      = (number true (Nat.toDigits 10 n) [] none).map fun v => (v, rest) := by
  simp only [number?, digits1_toDigits n h, Option.bind_some, not_leading_zero n, ↓reduceIte,
    fraction?_of_ends h, power?_of_ends h]

/-- The integers of machine size: the signed ones, and the unsigned ones above them. -/
def FitsMachine (n : Int) : Prop := -(2 ^ 63 : Int) ≤ n ∧ n ≤ maxUnsigned

theorem fitsMachine_nat {n : Nat} (h : n ≤ maxUnsigned) : FitsMachine n := by
  constructor <;> omega

/-- An integer whose digits are all significant is read as it is, with its sign. -/
theorem number_toDigits {n : Nat} (h : n ≤ maxUnsigned) (negative : Bool)
    (hsign : negative = true → 0 < n ∧ n ≤ 2 ^ 63) :
    number negative (Nat.toDigits 10 n) [] none = some (.int (if negative then -n else n)) := by
  have value : Nat.ofDigitChars 10 (Nat.toDigits 10 n) 0 = n :=
    Nat.ofDigitChars_toDigits (by decide) (by decide)
  have read : significand 0 (Nat.toDigits 10 n) = (n, []) := by
    rw [significand_eq (value.symm ▸ h), value]
  cases negative with
  | false => simp [number, read]
  | true =>
    obtain ⟨hpos, hle⟩ := hsign rfl
    have signed : ¬ (n = 0 ∨ Nat.pow 2 63 < n) := by
      rintro (rfl | h63)
      · exact absurd hpos (Nat.lt_irrefl 0)
      · exact absurd hle (Nat.not_le.mpr h63)
    simp only [number, read, Bool.not_true, Bool.false_eq_true, signed, ↓reduceIte]

/-- **A printed integer of machine size reads back.** -/
theorem number?_intText {n : Int} (hn : FitsMachine n) (h : EndsNumber rest) :
    number? (intText n ++ rest) = some (.int n, rest) := by
  obtain ⟨hlow, hhigh⟩ := hn
  rw [intText]
  split_ifs with hneg
  · have small : n.natAbs ≤ 2 ^ 63 := by omega
    have fits : n.natAbs ≤ maxUnsigned := Nat.le_trans small (by decide)
    rw [List.cons_append, number?_minus _ h,
      number_toDigits fits true fun _ => ⟨by omega, small⟩, Option.map_some, if_pos rfl]
    congr
    omega
  · rw [number?_toDigits _ h, number_toDigits (by omega) false (by simp), Option.map_some,
      if_neg Bool.false_ne_true]
    congr
    omega

end Json

end Scaffold

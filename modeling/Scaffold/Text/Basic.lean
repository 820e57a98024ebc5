/-
Scaffold/Text/Basic.lean

Texts as lists of characters, measured in bytes.

Every offset the library reports counts bytes of the UTF-8 encoding, while
everything it decides, it decides character by character.  A text is
therefore a `List Char`, and the two functions that cut one take a number of
bytes:

* `byteLength` — the length of the encoding;
* `dropBytes`, `takeBytes` — the part after, and the part before, an offset;
* `slice` — the part between two offsets.

An offset inside a character is never cut: `dropBytes` drops the whole
character that reaches past the offset and `takeBytes` leaves it out.

The rest are the blank-aware trims, and the words of a text.
-/

namespace Scaffold

namespace Text

/-! ### Offsets -/

/-- The number of bytes in the UTF-8 encoding of a text. -/
def byteLength : List Char → Nat
  | [] => 0
  | c :: cs => c.utf8Size + byteLength cs

/-- The text after its first `n` bytes. -/
def dropBytes : Nat → List Char → List Char
  | _, [] => []
  | 0, cs => cs
  | n + 1, c :: cs => dropBytes (n + 1 - c.utf8Size) cs

/-- The characters that fit into the first `n` bytes. -/
def takeBytes : Nat → List Char → List Char
  | _, [] => []
  | n, c :: cs => if c.utf8Size ≤ n then c :: takeBytes (n - c.utf8Size) cs else []

/-- The text from byte `start` up to, and without, byte `stop`. -/
def slice (start stop : Nat) (cs : List Char) : List Char :=
  takeBytes (stop - start) (dropBytes start cs)

@[simp] theorem byteLength_nil : byteLength [] = 0 := rfl

@[simp] theorem byteLength_cons (c : Char) (cs : List Char) :
    byteLength (c :: cs) = c.utf8Size + byteLength cs := rfl

theorem byteLength_append (s t : List Char) :
    byteLength (s ++ t) = byteLength s + byteLength t := by
  induction s with
  | nil => simp
  | cons c s ih => simp [ih, Nat.add_assoc]

@[simp] theorem dropBytes_zero (cs : List Char) : dropBytes 0 cs = cs := by
  cases cs <;> rfl

/-- Cutting at the seam of two texts gives the second one back. -/
theorem dropBytes_append (s t : List Char) : dropBytes (byteLength s) (s ++ t) = t := by
  induction s with
  | nil => simp
  | cons c s ih =>
    have hc : c.utf8Size + byteLength s ≠ 0 := by have := c.utf8Size_pos; omega
    obtain ⟨n, hn⟩ := Nat.exists_eq_succ_of_ne_zero hc
    simp only [byteLength_cons, List.cons_append, hn, Nat.succ_eq_add_one, dropBytes]
    rw [← Nat.succ_eq_add_one, ← hn, Nat.add_sub_cancel_left, ih]

/-- Cutting at the seam of two texts gives the first one back. -/
theorem takeBytes_append (s t : List Char) : takeBytes (byteLength s) (s ++ t) = s := by
  induction s with
  | nil =>
    cases t with
    | nil => rfl
    | cons c t =>
      have hc : 0 < c.utf8Size := c.utf8Size_pos
      simp [takeBytes, Nat.not_le.mpr hc]
  | cons c s ih => simp [takeBytes, ih]

/-! ### Blanks -/

/-- White space as Unicode's `White_Space` property has it.  Zero-width characters and the
byte-order mark are not in it. -/
def isBlank (c : Char) : Bool :=
  let n := c.toNat
  (9 ≤ n && n ≤ 13) || n == 0x20 || n == 0x85 || n == 0xA0 || n == 0x1680
    || (0x2000 ≤ n && n ≤ 0x200A) || n == 0x2028 || n == 0x2029 || n == 0x202F
    || n == 0x205F || n == 0x3000

def trimStart (cs : List Char) : List Char := cs.dropWhile isBlank

/-- The text without the characters at its end that satisfy `p`. -/
def dropEndWhile (p : Char → Bool) : List Char → List Char
  | [] => []
  | c :: cs =>
    match dropEndWhile p cs with
    | [] => if p c then [] else [c]
    | kept => c :: kept

def trimEnd (cs : List Char) : List Char := dropEndWhile isBlank cs

def trim (cs : List Char) : List Char := trimEnd (trimStart cs)

/-! ### Tables -/

/-- Whether a character's code point lies in a table of closed ranges, which are in ascending
order. -/
def inRanges (c : Char) : List (Nat × Nat) → Bool
  | [] => false
  | (low, high) :: rest => low ≤ c.toNat && (c.toNat ≤ high || inRanges c rest)

/-- Whether closed ranges are in ascending order and apart from each other. -/
def areAscending (ranges : List (Nat × Nat)) : Bool :=
  ranges.all (fun r => decide (r.1 ≤ r.2))
    && (ranges.zip ranges.tail).all (fun p => decide (p.1.2 < p.2.1))

/-! ### Pieces -/

/-- The maximal runs of characters that do not satisfy `sep`, the empty ones included: one more
than there are separators. -/
def splitWhere (sep : Char → Bool) : List Char → List (List Char)
  | [] => [[]]
  | c :: cs =>
    if sep c then [] :: splitWhere sep cs
    else
      match splitWhere sep cs with
      | [] => [[c]]
      | piece :: pieces => (c :: piece) :: pieces

/-- The words of a text: its pieces between blanks, the empty ones left out. -/
def words (cs : List Char) : List (List Char) :=
  (splitWhere isBlank cs).filter (fun w => !w.isEmpty)

def contains (needle : List Char) : List Char → Bool
  | [] => needle.isEmpty
  | c :: cs => needle.isPrefixOf (c :: cs) || contains needle cs

/-- The text with one prefix removed as often as it repeats.  An empty prefix removes nothing. -/
def dropRepeated (lead : List Char) (cs : List Char) : List Char :=
  go cs.length cs
where
  /-- At most `n` more removals. -/
  go : Nat → List Char → List Char
    | 0, cs => cs
    | n + 1, cs => if lead.isPrefixOf cs then go n (cs.drop lead.length) else cs

end Text

end Scaffold

/-
Scaffold/Proofs/Document/Lines.lean

The lines of a document as a scan of its text sees them.

A document is put together from pieces of a line (`Piece`): read from code, a
piece ends in code, with its braces paired, and has no newline.  Lines make
fragments.  `Fragment level ls shown` says that the lines `ls`, where `level`
braces are open in front of them, leave as many open behind them, and that
`shown` are the groups they open, each with its level and name: the line of a
group begins in code, at the depth of its level, and is indented by it.

Fragments follow each other (`Fragment.append`), and a line with an opening
brace and a line with its partner enclose one of the next level
(`Fragment.enclosed`).
-/
import Scaffold.Document
import Scaffold.Proofs.Scan.Nesting

namespace Scaffold

open Text Scan

/-! ### Lines that open a group -/

/-- A line of a text that opens a group. -/
structure GroupLine where
  /-- The offset of its first word. -/
  offset : Nat
  /-- The blanks in front of that word. -/
  indent : Nat
  /-- The name of the group. -/
  name : String
deriving DecidableEq, Repr

/-- The word that opens a group, up to the name. -/
def groupWord : List Char := ['d', 'e', 's', 'c', 'r', 'i', 'b', 'e', '(', '\'']

/-- The group a line opens, the line with its offset. -/
def groupLine? (place : Nat × List Char) : Option GroupLine :=
  let indent := place.2.takeWhile (· == ' ')
  let words := place.2.dropWhile (· == ' ')
  if groupWord.isPrefixOf words then
    some ⟨place.1 + indent.length, indent.length,
      .ofList ((words.drop groupWord.length).takeWhile (· != '\''))⟩
  else none

/-- Lines with their offsets, the first of them at `offset`. -/
def placeLines (offset : Nat) : List (List Char) → List (Nat × List Char)
  | [] => []
  | l :: ls => (offset, l) :: placeLines (offset + byteLength l + 1) ls

/-- The lines of a text that open a group, in their order. -/
def groupLines (cs : List Char) : List GroupLine :=
  (placeLines 0 (splitWhere (· == '\n') cs)).filterMap groupLine?

/-! ### Lines as a text -/

/-- Some lines as they are written. -/
def writtenLines (ls : List String) : List Char := (unlines ls).toList

@[simp] theorem writtenLines_nil : writtenLines [] = [] := rfl

@[simp] theorem writtenLines_cons (l : String) (ls : List String) :
    writtenLines (l :: ls) = l.toList ++ '\n' :: writtenLines ls := by
  simp [writtenLines, unlines, String.toList_join]

@[simp] theorem writtenLines_append (ls ls' : List String) :
    writtenLines (ls ++ ls') = writtenLines ls ++ writtenLines ls' := by
  simp [writtenLines, unlines, String.toList_join]

/-- The groups some lines open. -/
def groupsIn (offset : Nat) (ls : List String) : List GroupLine :=
  (placeLines offset (ls.map String.toList)).filterMap groupLine?

@[simp] theorem groupsIn_nil (offset : Nat) : groupsIn offset [] = [] := rfl

theorem groupsIn_cons (offset : Nat) (l : String) (ls : List String) :
    groupsIn offset (l :: ls)
      = (groupLine? (offset, l.toList)).toList
        ++ groupsIn (offset + byteLength (l.toList ++ ['\n'])) ls := by
  rw [groupsIn, List.map_cons, placeLines, List.filterMap_cons, byteLength_append, ← Nat.add_assoc]
  rcases groupLine? (offset, l.toList) with - | g <;> rfl

theorem groupsIn_append (offset : Nat) (ls ls' : List String) :
    groupsIn offset (ls ++ ls')
      = groupsIn offset ls ++ groupsIn (offset + byteLength (writtenLines ls)) ls' := by
  induction ls generalizing offset with
  | nil => rfl
  | cons l ls ih =>
    have hlines : byteLength (writtenLines (l :: ls))
        = byteLength (l.toList ++ ['\n']) + byteLength (writtenLines ls) := by
      rw [writtenLines_cons, ← byteLength_append]
      simp
    rw [List.cons_append, groupsIn_cons, groupsIn_cons, ih, List.append_assoc, hlines,
      Nat.add_assoc]

/-- The lines of a written text are those it was written from, and an empty one behind the last
newline. -/
theorem splitWhere_writtenLines {ls : List String} (h : ∀ l ∈ ls, '\n' ∉ l.toList) :
    splitWhere (· == '\n') (writtenLines ls) = ls.map String.toList ++ [[]] := by
  have hline : ∀ (l rest : List Char), '\n' ∉ l →
      splitWhere (· == '\n') (l ++ '\n' :: rest) = l :: splitWhere (· == '\n') rest := by
    intro l rest hl
    induction l with
    | nil => rfl
    | cons c l ih =>
      obtain ⟨hc, hl⟩ := List.ne_and_not_mem_of_not_mem_cons hl
      rw [List.cons_append, splitWhere, if_neg (by simpa using hc.symm), ih hl]
  induction ls with
  | nil => rfl
  | cons l ls ih =>
    rw [writtenLines_cons, hline _ _ (h l List.mem_cons_self),
      ih (fun l' hl' => h l' (List.mem_cons_of_mem _ hl')), List.map_cons, List.cons_append]

/-- **The groups a written text opens are those its lines open.** -/
theorem groupLines_writtenLines {ls : List String} (h : ∀ l ∈ ls, '\n' ∉ l.toList) :
    groupLines (writtenLines ls) = groupsIn 0 ls := by
  have hplace : ∀ (offset : Nat) (ls' : List (List Char)),
      (placeLines offset (ls' ++ [[]])).filterMap groupLine?
        = (placeLines offset ls').filterMap groupLine? := by
    intro offset ls'
    induction ls' generalizing offset with
    | nil => rfl
    | cons l ls' ih => rw [List.cons_append, placeLines, placeLines, List.filterMap_cons, ih,
        List.filterMap_cons]
  rw [groupLines, splitWhere_writtenLines h, hplace, groupsIn]

/-- A group that lines open begins inside them. -/
theorem groupsIn_range {offset : Nat} {ls : List String} {g : GroupLine}
    (h : g ∈ groupsIn offset ls) :
    offset ≤ g.offset ∧ g.offset < offset + byteLength (writtenLines ls) := by
  induction ls generalizing offset with
  | nil => cases h
  | cons l ls ih =>
    have hlength : byteLength (writtenLines (l :: ls))
        = byteLength (l.toList ++ ['\n']) + byteLength (writtenLines ls) := by
      rw [writtenLines_cons, ← byteLength_append]
      simp
    rw [groupsIn_cons, List.mem_append] at h
    rw [hlength]
    rcases h with h | h
    · -- the word comes behind the blanks, which are so many bytes
      rw [Option.mem_toList, groupLine?] at h
      simp only at h
      split_ifs at h
      cases h
      have hblanks : ∀ cs : List Char, (cs.takeWhile (· == ' ')).length ≤ byteLength cs := by
        intro cs
        induction cs with
        | nil => exact Nat.le_refl _
        | cons c cs ih =>
          have hpos := c.utf8Size_pos
          rw [List.takeWhile_cons, byteLength_cons]
          split_ifs
          · rw [List.length_cons]
            omega
          · exact Nat.zero_le _
      have hle := hblanks l.toList
      have hnewline : byteLength ['\n'] = 1 := rfl
      rw [byteLength_append]
      exact ⟨Nat.le_add_right _ _, by simp only; omega⟩
    · have := ih h
      omega

/-- The groups in a span are those of the lines it covers. -/
theorem filter_groupsIn {xs ys zs : List String} {span : Span}
    (hbefore : ∀ g ∈ groupsIn 0 xs, g.offset < span.start)
    (hstart : span.start ≤ byteLength (writtenLines xs))
    (hstop : span.stop = byteLength (writtenLines xs) + byteLength (writtenLines ys)) :
    (groupsIn 0 (xs ++ ys ++ zs)).filter (fun g => span.contains g.offset)
      = groupsIn (byteLength (writtenLines xs)) ys := by
  have hout : ∀ offset, offset < span.start ∨ span.stop ≤ offset →
      span.contains offset = false := by
    intro offset h
    simp only [Span.contains, Bool.and_eq_false_iff, decide_eq_false_iff_not]
    omega
  have hin : ∀ offset, span.start ≤ offset → offset < span.stop → span.contains offset = true := by
    intro offset h h'
    simp only [Span.contains, Bool.and_eq_true, decide_eq_true_eq]
    exact ⟨h, h'⟩
  rw [groupsIn_append, groupsIn_append, List.filter_append, List.filter_append, Nat.zero_add,
    Nat.zero_add, List.filter_eq_nil_iff.mpr, List.filter_eq_self.mpr, List.filter_eq_nil_iff.mpr,
    List.nil_append, List.append_nil]
  · -- groups behind the span
    intro g hg
    have := (groupsIn_range hg).1
    rw [writtenLines_append, byteLength_append] at this
    rw [hout g.offset (Or.inr (by omega))]
    exact Bool.false_ne_true
  · -- groups in it
    intro g hg
    have := groupsIn_range hg
    exact hin g.offset (by omega) (by omega)
  · -- groups in front of it
    intro g hg
    rw [hout g.offset (Or.inl (hbefore g hg))]
    exact Bool.false_ne_true

/-! ### Pieces of a line -/

/-- A piece of a line: its braces are paired, and it ends in code on the same line. -/
structure Piece (s : String) : Prop where
  balanced : Balanced s.toList
  oneLine : '\n' ∉ s.toList

/-- A piece without braces. -/
structure FlatPiece (s : String) : Prop where
  flat : Flat s.toList
  oneLine : '\n' ∉ s.toList

theorem FlatPiece.piece {s : String} (h : FlatPiece s) : Piece s := ⟨.flat h.flat, h.oneLine⟩

theorem FlatPiece.append {s t : String} (hs : FlatPiece s) (ht : FlatPiece t) :
    FlatPiece (s ++ t) := by
  constructor
  · rw [String.toList_append]
    exact hs.flat.append ht.flat
  · rw [String.toList_append, List.mem_append, not_or]
    exact ⟨hs.oneLine, ht.oneLine⟩

theorem Piece.append {s t : String} (hs : Piece s) (ht : Piece t) : Piece (s ++ t) := by
  constructor
  · rw [String.toList_append]
    exact hs.balanced.append ht.balanced
  · rw [String.toList_append, List.mem_append, not_or]
    exact ⟨hs.oneLine, ht.oneLine⟩

theorem FlatPiece.of_plain {s : String} (h : ∀ c ∈ s.toList, isPlain c = true ∧ c ≠ '\n') :
    FlatPiece s where
  flat := .plain fun c hc => (h c hc).1
  oneLine hc := (h _ hc).2 rfl

/-- A text that is known. -/
theorem FlatPiece.of_all {s : String} (h : s.toList.all (fun c => isPlain c && c != '\n') = true) :
    FlatPiece s :=
  .of_plain fun c hc => by simpa using List.all_eq_true.mp h c hc

/-- A text in plain quotes. -/
theorem FlatPiece.quoted {s : String}
    (h : ∀ c ∈ s.toList, c ≠ '\'' ∧ c ≠ '\\' ∧ c ≠ '\n') : FlatPiece ("'" ++ s ++ "'") := by
  have htext : ("'" ++ s ++ "'").toList = '\'' :: (s.toList ++ ['\'']) := by simp
  constructor
  · rw [htext]
    exact .quoted h
  · rw [htext, List.mem_cons, List.mem_append, List.mem_singleton]
    rintro (hc | hc | hc)
    · exact absurd hc (by decide)
    · exact (h _ hc).2.2 rfl
    · exact absurd hc (by decide)

/-- A known text in plain quotes. -/
theorem FlatPiece.quoted_of_all {s : String}
    (h : s.toList.all (fun c => c != '\'' && c != '\\' && c != '\n') = true) :
    FlatPiece ("'" ++ s ++ "'") :=
  .quoted fun c hc => by simpa [and_assoc] using List.all_eq_true.mp h c hc

/-- A piece in braces. -/
theorem Piece.braced {s : String} (h : Piece s) : Piece ("\x7b" ++ s ++ "\x7d") := by
  have htext : ("\x7b" ++ s ++ "\x7d").toList = '{' :: (s.toList ++ ['}']) := by simp
  constructor
  · rw [htext]
    exact .block h.balanced
  · rw [htext, List.mem_cons, List.mem_append, List.mem_singleton]
    rintro (hc | hc | hc)
    · exact absurd hc (by decide)
    · exact h.oneLine hc
    · exact absurd hc (by decide)

/-- Pieces with a separator between them. -/
theorem Piece.intercalate {separator : String} {ss : List String} (hseparator : Piece separator)
    (h : ∀ s ∈ ss, Piece s) : Piece (separator.intercalate ss) := by
  have htext : (separator.intercalate ss).toList
      = separator.toList.intercalate (ss.map String.toList) := String.toList_intercalate
  suffices hlist : Balanced (separator.toList.intercalate (ss.map String.toList))
      ∧ '\n' ∉ separator.toList.intercalate (ss.map String.toList) from
    ⟨htext ▸ hlist.1, htext ▸ hlist.2⟩
  induction ss with
  | nil => exact ⟨.nil, List.not_mem_nil⟩
  | cons s ss ih =>
    obtain ⟨hs, hss⟩ := List.forall_mem_cons.mp h
    rcases ss with - | ⟨s', ss⟩
    · -- no separator stands behind the last piece
      rw [List.map_cons, List.map_nil, List.intercalate_singleton]
      exact ⟨hs.balanced, hs.oneLine⟩
    · obtain ⟨hbalanced, honeLine⟩ := ih hss String.toList_intercalate
      rw [List.map_cons, List.map_cons, List.intercalate_cons_cons]
      rw [List.map_cons] at hbalanced honeLine
      refine ⟨(hs.balanced.append hseparator.balanced).append hbalanced, ?_⟩
      rw [List.mem_append, List.mem_append, not_or, not_or]
      exact ⟨⟨hs.oneLine, hseparator.oneLine⟩, honeLine⟩

/-! ### Fragments -/

/-- What a map says of a line that opens a group: whether its word is code, the depth there, how far
it is indented, and the name of the group. -/
def GroupLine.shown (map : CodeMap) (g : GroupLine) : Bool × Nat × Nat × String :=
  (map.isCode g.offset, map.depthAt g.offset, g.indent, g.name)

/-- Lines at a level, and the groups they open with their levels. -/
structure Fragment (level : Nat) (ls : List String) (groups : List (Nat × String)) : Prop where
  oneLine : ∀ l ∈ ls, '\n' ∉ l.toList
  balanced : Balanced (writtenLines ls)
  /-- Wherever the lines stand with so many braces open, their groups are in code, at the depth of
  their levels and indented by two for each. -/
  shown : ∀ u v, Leaves level u →
    (groupsIn (byteLength u) ls).map (GroupLine.shown (.ofText (u ++ (writtenLines ls ++ v))))
      = groups.map (fun g => (true, g.1, 2 * g.1, g.2))

namespace Fragment

variable {level : Nat} {ls ls' : List String} {groups groups' : List (Nat × String)}

theorem nil (level : Nat) : Fragment level [] [] where
  oneLine := by simp
  balanced := .nil
  shown := by
    intro u v _
    rfl

/-- Fragments of one level follow each other. -/
theorem append (h : Fragment level ls groups) (h' : Fragment level ls' groups') :
    Fragment level (ls ++ ls') (groups ++ groups') where
  oneLine l hl := (List.mem_append.mp hl).elim (h.oneLine l) (h'.oneLine l)
  balanced := by
    rw [writtenLines_append]
    exact h.balanced.append h'.balanced
  shown := by
    intro u v hu
    have hfirst := h.shown u (writtenLines ls' ++ v) hu
    have hsecond := h'.shown (u ++ writtenLines ls) v (hu.append h.balanced)
    rw [byteLength_append, List.append_assoc] at hsecond
    rw [groupsIn_append, List.map_append, writtenLines_append, List.append_assoc, hfirst, hsecond,
      List.map_append]

/-- The fragments of a list follow each other. -/
theorem flatMap {α : Type} {lines : α → List String} {shown : α → List (Nat × String)} {xs : List α}
    (h : ∀ x ∈ xs, Fragment level (lines x) (shown x)) :
    Fragment level (xs.flatMap lines) (xs.flatMap shown) := by
  induction xs with
  | nil => exact nil level
  | cons x xs ih =>
    obtain ⟨hx, hxs⟩ := List.forall_mem_cons.mp h
    rw [List.flatMap_cons, List.flatMap_cons]
    exact hx.append (ih hxs)

end Fragment

/-! ### Indented lines -/

theorem toList_line (level : Nat) (text : String) :
    (line level text).toList = List.replicate (2 * level) ' ' ++ text.toList := by
  rw [line, indentation, String.toList_append, String.toList_ofList]

theorem flatPiece_indentation (level : Nat) : FlatPiece (indentation level) := by
  apply FlatPiece.of_plain
  intro c hc
  rw [indentation, String.toList_ofList] at hc
  rw [List.eq_of_mem_replicate hc]
  decide

theorem byteLength_blanks (n : Nat) : byteLength (List.replicate n ' ') = n := by
  induction n with
  | zero => rfl
  | succ n ih =>
    rw [List.replicate_succ, byteLength_cons, ih, Nat.add_comm]
    rfl

/-- The words of an indented line, its blanks taken away. -/
theorem groupLine?_line (offset level : Nat) {text : String}
    (h : ∀ c ∈ text.toList.head?, c ≠ ' ') :
    groupLine? (offset, (line level text).toList)
      = if groupWord.isPrefixOf text.toList then
          some ⟨offset + 2 * level, 2 * level,
            .ofList ((text.toList.drop groupWord.length).takeWhile (· != '\''))⟩
        else none := by
  have hwords : text.toList.takeWhile (· == ' ') = []
      ∧ text.toList.dropWhile (· == ' ') = text.toList := by
    rcases htext : text.toList with - | ⟨c, cs⟩
    · exact ⟨rfl, rfl⟩
    · rw [htext] at h
      have hc : ¬ (c == ' ') = true := by simpa using h c rfl
      exact ⟨List.takeWhile_cons_of_neg hc, List.dropWhile_cons_of_neg hc⟩
  have hblanks : ∀ c ∈ List.replicate (2 * level) ' ', (c == ' ') = true := by
    intro c hc
    rw [List.eq_of_mem_replicate hc]
    rfl
  rw [groupLine?, toList_line]
  simp only [List.takeWhile_append_of_pos hblanks, List.dropWhile_append_of_pos hblanks, hwords.1,
    hwords.2, List.append_nil, List.length_replicate]

/-- A line whose words begin otherwise opens no group. -/
theorem groupLine?_eq_none (offset level : Nat) {text : String}
    (h : ∀ c ∈ text.toList.head?, c ≠ ' ' ∧ c ≠ 'd') :
    groupLine? (offset, (line level text).toList) = none := by
  rw [groupLine?_line offset level (fun c hc => (h c hc).1), if_neg]
  intro hprefix
  obtain ⟨rest, hrest⟩ := List.isPrefixOf_iff_prefix.mp hprefix
  rw [← hrest] at h
  exact (h 'd' rfl).2 rfl

/-- A line that opens no group and pairs its braces, its newline included. -/
theorem Fragment.single {level : Nat} {text : String} (hbalanced : Balanced (text.toList ++ ['\n']))
    (hline : '\n' ∉ text.toList) (hhead : ∀ c ∈ text.toList.head?, c ≠ ' ' ∧ c ≠ 'd') (n : Nat) :
    Fragment level [line n text] [] where
  oneLine := by
    intro l hl
    rw [List.mem_singleton.mp hl, line, String.toList_append, List.mem_append, not_or]
    exact ⟨(flatPiece_indentation n).oneLine, hline⟩
  balanced := by
    rw [writtenLines_cons, line, String.toList_append, List.append_assoc]
    exact (flatPiece_indentation n).piece.balanced.append hbalanced
  shown := by
    intro u v _
    rw [groupsIn_cons, groupLine?_eq_none _ _ hhead]
    rfl

/-- A piece as a line. -/
theorem Fragment.piece {level : Nat} {text : String} (h : Piece text)
    (hhead : ∀ c ∈ text.toList.head?, c ≠ ' ' ∧ c ≠ 'd') (n : Nat) :
    Fragment level [line n text] [] :=
  .single (h.balanced.append (.flat (.of_all (by decide)))) h.oneLine hhead n

/-- A comment as a line. -/
theorem Fragment.comment {level : Nat} {text : String} (h : '\n' ∉ text.toList) (n : Nat) :
    Fragment level [line n ("//" ++ text)] [] := by
  have htext : ("//" ++ text).toList = '/' :: '/' :: text.toList := by simp
  apply Fragment.single
  · rw [htext]
    exact .flat (.comment fun c hc heq => h (heq ▸ hc))
  · rw [htext]
    simpa using h
  · rw [htext]
    simp

/-! ### Enclosed fragments -/

/-- The words of a line that opens a group, without the brace. -/
def groupHead (name : String) : String := "describe(" ++ ("'" ++ name ++ "'") ++ ", () => "

theorem groupOpening_eq (level : Nat) (name : String) :
    groupOpening level name = line level (groupHead name ++ "\x7b") := by
  rw [groupOpening, groupHead]
  refine congrArg (line level) (String.toList_inj.mp ?_)
  simp

theorem writtenLines_enclosed (level : Nat) (head : String) (inner : List String) :
    writtenLines ([line level (head ++ "\x7b")] ++ inner ++ [closing level])
      = (indentation level ++ head).toList
        ++ ('{' :: (('\n' :: writtenLines inner ++ (indentation level).toList) ++ ['}']))
        ++ [')', ';', '\n'] := by
  simp [line, closing]

/-- Behind a line with an opening brace at its end one more brace is open. -/
theorem leaves_openingLine {j : Nat} {u : List Char} (hu : Leaves j u) (level : Nat) {head : String}
    (hhead : Piece head) :
    Leaves (j + 1) (u ++ ((line level (head ++ "\x7b")).toList ++ ['\n'])) := by
  have hnewline : Balanced ['\n'] := .flat (.of_all (by decide))
  have hline : (line level (head ++ "\x7b")).toList ++ ['\n']
      = (indentation level ++ head).toList ++ (['{'] ++ ['\n']) := by simp [line]
  have hbrace : Leaves (0 + (1 + 0)) ((indentation level ++ head).toList ++ (['{'] ++ ['\n'])) :=
    ((flatPiece_indentation level).piece.append hhead).balanced.append
      (Leaves.opening.append hnewline)
  rw [hline]
  exact hu.append hbrace

/-- **A brace that opens at the end of a line, and its partner in a line of its own, enclose a
fragment of the next level.** -/
theorem Fragment.enclosed {level : Nat} {head : String} {inner : List String}
    {groups first : List (Nat × String)} (hhead : Piece head)
    (hinner : Fragment (level + 1) inner groups)
    (hfirst : ∀ u v, Leaves level u →
      (groupsIn (byteLength u) [line level (head ++ "\x7b")]).map
          (GroupLine.shown (.ofText (u ++ ((line level (head ++ "\x7b")).toList ++ v))))
        = first.map (fun g => (true, g.1, 2 * g.1, g.2))) :
    Fragment level ([line level (head ++ "\x7b")] ++ inner ++ [closing level])
      (first ++ groups) := by
  have hindent := flatPiece_indentation level
  have hnewline : Balanced ['\n'] := .flat (.of_all (by decide))
  constructor
  case oneLine =>
    intro l hl
    rw [List.append_assoc, List.mem_append, List.mem_append, List.mem_singleton,
      List.mem_singleton] at hl
    rcases hl with rfl | hl | rfl
    · rw [line, String.toList_append, String.toList_append, List.mem_append, List.mem_append]
      rintro (hc | hc | hc)
      · exact hindent.oneLine hc
      · exact hhead.oneLine hc
      · simp at hc
    · exact hinner.oneLine l hl
    · rw [closing, line, String.toList_append, List.mem_append]
      rintro (hc | hc)
      · exact hindent.oneLine hc
      · simp at hc
  case balanced =>
    rw [writtenLines_enclosed]
    have hinside : Balanced ('\n' :: writtenLines inner ++ (indentation level).toList) :=
      (hnewline.append hinner.balanced).append hindent.piece.balanced
    exact ((hindent.piece.append hhead).balanced.append (.block hinside)).append
      (.flat (.of_all (by decide)))
  case shown =>
    intro u v hu
    have hclosing : ∀ offset, groupsIn offset [closing level] = [] := by
      intro offset
      rw [groupsIn_cons, closing, groupLine?_eq_none _ _ (by simp)]
      rfl
    have hshown := hinner.shown _ (writtenLines [closing level] ++ v)
      (leaves_openingLine hu level hhead)
    have hshown' :=
      hfirst u ('\n' :: (writtenLines inner ++ (writtenLines [closing level] ++ v))) hu
    have htext :
        u ++ (writtenLines ([line level (head ++ "\x7b")] ++ inner ++ [closing level]) ++ v)
        = u ++ ((line level (head ++ "\x7b")).toList
          ++ '\n' :: (writtenLines inner ++ (writtenLines [closing level] ++ v))) := by
      simp
    have htext' : u ++ ((line level (head ++ "\x7b")).toList ++ ['\n'])
          ++ (writtenLines inner ++ (writtenLines [closing level] ++ v))
        = u ++ ((line level (head ++ "\x7b")).toList
          ++ '\n' :: (writtenLines inner ++ (writtenLines [closing level] ++ v))) := by
      simp
    have hlength : byteLength u + byteLength (writtenLines [line level (head ++ "\x7b")])
        = byteLength (u ++ ((line level (head ++ "\x7b")).toList ++ ['\n'])) := by
      rw [byteLength_append, writtenLines_cons, writtenLines_nil]
    -- the first line shows its groups, the inside its own, and the last line none
    rw [htext'] at hshown
    rw [htext, groupsIn_append, groupsIn_append, hclosing, List.append_nil, List.map_append,
      hshown', hlength, hshown, List.map_append]

/-- A line that opens no group and its partner enclose a fragment. -/
theorem Fragment.case {level : Nat} {head : String} {inner : List String}
    {groups : List (Nat × String)} (hhead : Piece head)
    (hword : ∀ c ∈ (head ++ "\x7b").toList.head?, c ≠ ' ' ∧ c ≠ 'd')
    (hinner : Fragment (level + 1) inner groups) :
    Fragment level ([line level (head ++ "\x7b")] ++ inner ++ [closing level]) groups := by
  have h := @Fragment.enclosed level head inner groups [] hhead hinner
  apply h
  intro u v _
  rw [groupsIn_cons, groupLine?_eq_none _ _ hword]
  rfl

/-- The name of a group can be read off its line. -/
theorem groupLine?_groupOpening (offset level : Nat) {name : String}
    (hname : ∀ c ∈ name.toList, c ≠ '\'') :
    groupLine? (offset, (groupOpening level name).toList)
      = some ⟨offset + 2 * level, 2 * level, name⟩ := by
  have htext : (groupHead name ++ "\x7b").toList
      = groupWord ++ (name.toList ++ ('\'' :: ", () => \x7b".toList)) := by
    simp [groupHead, groupWord]
  have hread : (name.toList ++ '\'' :: ", () => \x7b".toList).takeWhile (· != '\'')
      = name.toList := by
    rw [List.takeWhile_append_of_pos, List.takeWhile_cons_of_neg (by decide), List.append_nil]
    intro c hc
    simpa using hname c hc
  rw [groupOpening_eq, groupLine?_line, htext, if_pos]
  · rw [List.drop_left, hread, String.ofList_toList]
  · exact List.isPrefixOf_iff_prefix.mpr (List.prefix_append _ _)
  · rw [htext]
    simp [groupWord]

theorem flatPiece_groupHead {name : String}
    (hname : ∀ c ∈ name.toList, c ≠ '\'' ∧ c ≠ '\\' ∧ c ≠ '\n') : FlatPiece (groupHead name) :=
  ((FlatPiece.of_all (by decide)).append (.quoted hname)).append (.of_all (by decide))

/-- **A group encloses a fragment, and opens itself.** -/
theorem Fragment.group {level : Nat} {name : String} {inner : List String}
    {groups : List (Nat × String)}
    (hname : ∀ c ∈ name.toList, c ≠ '\'' ∧ c ≠ '\\' ∧ c ≠ '\n')
    (hinner : Fragment (level + 1) inner groups) :
    Fragment level ([groupOpening level name] ++ inner ++ [closing level])
      ((level, name) :: groups) := by
  have h := @Fragment.enclosed level (groupHead name) inner groups [(level, name)]
    (flatPiece_groupHead hname).piece hinner
  rw [← groupOpening_eq] at h
  apply h
  intro u v hu
  -- the word of the group stands behind the blanks
  have hindent : Leaves level (u ++ (indentation level).toList) :=
    hu.append (flatPiece_indentation level).piece.balanced
  have hoffset : byteLength (u ++ (indentation level).toList) = byteLength u + 2 * level := by
    rw [byteLength_append, indentation, String.toList_ofList, byteLength_blanks]
  have htext : u ++ ((groupOpening level name).toList ++ v)
      = u ++ (indentation level).toList ++ ((groupHead name ++ "\x7b").toList ++ v) := by
    rw [groupOpening_eq, line, String.toList_append]
    simp only [List.append_assoc]
  have hplain : ∀ c ∈ ((groupHead name ++ "\x7b").toList ++ v).head?, isPlain c = true := by
    simp [groupHead, isPlain]
  rw [groupsIn_cons, groupLine?_groupOpening _ _ (fun c hc => (hname c hc).1)]
  show [GroupLine.shown _ _] = [_]
  rw [GroupLine.shown, htext, ← hoffset, isCode_leaves hindent hplain, depthAt_leaves hindent]

end Scaffold

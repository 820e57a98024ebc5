/-
Scaffold/Proofs/Comments/Places.lean

The places of a text and of the text with its comments blanked.

A visible place outside comments is a place of both texts, and one in a comment
is a place of the text alone (`TextPlace`).  Up to the next comment the two texts
are the same, so a match at a place that does not run over the beginning of a
comment is the same in both, and what it captures is the same
(`TextPlace.same_match`).  A pattern that ends in a list in brackets may run over
comments in that list, if its bracket closes outside comments: what stands in
front of the list is the same in both (`TextPlace.same_outside`).

* `here_placesFrom`, `there_placesFrom` — the places are the visible places of
  the two texts;
* `leads_blanked` — locality for a text that is only tried at its beginning.
-/
import Scaffold.Proofs.Comments.Shading
import Scaffold.Proofs.Pattern.Bracket

namespace Scaffold

open Text

/-! ### Up to the next comment -/

/-- The glyphs in front of the first comment. -/
def clear (gs : List Glyph) : List Glyph := gs.takeWhile (fun g => !g.inComment)

/-- The glyphs from the first comment on. -/
def shaded (gs : List Glyph) : List Glyph := gs.dropWhile (fun g => !g.inComment)

theorem clear_append_shaded (gs : List Glyph) : clear gs ++ shaded gs = gs :=
  List.takeWhile_append_dropWhile

theorem blanked_of_clear {gs : List Glyph} (h : ∀ g ∈ gs, g.inComment = false) :
    blanked gs = written gs := by
  induction gs with
  | nil => rfl
  | cons g gs ih =>
    rw [blanked_cons, written_cons, Glyph.blanked_of_code (h g List.mem_cons_self),
      ih (fun x hx => h x (List.mem_cons_of_mem _ hx)), List.singleton_append]

theorem blanked_clear (gs : List Glyph) : blanked (clear gs) = written (clear gs) :=
  blanked_of_clear fun g hg => by simpa using List.mem_takeWhile_imp hg

theorem written_eq (gs : List Glyph) : written gs = written (clear gs) ++ written (shaded gs) := by
  rw [← written_append, clear_append_shaded]

theorem blanked_eq (gs : List Glyph) : blanked gs = written (clear gs) ++ blanked (shaded gs) := by
  rw [← blanked_clear, ← blanked_append, clear_append_shaded]

/-- The glyphs of a text from the middle of it on: the first comment among them begins with a
slash. -/
def OpensWithSlash (gs : List Glyph) : Prop := ∀ g ∈ (shaded gs).head?, g.char = '/'

theorem opensWithSlash_of_chain {g : Glyph} {gs : List Glyph} (hg : g.inComment = false)
    (h : (g :: gs).IsChain Joins) : OpensWithSlash (g :: gs) ∧ OpensWithSlash gs := by
  have hskip : shaded (g :: gs) = shaded gs := List.dropWhile_cons_of_pos (by simp [hg])
  have hboth : OpensWithSlash gs := by
    induction gs generalizing g with
    | nil =>
      intro x hx
      cases hx
    | cons d gs ih =>
      obtain ⟨hjoin, hrest⟩ := List.isChain_cons_cons.mp h
      by_cases hd : d.inComment = true
      · -- the first comment begins behind code
        have hhead : shaded (d :: gs) = d :: gs := List.dropWhile_cons_of_neg (by simp [hd])
        intro x hx
        rw [hhead] at hx
        obtain rfl := Option.some.inj hx
        exact hjoin.1 hg hd
      · have hd' : d.inComment = false := by simpa using hd
        have hhead : shaded (d :: gs) = shaded gs := List.dropWhile_cons_of_pos (by simp [hd'])
        rw [OpensWithSlash, hhead]
        exact ih hd' hrest hhead
  exact ⟨by rw [OpensWithSlash, hskip]; exact hboth, hboth⟩

/-- The texts of some glyphs that begin at an offset, up to where a comment parts them. -/
def forkOf (offset : Nat) (gs : List Glyph) (h : OpensWithSlash gs) : Pattern.Fork where
  common := written (clear gs)
  stop := offset + byteLength (written (clear gs))
  ahead := written (shaded gs)
  ahead' := blanked (shaded gs)
  parts := by
    rcases hs : shaded gs with - | ⟨g, rest⟩
    · exact .inl ⟨rfl, rfl⟩
    · have hslash : g.char = '/' := h g (by rw [hs]; rfl)
      have hcomment : g.inComment = true := by
        have := List.head?_dropWhile_not (fun g : Glyph => !g.inComment) gs
        rw [show gs.dropWhile _ = _ from hs] at this
        simpa using this
      refine .inr ⟨written rest, blanked rest, ?_, ?_⟩
      · rw [written_cons, hslash]
      · rw [blanked_cons, Glyph.blanked, if_pos ⟨hcomment, by rw [hslash]; decide⟩, hslash]
        rfl

/-! ### What is left of comments -/

theorem Glyph.blanked_isBlank {g : Glyph} (hg : g.inComment = true) :
    ∀ c ∈ g.blanked, isBlank c = true := by
  intro c hc
  rcases g.blanked_of_comment hg with ⟨hb, -⟩ | hb
  · rw [hb] at hc
    obtain rfl := List.mem_singleton.mp hc
    rfl
  · rw [hb] at hc
    obtain rfl := List.eq_of_mem_replicate hc
    rfl

/-- What is visible in the blanked text stands outside comments. -/
theorem mem_blanked_iff {gs : List Glyph} {c : Char} (hc : isBlank c = false) :
    c ∈ blanked gs ↔ ∃ g ∈ gs, g.inComment = false ∧ g.char = c := by
  rw [blanked, List.mem_flatMap]
  refine exists_congr fun g => and_congr_right fun _ => ?_
  by_cases hg : g.inComment = true
  · simp only [hg, Bool.true_eq_false, false_and, iff_false]
    intro h
    rw [Glyph.blanked_isBlank hg c h] at hc
    cases hc
  · have hg' : g.inComment = false := by simpa using hg
    rw [Glyph.blanked_of_code hg', List.mem_singleton]
    simp [hg', eq_comm]

theorem mem_written_of_mem_blanked {gs : List Glyph} {c : Char} (hc : isBlank c = false)
    (h : c ∈ blanked gs) : c ∈ written gs := by
  obtain ⟨g, hg, -, rfl⟩ := (mem_blanked_iff hc).mp h
  exact List.mem_map_of_mem hg

/-! ### Places -/

/-- A visible place of a text: what stands in front of it, the glyph there, and what stands behind
that glyph. -/
structure TextPlace where
  front : List Glyph
  glyph : Glyph
  back : List Glyph

/-- The visible places of a text, `front` being the glyphs before it. -/
def placesFrom (front : List Glyph) : List Glyph → List TextPlace
  | [] => []
  | g :: back =>
    let later := placesFrom (front ++ [g]) back
    if isBlank g.char then later else ⟨front, g, back⟩ :: later

namespace TextPlace

/-- The glyphs from a place on. -/
def ahead (x : TextPlace) : List Glyph := x.glyph :: x.back

/-- The glyphs of the text. -/
def whole (x : TextPlace) : List Glyph := x.front ++ x.ahead

def offset (x : TextPlace) : Nat := byteLength (written x.front)

/-- Where the next comment begins; the end of the text if there is none. -/
def edge (x : TextPlace) : Nat := x.offset + byteLength (written (clear x.ahead))

/-- The place in the text. -/
def here (x : TextPlace) : Cursor := ⟨(written x.front).getLast?, x.offset, written x.ahead⟩

/-- The place in the blanked text, where a comment leaves none. -/
def there (x : TextPlace) : Option Cursor :=
  if x.glyph.inComment then none
  else some ⟨(blanked x.front).getLast?, x.offset, blanked x.ahead⟩

/-- The match at a place of the text. -/
def match? (p : Pattern) (x : TextPlace) : Option Pattern.Match := p.matchAt? x.here

/-- The match at a place of the blanked text. -/
def blankedMatch? (p : Pattern) (x : TextPlace) : Option Pattern.Match := x.there.bind p.matchAt?

/-- The matches at a place, in the text and with its comments blanked. -/
def found (p : Pattern) (x : TextPlace) : List Pattern.Match :=
  (x.match? p).toList ++ (x.blankedMatch? p).toList

/-- Whether a match at a place runs over the beginning of a comment. -/
def isDisturbed (p : Pattern) (x : TextPlace) : Bool :=
  (x.found p).any (fun m => decide (x.edge < m.span.stop))

/-- Whether what is matched at a place begins outside comments and has none in front of its list in
brackets, and the bracket closes outside comments behind the next one. -/
def holdsList (p : Pattern) (b : Pattern.Bracket) (x : TextPlace) : Bool :=
  !x.glyph.inComment && (x.found p).all (fun m => decide (m.opening b.slot ≤ x.edge))
    && (shaded x.ahead).any (fun g => !g.inComment && g.char == b.closing)

end TextPlace

section Membership

variable {front gs : List Glyph} {x : TextPlace} {p : Pattern} {m : Pattern.Match}

theorem exists_of_mem_placesFrom (h : x ∈ placesFrom front gs) :
    ∃ u, gs = u ++ x.ahead ∧ x.front = front ++ u ∧ isBlank x.glyph.char = false := by
  induction gs generalizing front with
  | nil => cases h
  | cons g gs ih =>
    have hlater : x ∈ placesFrom (front ++ [g]) gs →
        ∃ u, g :: gs = u ++ x.ahead ∧ x.front = front ++ u ∧ isBlank x.glyph.char = false := by
      intro h
      obtain ⟨u, rfl, hu, hblank⟩ := ih h
      exact ⟨g :: u, rfl, by rw [hu]; simp, hblank⟩
    rw [placesFrom] at h
    split_ifs at h with hg
    · -- a blank is no place
      exact hlater h
    · rcases List.mem_cons.mp h with rfl | h
      · exact ⟨[], rfl, (List.append_nil _).symm, by simpa using hg⟩
      · exact hlater h

/-- A place of a text parts it. -/
theorem whole_of_mem (h : x ∈ placesFrom [] gs) : gs = x.whole ∧ isBlank x.glyph.char = false := by
  obtain ⟨u, hgs, hu, hblank⟩ := exists_of_mem_placesFrom h
  rw [List.nil_append] at hu
  exact ⟨by rw [TextPlace.whole, hu]; exact hgs, hblank⟩

theorem match?_mem_found (h : x.match? p = some m) : m ∈ x.found p :=
  List.mem_append_left _ (Option.mem_toList.mpr h)

theorem blankedMatch?_mem_found (h : x.blankedMatch? p = some m) : m ∈ x.found p :=
  List.mem_append_right _ (Option.mem_toList.mpr h)

theorem inComment_of_blankedMatch? (h : x.blankedMatch? p = some m) :
    x.glyph.inComment = false
      ∧ p.matchAt? ⟨(blanked x.front).getLast?, x.offset, blanked x.ahead⟩ = some m := by
  obtain ⟨c, hc, hm⟩ := Option.bind_eq_some_iff.mp h
  rw [TextPlace.there] at hc
  split_ifs at hc with hg
  obtain rfl := Option.some.inj hc
  exact ⟨by simpa using hg, hm⟩

theorem blankedMatch?_eq (hg : x.glyph.inComment = false) :
    x.blankedMatch? p
      = p.matchAt? ⟨(blanked x.front).getLast?, x.offset, blanked x.ahead⟩ := by
  rw [TextPlace.blankedMatch?, TextPlace.there, if_neg (by simp [hg])]
  rfl

/-- What is matched at a place begins there. -/
theorem start_of_mem_found (h : m ∈ x.found p) : m.span.start = x.offset := by
  rcases List.mem_append.mp h with h | h
  · exact Pattern.span_start_of_matchAt? (Option.mem_toList.mp h)
  · obtain ⟨-, hm⟩ := inComment_of_blankedMatch? (Option.mem_toList.mp h)
    exact Pattern.span_start_of_matchAt? hm

end Membership

/-! ### The places are the visible places of both texts -/

theorem byteLength_written_snoc (front : List Glyph) (g : Glyph) :
    byteLength (written (front ++ [g])) = byteLength (written front) + g.char.utf8Size := by
  rw [written_append, byteLength_append]
  rfl

theorem le_offset_of_mem_placesFrom {front gs : List Glyph} {x : TextPlace}
    (h : x ∈ placesFrom front gs) : byteLength (written front) ≤ x.offset := by
  obtain ⟨u, -, hu, -⟩ := exists_of_mem_placesFrom h
  rw [TextPlace.offset, hu, written_append, byteLength_append]
  exact Nat.le_add_right _ _

theorem pairwise_placesFrom (front gs : List Glyph) :
    (placesFrom front gs).Pairwise (fun x y => x.offset < y.offset) := by
  induction gs generalizing front with
  | nil => exact .nil
  | cons g gs ih =>
    rw [placesFrom]
    split_ifs
    · exact ih _
    · refine List.pairwise_cons.mpr ⟨fun y hy => ?_, ih _⟩
      have hle := le_offset_of_mem_placesFrom hy
      have hpos := g.char.utf8Size_pos
      rw [byteLength_written_snoc] at hle
      show byteLength (written front) < y.offset
      omega

theorem getLast?_written_snoc (front : List Glyph) (g : Glyph) :
    (written (front ++ [g])).getLast? = some g.char := by
  rw [written_append, written_cons, written_nil, List.getLast?_concat]

/-- The places of the text are its visible ones. -/
theorem here_placesFrom (front gs : List Glyph) :
    (placesFrom front gs).map TextPlace.here
      = Pattern.visible (written front).getLast? (byteLength (written front)) (written gs) := by
  induction gs generalizing front with
  | nil => rfl
  | cons g gs ih =>
    rw [placesFrom, written_cons, Pattern.visible]
    have hlater := ih (front ++ [g])
    rw [getLast?_written_snoc, byteLength_written_snoc] at hlater
    split_ifs
    · exact hlater
    · rw [List.map_cons, hlater]
      rfl

/-- Blanks have no visible places. -/
theorem visible_blanks {b : List Char} (hb : ∀ c ∈ b, isBlank c = true) (before : Option Char)
    (offset : Nat) (cs : List Char) :
    Pattern.visible before offset (b ++ cs)
      = Pattern.visible (b.getLast?.or before) (offset + byteLength b) cs := by
  induction b generalizing before offset with
  | nil => rfl
  | cons c b ih =>
    rw [List.cons_append, Pattern.visible, if_pos (hb c List.mem_cons_self),
      ih (fun d hd => hb d (List.mem_cons_of_mem _ hd)), byteLength_cons, Nat.add_assoc,
      List.getLast?_cons]
    cases b.getLast? <;> rfl

theorem blanked_snoc (front : List Glyph) (g : Glyph) :
    blanked (front ++ [g]) = blanked front ++ g.blanked := by
  rw [blanked_append, blanked_cons, blanked_nil, List.append_nil]

/-- The places outside comments are the visible ones of the blanked text. -/
theorem there_placesFrom (front gs : List Glyph) :
    (placesFrom front gs).filterMap TextPlace.there
      = Pattern.visible (blanked front).getLast? (byteLength (written front)) (blanked gs) := by
  induction gs generalizing front with
  | nil => rfl
  | cons g gs ih =>
    have hlater := ih (front ++ [g])
    rw [byteLength_written_snoc, blanked_snoc] at hlater
    rw [placesFrom, blanked_cons]
    by_cases hg : g.inComment = true
    · -- nothing of a comment is visible in the blanked text
      have hthere : (TextPlace.mk front g gs).there = none := if_pos hg
      rw [visible_blanks (Glyph.blanked_isBlank hg), g.byteLength_blanked,
        ← List.getLast?_append, ← hlater]
      split_ifs
      · rfl
      · rw [List.filterMap_cons, hthere]
    · have hg' : g.inComment = false := by simpa using hg
      have hthere : (TextPlace.mk front g gs).there
          = some ⟨(blanked front).getLast?, byteLength (written front), blanked (g :: gs)⟩ :=
        if_neg hg
      rw [Glyph.blanked_of_code hg', List.getLast?_concat] at hlater
      rw [Glyph.blanked_of_code hg', List.singleton_append, Pattern.visible]
      split_ifs
      · exact hlater
      · rw [List.filterMap_cons, hthere, hlater, blanked_cons, Glyph.blanked_of_code hg']
        rfl

/-! ### One place in both texts -/

section OnePlace

variable {x : TextPlace} {p : Pattern}

/-- The text in front of a place ends in a word character in both texts or in neither. -/
theorem before_eq (hchain : x.whole.IsChain Joins) (hg : x.glyph.inComment = false)
    (hblank : isBlank x.glyph.char = false) :
    (written x.front).getLast?.any isWordChar = (blanked x.front).getLast?.any isWordChar := by
  rcases List.eq_nil_or_concat x.front with hfront | ⟨front, y, hfront⟩
  · rw [hfront]
    rfl
  · rw [TextPlace.whole, hfront, List.concat_eq_append] at hchain
    rw [hfront, List.concat_eq_append, getLast?_written_snoc, blanked_snoc]
    by_cases hy : y.inComment = true
    · have hjoin : Joins y x.glyph := by
        rw [List.append_assoc, List.singleton_append] at hchain
        exact (List.isChain_append_cons_cons.mp hchain).2.1
      rcases hjoin.2 hy hg with hnewline | hslash
      · -- a line comment ends in front of a newline, which is no visible place
        rw [hnewline] at hblank
        cases hblank
      · -- a block comment ends in a slash, of which a blank is left
        rw [Glyph.blanked, if_pos ⟨hy, by rw [hslash]; decide⟩, hslash,
          show List.replicate '/'.utf8Size ' ' = [' '] from rfl, List.getLast?_concat]
        decide +kernel
    · rw [Glyph.blanked_of_code (by simpa using hy), List.getLast?_concat]

theorem opensWithSlash_ahead (hchain : x.whole.IsChain Joins) (hg : x.glyph.inComment = false) :
    OpensWithSlash x.ahead := (opensWithSlash_of_chain hg hchain.right_of_append).1

theorem twin_of_place (hchain : x.whole.IsChain Joins) (hg : x.glyph.inComment = false)
    (hblank : isBlank x.glyph.char = false) (hslash : OpensWithSlash x.ahead) :
    (forkOf x.offset x.ahead hslash).Twin ⟨x.here, []⟩
      ⟨⟨(blanked x.front).getLast?, x.offset, blanked x.ahead⟩, []⟩ := by
  refine ⟨rfl, rfl, before_eq hchain hg hblank, written (clear x.ahead), List.suffix_refl _,
    written_eq _, blanked_eq _, rfl, fun hnil => ?_⟩
  rw [clear, TextPlace.ahead, List.takeWhile_cons_of_pos (by simp [hg])] at hnil
  cases hnil

/-- A piece of a text in front of the next comment is the same in both texts. -/
theorem slice_eq_of_clear {front gs : List Glyph} {s : Span}
    (hstart : ∃ v w, written gs = v ++ w ∧ s.start = byteLength (written front) + byteLength v)
    (hle : s.start ≤ s.stop)
    (hstop : s.stop ≤ byteLength (written front) + byteLength (written (clear gs))) :
    slice s.start s.stop (written (front ++ gs)) = slice s.start s.stop (blanked (front ++ gs)) := by
  obtain ⟨v, w, hvw, hstart⟩ := hstart
  obtain ⟨u, hu, -⟩ := eq_append_of_byteLength_le (hvw.symm.trans (written_eq gs)) (by omega)
  obtain ⟨n, hn⟩ : ∃ n, s.stop = byteLength (written front) + n :=
    ⟨s.stop - byteLength (written front), by omega⟩
  have hlen : n ≤ byteLength (v ++ u) := by
    rw [← hu]
    omega
  have hcut := fun front' : List Char => slice_within front' v u
  rw [hstart, hn, written_append, blanked_append, written_eq gs, blanked_eq gs, hu,
    hcut _ _ hlen, ← byteLength_blanked front, hcut _ _ hlen]

/-- What a match captures in a slot, in both texts. -/
theorem text_eq_of_slices {m : Pattern.Match} {cs bs : List Char}
    (h : ∀ c ∈ m.captures, slice c.2.start c.2.stop cs = slice c.2.start c.2.stop bs)
    (slot : Slot) : m.text slot cs = m.text slot bs := by
  rw [Pattern.Match.text, Pattern.Match.text]
  rcases hcap : m.capture? slot with - | span
  · rfl
  · obtain ⟨c, hfind, rfl⟩ := Option.map_eq_some_iff.mp hcap
    exact h c (List.mem_of_find?_eq_some hfind)

/-- **A match that does not run over a comment's beginning is the same in both texts**, and so are
the texts of its parts. -/
theorem TextPlace.same_match (hp : p.lands = true) (hchain : x.whole.IsChain Joins)
    (hblank : isBlank x.glyph.char = false) (hnear : x.isDisturbed p = false) :
    x.blankedMatch? p = x.match? p
      ∧ ∀ m ∈ x.match? p, ∀ slot, m.text slot (written x.whole) = m.text slot (blanked x.whole) := by
  have hstop : ∀ m ∈ x.found p, m.span.stop ≤ x.edge := fun m hm => by
    simpa using List.any_eq_false.mp hnear m hm
  by_cases hg : x.glyph.inComment = true
  · -- a match is not empty, so none begins in a comment
    have hnone : x.match? p = none := by
      refine Option.eq_none_iff_forall_not_mem.mpr fun m hm => ?_
      have hlt := Pattern.offset_lt_of_matchAt? (Pattern.nullable_of_lands hp) hm
      have hle := hstop m (match?_mem_found hm)
      rw [TextPlace.edge, clear, TextPlace.ahead, List.takeWhile_cons_of_neg (by simp [hg])] at hle
      exact absurd hlt (Nat.not_lt_of_le hle)
    refine ⟨?_, by simp [hnone]⟩
    rw [hnone, TextPlace.blankedMatch?, TextPlace.there, if_pos hg]
    rfl
  · have hg' : x.glyph.inComment = false := by simpa using hg
    have hslash := opensWithSlash_ahead hchain hg'
    refine ⟨?_, fun m hm slot => text_eq_of_slices (fun c hc => ?_) slot⟩
    · rw [blankedMatch?_eq hg']
      refine (Pattern.matchAt?_eq_of_twin hp (twin_of_place hchain hg' hblank hslash)
        (fun m hm => hstop m (match?_mem_found hm))
        fun m hm => hstop m (blankedMatch?_mem_found ?_)).symm
      rw [blankedMatch?_eq hg']
      exact hm
    · obtain ⟨t, ht, rfl⟩ := Pattern.exists_of_matchAt? hm
      obtain ⟨-, kept, -, -, hcap, hkept⟩ := ht.onward
      rw [List.append_nil] at hcap
      obtain ⟨hstart, hle, hle'⟩ := hkept c (by rwa [← hcap])
      exact slice_eq_of_clear hstart hle (Nat.le_trans hle' (hstop _ (match?_mem_found hm)))

/-- **In front of a list in brackets a match is the same in both texts**, comments in the list aside:
matches of the two texts have the list at one place and the same captures outside it, with the same
texts. -/
theorem TextPlace.same_outside {b : Pattern.Bracket} (hp : p.EndsIn b)
    (hclosing : isBlank b.closing = false) (hchain : x.whole.IsChain Joins)
    (hblank : isBlank x.glyph.char = false) (hlist : x.holdsList p b = true) :
    (x.blankedMatch? p).map (fun m => (m.opening b.slot, m.without b.slot))
        = (x.match? p).map (fun m => (m.opening b.slot, m.without b.slot))
      ∧ ∀ m ∈ x.match? p, ∀ c ∈ m.without b.slot,
        slice c.2.start c.2.stop (written x.whole) = slice c.2.start c.2.stop (blanked x.whole) := by
  obtain ⟨hlist, hcloses⟩ := Bool.and_eq_true_iff.mp hlist
  obtain ⟨hg, hopens⟩ := Bool.and_eq_true_iff.mp hlist
  have hg : x.glyph.inComment = false := by simpa using hg
  have hopening : ∀ m ∈ x.found p, m.opening b.slot ≤ x.edge := by simpa using hopens
  have hmem : b.closing ∈ blanked (shaded x.ahead) := by
    obtain ⟨g, hg, hclose⟩ := List.any_eq_true.mp hcloses
    exact (mem_blanked_iff hclosing).mpr ⟨g, hg, by simpa using hclose⟩
  have hslash := opensWithSlash_ahead hchain hg
  refine ⟨?_, fun m hm c hc => ?_⟩
  · rw [blankedMatch?_eq hg]
    refine (Pattern.outside_eq_of_twin hp (twin_of_place hchain hg hblank hslash)
      (fun m hm => hopening m (match?_mem_found hm))
      (fun m hm => hopening m (blankedMatch?_mem_found ?_))
      (iff_of_true (mem_written_of_mem_blanked hclosing hmem) hmem)).symm
    rw [blankedMatch?_eq hg]
    exact hm
  · -- what is captured in front of the list lies in front of the next comment
    obtain ⟨u, v, w, hrest, -, hcap, hother⟩ := hp.parts hm
    obtain ⟨hstart, hle, hstop⟩ := hother c hc
    refine slice_eq_of_clear hstart hle ?_
    have hfront := hopening m (match?_mem_found hm)
    rw [Pattern.Match.opening, hcap] at hfront
    change x.offset + byteLength u + _ ≤ x.edge at hfront
    change c.2.stop ≤ x.offset + byteLength u at hstop
    show c.2.stop ≤ x.edge
    omega

end OnePlace

/-! ### What stands in front of a place -/

/-- The last visible glyph. -/
def lastVisible (gs : List Glyph) : Option Glyph :=
  (gs.filter (fun g => !isBlank g.char)).getLast?

/-- The last visible glyph outside comments. -/
def lastCode (gs : List Glyph) : Option Glyph :=
  (gs.filter (fun g => !isBlank g.char && !g.inComment)).getLast?

/-- Where the last visible glyph is outside comments, it is the last one there. -/
theorem lastCode_eq {gs : List Glyph} (h : ∀ g ∈ lastVisible gs, g.inComment = false) :
    lastCode gs = lastVisible gs := by
  have hsplit : gs.filter (fun g => !isBlank g.char && !g.inComment)
      = (gs.filter (fun g => !isBlank g.char)).filter (fun g => !g.inComment) := by
    rw [List.filter_filter]
    exact List.filter_congr fun g _ => Bool.and_comm _ _
  rw [lastCode, hsplit]
  rw [lastVisible] at h ⊢
  generalize gs.filter (fun g => !isBlank g.char) = seen at h
  rcases List.eq_nil_or_concat seen with rfl | ⟨front, g, rfl⟩
  · rfl
  · rw [List.concat_eq_append, List.getLast?_concat] at h ⊢
    rw [List.filter_append, List.filter_cons_of_pos (by simp [h g rfl]), List.filter_nil,
      List.getLast?_concat]

theorem getLast?_trimEnd (cs : List Char) :
    (trimEnd cs).getLast? = (cs.filter (fun c => !isBlank c)).getLast? := by
  induction cs with
  | nil => rfl
  | cons c cs ih =>
    rw [trimEnd] at ih ⊢
    rw [dropEndWhile]
    rcases hkept : dropEndWhile isBlank cs with - | ⟨d, kept⟩
    · -- behind `c` everything is blank
      rw [hkept, List.getLast?_nil, eq_comm, List.getLast?_eq_none_iff] at ih
      by_cases hc : isBlank c = true
      · simp [hc, ih]
      · simp [hc, ih]
    · -- what is last visible stands behind `c`
      rw [hkept] at ih
      show (c :: d :: kept).getLast? = _
      rw [List.getLast?_cons_cons, ih]
      by_cases hc : isBlank c = true
      · rw [List.filter_cons_of_neg (by simp [hc])]
      · rw [List.filter_cons_of_pos (by simp [hc]), List.getLast?_cons, ← ih,
          List.getLast?_cons]
        rfl

theorem getLast?_trimEnd_written (gs : List Glyph) :
    (trimEnd (written gs)).getLast? = (lastVisible gs).map Glyph.char := by
  rw [getLast?_trimEnd, written, List.filter_map, List.getLast?_map]
  rfl

theorem filter_blanked (gs : List Glyph) :
    (blanked gs).filter (fun c => !isBlank c)
      = (gs.filter (fun g => !isBlank g.char && !g.inComment)).map Glyph.char := by
  induction gs with
  | nil => rfl
  | cons g gs ih =>
    rw [blanked_cons, List.filter_append, ih]
    by_cases hg : g.inComment = true
    · -- of a comment nothing visible is left
      rw [List.filter_eq_nil_iff.mpr fun c hc => by simp [Glyph.blanked_isBlank hg c hc],
        List.filter_cons_of_neg (by simp [hg]), List.nil_append]
    · rw [Glyph.blanked_of_code (by simpa using hg)]
      by_cases hblank : isBlank g.char = true
      · rw [List.filter_cons_of_neg (by simp [hblank]), List.filter_cons_of_neg (by simp [hblank])]
        rfl
      · rw [List.filter_cons_of_pos (by simp [hblank]),
          List.filter_cons_of_pos (by simpa [hblank] using hg)]
        rfl

theorem getLast?_trimEnd_blanked (gs : List Glyph) :
    (trimEnd (blanked gs)).getLast? = (lastCode gs).map Glyph.char := by
  rw [getLast?_trimEnd, filter_blanked, List.getLast?_map]
  rfl

/-! ### Glyphs behind an offset -/

/-- The glyphs behind the first `n` bytes of a text. -/
def dropGlyphs : Nat → List Glyph → List Glyph
  | _, [] => []
  | 0, gs => gs
  | n + 1, g :: gs => dropGlyphs (n + 1 - g.char.utf8Size) gs

theorem dropGlyphs_append (u v : List Glyph) :
    dropGlyphs (byteLength (written u)) (u ++ v) = v := by
  induction u with
  | nil => cases v <;> rfl
  | cons g u ih =>
    obtain ⟨n, hn⟩ : ∃ n, byteLength (written (g :: u)) = n + 1 := by
      refine Nat.exists_eq_succ_of_ne_zero (Nat.ne_of_gt ?_)
      exact Nat.lt_of_lt_of_le g.char.utf8Size_pos (Nat.le_add_right _ _)
    rw [hn, List.cons_append, dropGlyphs, ← hn, written_cons, byteLength_cons,
      Nat.add_sub_cancel_left, ih]

/-- Where both texts are cut at one offset, so are the glyphs. -/
theorem exists_cut {gs : List Glyph} {u v u' v' : List Char} (hu : written gs = u ++ v)
    (hu' : blanked gs = u' ++ v') (hlen : byteLength u = byteLength u') :
    ∃ x y, gs = x ++ y ∧ written x = u ∧ written y = v ∧ blanked x = u' ∧ blanked y = v' := by
  obtain ⟨x, y, rfl, rfl, rfl⟩ := List.map_eq_append_iff.mp hu
  rw [blanked_append] at hu'
  change byteLength (written x) = _ at hlen
  rw [← byteLength_blanked] at hlen
  obtain ⟨w, hw, hrest⟩ := eq_append_of_byteLength_le hu' (Nat.le_of_eq hlen)
  obtain rfl : w = [] := by
    rw [hw, byteLength_append] at hlen
    exact byteLength_eq_zero.mp (by omega)
  exact ⟨x, y, rfl, rfl, rfl, by rw [hw, List.append_nil], hrest⟩

/-! ### Texts that are tried at their beginning -/

/-- Whether a match at the beginning of a text, or of the blanked text, runs over the beginning of a
comment. -/
def reachesComment (p : Pattern) (gs : List Glyph) : Bool :=
  ((p.matchAt? (.atStart (written gs))).toList ++ (p.matchAt? (.atStart (blanked gs))).toList).any
    (fun m => decide (byteLength (written (clear gs)) < m.span.stop))

/-- **What a text begins with, up to the first comment, does not depend on the comments.** -/
theorem leads_blanked {p : Pattern} (hp : p.lands = true) {gs : List Glyph}
    (hslash : OpensWithSlash gs) (h : reachesComment p gs = false) :
    p.leads (blanked gs) = p.leads (written gs) := by
  have hstop : ∀ m ∈ (p.matchAt? (.atStart (written gs))).toList
      ++ (p.matchAt? (.atStart (blanked gs))).toList,
      m.span.stop ≤ (forkOf 0 gs hslash).stop := fun m hm => by
    have := List.any_eq_false.mp h m hm
    show _ ≤ 0 + byteLength (written (clear gs))
    simpa using this
  have hhere : ∀ m ∈ p.matchAt? (.atStart (written gs)), m.span.stop ≤ (forkOf 0 gs hslash).stop :=
    fun m hm => hstop m (List.mem_append_left _ (Option.mem_toList.mpr hm))
  have hthere : ∀ m ∈ p.matchAt? (.atStart (blanked gs)),
      m.span.stop ≤ (forkOf 0 gs hslash).stop :=
    fun m hm => hstop m (List.mem_append_right _ (Option.mem_toList.mpr hm))
  rw [Pattern.leads, Pattern.leads]
  by_cases hnil : written (clear gs) = [] → written (shaded gs) = []
  · have htwin : (forkOf 0 gs hslash).Twin
        ⟨.atStart (written gs), []⟩ ⟨.atStart (blanked gs), []⟩ :=
      ⟨rfl, rfl, rfl, written (clear gs), List.suffix_refl _, written_eq gs, blanked_eq gs, rfl,
        hnil⟩
    rw [Pattern.matchAt?_eq_of_twin hp htwin hhere hthere]
  · -- the text begins with a comment, and a match is not empty
    have hclear : written (clear gs) = [] := (Classical.not_imp.mp hnil).1
    have hnone : ∀ cs, (∀ m ∈ p.matchAt? (.atStart cs), m.span.stop ≤ (forkOf 0 gs hslash).stop) →
        p.matchAt? (.atStart cs) = none := by
      intro cs hle
      refine Option.eq_none_iff_forall_not_mem.mpr fun m hm => ?_
      have hlt := Pattern.offset_lt_of_matchAt? (Pattern.nullable_of_lands hp) hm
      have := hle m hm
      change m.span.stop ≤ 0 + byteLength (written (clear gs)) at this
      rw [hclear] at this
      exact absurd hlt (Nat.not_lt_of_le this)
    rw [hnone _ hhere, hnone _ hthere]

end Scaffold

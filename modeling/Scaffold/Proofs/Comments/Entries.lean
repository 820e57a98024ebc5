/-
Scaffold/Proofs/Comments/Entries.lean

Comments in a list of exported names.

An entry of such a list is read word by word, and a comment in it is read with it;
a comma in a comment ends an entry as well.  So a comment is to have an entry of
its own, as behind the last comma of a list, where none of its pieces may read as a
name (`entriesApart`).  Then the list stands for the same exports in the text and
with its comments blanked (`listed_blanked`).
-/
import Scaffold.Proofs.Comments.Places
import Scaffold.Proofs.Extraction.Shifted

namespace Scaffold

open Text Pattern

/-- The exports that the text of a list stands for. -/
def listedExports (offset : Nat) (cs : List Char) : List ExportItem :=
  (splitWhere (· == ',') cs).filterMap (fun entry => listedExport? entry offset)

/-! ### The entries of a list -/

/-- The entries of a list of names: its pieces between commas outside comments. -/
def glyphEntries (gs : List Glyph) : List (List Glyph) :=
  gs.splitOnP (fun g => g.char == ',' && !g.inComment)

/-- Whether an entry has no comment, or nothing else, with no piece that reads as a name. -/
def entryApart (e : List Glyph) : Bool :=
  e.all (fun g => !g.inComment)
    || ((blanked e).all isBlank
        && (splitWhere (· == ',') (written e)).all (fun t => (listedExport? t 0).isNone))

/-- Whether a list, behind its opening brace, ends outside comments, at the first brace that closes,
and comments in it have entries of their own. -/
def entriesApart (gs : List Glyph) : Bool :=
  (gs.dropWhile (fun g => g.char != '}')).head?.any (fun g => !g.inComment)
    && (glyphEntries (gs.takeWhile (fun g => g.char != '}'))).all entryApart

section Entries

variable {gs : List Glyph}

theorem splitWhere_cons_of_not {sep : Char → Bool} {c : Char} (hc : sep c = false)
    {cs piece : List Char} {pieces : List (List Char)} (h : splitWhere sep cs = piece :: pieces) :
    splitWhere sep (c :: cs) = (c :: piece) :: pieces := by
  rw [splitWhere, if_neg (by simp [hc]), h]

theorem exists_splitWhere (sep : Char → Bool) (cs : List Char) :
    ∃ piece pieces, splitWhere sep cs = piece :: pieces := by
  induction cs with
  | nil => exact ⟨[], [], rfl⟩
  | cons c cs ih =>
    obtain ⟨piece, pieces, h⟩ := ih
    by_cases hc : sep c = true
    · exact ⟨[], splitWhere sep cs, by rw [splitWhere, if_pos hc]⟩
    · exact ⟨c :: piece, pieces, splitWhere_cons_of_not (by simpa using hc) h⟩

/-- What holds no separator belongs to the first piece. -/
theorem splitWhere_append {sep : Char → Bool} {b : List Char} (hb : ∀ c ∈ b, sep c = false)
    {cs piece : List Char} {pieces : List (List Char)} (h : splitWhere sep cs = piece :: pieces) :
    splitWhere sep (b ++ cs) = (b ++ piece) :: pieces := by
  induction b with
  | nil => exact h
  | cons c b ih =>
    exact splitWhere_cons_of_not (hb c List.mem_cons_self)
      (ih fun d hd => hb d (List.mem_cons_of_mem _ hd))

theorem exists_glyphEntries (gs : List Glyph) : ∃ e es, glyphEntries gs = e :: es :=
  List.exists_cons_of_ne_nil (List.splitOnP_ne_nil _ _)

theorem glyphEntries_comma {g : Glyph} (h : (g.char == ',' && !g.inComment) = true) :
    glyphEntries (g :: gs) = [] :: glyphEntries gs := by
  rw [glyphEntries, List.splitOnP_cons_eq_if_modifyHead, if_pos h]
  rfl

theorem glyphEntries_other {g : Glyph} (h : (g.char == ',' && !g.inComment) = false)
    {e : List Glyph} {es : List (List Glyph)} (hgs : glyphEntries gs = e :: es) :
    glyphEntries (g :: gs) = (g :: e) :: es := by
  rw [glyphEntries] at hgs ⊢
  rw [List.splitOnP_cons_eq_if_modifyHead, if_neg (by simp [h]), hgs]
  rfl

/-- In the text the commas in comments part the entries further. -/
theorem splitWhere_written (gs : List Glyph) :
    splitWhere (· == ',') (written gs)
      = (glyphEntries gs).flatMap (fun e => splitWhere (· == ',') (written e)) := by
  induction gs with
  | nil => rfl
  | cons g gs ih =>
    obtain ⟨e, es, hes⟩ := exists_glyphEntries gs
    by_cases hcomma : (g.char == ',' && !g.inComment) = true
    · -- a comma in code parts entries
      rw [glyphEntries_comma hcomma, List.flatMap_cons, ← ih, written_cons, splitWhere,
        if_pos (Bool.and_eq_true_iff.mp hcomma).1]
      rfl
    · rw [hes, List.flatMap_cons] at ih
      rw [glyphEntries_other (by simpa using hcomma) hes, List.flatMap_cons, written_cons,
        written_cons]
      by_cases hc : (g.char == ',') = true
      · -- a comma in a comment parts the raw text alone
        rw [splitWhere, splitWhere, if_pos hc, if_pos hc, ih]
        rfl
      · obtain ⟨piece, pieces, hpieces⟩ := exists_splitWhere (· == ',') (written e)
        rw [hpieces] at ih
        rw [splitWhere_cons_of_not (by simpa using hc) ih,
          splitWhere_cons_of_not (by simpa using hc) hpieces]
        rfl

/-- With its comments blanked, the entries of a list are its entries, blanked. -/
theorem splitWhere_blanked (gs : List Glyph) :
    splitWhere (· == ',') (blanked gs) = (glyphEntries gs).map blanked := by
  induction gs with
  | nil => rfl
  | cons g gs ih =>
    obtain ⟨e, es, hes⟩ := exists_glyphEntries gs
    by_cases hcomma : (g.char == ',' && !g.inComment) = true
    · obtain ⟨hc, hg⟩ := Bool.and_eq_true_iff.mp hcomma
      rw [glyphEntries_comma hcomma, List.map_cons, ← ih, blanked_cons,
        Glyph.blanked_of_code (by simpa using hg), List.singleton_append, splitWhere, if_pos hc]
      rfl
    · rw [hes, List.map_cons] at ih
      rw [glyphEntries_other (by simpa using hcomma) hes, List.map_cons, blanked_cons, blanked_cons]
      refine splitWhere_append (fun c hc => ?_) ih
      by_cases hg : g.inComment = true
      · -- what is left of a comment holds no comma
        rw [beq_eq_false_iff_ne]
        rintro rfl
        exact absurd (Glyph.blanked_isBlank hg _ hc) (by decide)
      · rw [Glyph.blanked_of_code (by simpa using hg), List.mem_singleton] at hc
        simpa [hc, hg] using hcomma

theorem not_comma_of_mem_glyphEntries {e : List Glyph} (he : e ∈ glyphEntries gs) :
    ∀ g ∈ e, (g.char == ',' && !g.inComment) = false := by
  induction gs generalizing e with
  | nil =>
    obtain rfl := List.mem_singleton.mp he
    simp
  | cons g gs ih =>
    obtain ⟨first, es, hes⟩ := exists_glyphEntries gs
    by_cases hcomma : (g.char == ',' && !g.inComment) = true
    · rw [glyphEntries_comma hcomma] at he
      rcases List.mem_cons.mp he with rfl | he
      · simp
      · exact ih he
    · rw [glyphEntries_other (by simpa using hcomma) hes] at he
      rw [hes] at ih
      rcases List.mem_cons.mp he with rfl | he
      · intro x hx
        rcases List.mem_cons.mp hx with rfl | hx
        · simpa using hcomma
        · exact ih List.mem_cons_self x hx
      · exact ih (List.mem_cons_of_mem _ he)

end Entries

/-! ### The exports of a list -/

theorem words_of_blank {cs : List Char} (h : ∀ c ∈ cs, isBlank c = true) : words cs = [] := by
  refine List.eq_nil_iff_forall_not_mem.mpr fun w hw => ?_
  obtain ⟨hne, hwithin⟩ := isInfix_of_mem_words hw
  obtain ⟨c, w, rfl⟩ := List.exists_cons_of_ne_nil hne
  have hvisible := of_mem_splitWhere (List.mem_of_mem_filter hw) c List.mem_cons_self
  rw [h c (hwithin.subset List.mem_cons_self)] at hvisible
  cases hvisible

theorem listedExport?_eq_none {entry : List Char} {offset : Nat}
    (h : (listedExport? entry 0).isNone = true) : listedExport? entry offset = none := by
  have hshift := listedExport?_shift offset entry 0
  rwa [Option.isNone_iff_eq_none.mp h, Nat.add_zero] at hshift

/-- An entry without comments, or a comment that has an entry of its own, stands for the same in both
texts. -/
theorem entry_blanked {e : List Glyph} (h : entryApart e = true)
    (hcomma : ∀ g ∈ e, (g.char == ',' && !g.inComment) = false) (offset : Nat) :
    (splitWhere (· == ',') (written e)).filterMap (fun t => listedExport? t offset)
      = (listedExport? (blanked e) offset).toList := by
  rcases Bool.or_eq_true_iff.mp h with hplain | halone
  · -- without comments the entry is one piece
    have hplain : ∀ g ∈ e, g.inComment = false := by simpa using hplain
    have hnone : ∀ c ∈ written e, (c == ',') = false := by
      intro c hc
      obtain ⟨g, hg, rfl⟩ := List.mem_map.mp hc
      simpa [hplain g hg] using hcomma g hg
    have hone := @splitWhere_append (· == ',') _ hnone [] [] [] rfl
    rw [List.append_nil] at hone
    rw [hone, blanked_of_clear hplain, List.filterMap_cons]
    cases listedExport? (written e) offset <;> rfl
  · -- in an entry of comments no piece stands for an export
    obtain ⟨hblank, hnone⟩ := Bool.and_eq_true_iff.mp halone
    have hblanked : listedExport? (blanked e) offset = none := by
      rw [listedExport?, words_of_blank (List.all_eq_true.mp hblank)]
      rfl
    rw [hblanked]
    refine List.filterMap_eq_nil_iff.mpr fun t ht => ?_
    exact listedExport?_eq_none (List.all_eq_true.mp hnone t ht)

/-- **A list stands for the same exports in both texts**, if comments in it have entries of their
own. -/
theorem listed_blanked {gs : List Glyph} (h : entriesApart gs = true) {v w v' w' : List Char}
    (hv : written gs = v ++ '}' :: w) (hnot : '}' ∉ v)
    (hv' : blanked gs = v' ++ '}' :: w') (hnot' : '}' ∉ v') (offset : Nat) :
    listedExports offset v = listedExports offset v' := by
  obtain ⟨hend, hentries⟩ := Bool.and_eq_true_iff.mp h
  generalize hinside : gs.takeWhile (fun g => g.char != '}') = inside at hentries
  have hchars : ∀ g ∈ inside, g.char ≠ '}' := by
    intro g hg
    rw [← hinside] at hg
    simpa using List.mem_takeWhile_imp hg
  obtain ⟨g, hg, hcode⟩ := (Option.any_eq_true _ _).mp hend
  obtain ⟨rest, hrest⟩ := List.head?_eq_some_iff.mp hg
  have hclose : g.char = '}' := by
    have := List.head?_dropWhile_not (fun g : Glyph => g.char != '}') gs
    rw [hg] at this
    simpa using this
  have hgs : gs = inside ++ g :: rest := by
    rw [← hinside, ← hrest, List.takeWhile_append_dropWhile]
  have hwritten : '}' ∉ written inside := by
    intro hmem
    obtain ⟨x, hx, hxc⟩ := List.mem_map.mp hmem
    exact hchars x hx hxc
  have hblanked : '}' ∉ blanked inside :=
    fun hmem => hwritten (mem_written_of_mem_blanked (by decide) hmem)
  have hother : ∀ u : List Char, '}' ∉ u → ∀ c ∈ u, (c != '}') = true := by
    intro u hu c hc
    simpa using ne_of_mem_of_not_mem hc hu
  have hstop : ∀ u : List Char, ∀ c ∈ ('}' :: u).head?, (c != '}') = false := by
    rintro u c ⟨⟩
    rfl
  -- in both texts the list is what stands in front of that brace
  have hlist : v = written inside := by
    rw [hgs, written_append, written_cons, hclose] at hv
    exact (append_inj_of_class hv (hother _ hwritten) (hother _ hnot) (hstop _) (hstop _)).1.symm
  have hlist' : v' = blanked inside := by
    rw [hgs, blanked_append, blanked_cons, Glyph.blanked_of_code (by simpa using hcode), hclose,
      List.singleton_append] at hv'
    exact (append_inj_of_class hv' (hother _ hblanked) (hother _ hnot') (hstop _)
      (hstop _)).1.symm
  rw [hlist, hlist', listedExports, listedExports, splitWhere_written, splitWhere_blanked,
    List.filterMap_flatMap, List.filterMap_map, List.filterMap_eq_flatMap_toList]
  exact List.flatMap_congr fun e he =>
    entry_blanked (List.all_eq_true.mp hentries e he) (not_comma_of_mem_glyphEntries he) offset

end Scaffold

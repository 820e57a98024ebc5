/-
Scaffold/Proofs/Comments/MemberStart.lean

Comments in front of a member.

A member can begin at the start of a body, on a new line, or right after a brace or
semicolon.  A comment in front of it hides what precedes the comment, and with the
comment blanked that counts again, with the newlines in the comment.  If a newline
stands between the comment and the member, or if no member can begin there even
with the comment blanked (`beginApart`), both texts say the same
(`canBeginMember_blanked`).
-/
import Scaffold.ClassBody
import Scaffold.Proofs.Comments.Places
import Scaffold.Proofs.Text.Commas

namespace Scaffold

open Text

/-- Whether a text has a newline among the blanks it ends with. -/
def endsLine (cs : List Char) : Bool := (cs.drop (trimEnd cs).length).contains '\n'

/-- Whether a comment that a text ends in has a newline behind it, or ends in front of no place where
a member can begin. -/
def beginApart (front : List Glyph) : Bool :=
  (lastVisible front).all (fun g =>
    !g.inComment || endsLine (written front) || !canBeginMember (blanked front))

section Beginnings

theorem trimEnd_append_blanks {y : List Char} (hy : ∀ c ∈ y, isBlank c = true) (u : List Char) :
    trimEnd (u ++ y) = trimEnd u :=
  dropEndWhile_append_of_nil (dropEndWhile_eq_nil hy) u

theorem trimEnd_eq_self {u : List Char} (hu : ∀ c ∈ u.getLast?, isBlank c = false) :
    trimEnd u = u := by
  rcases List.eq_nil_or_concat u with rfl | ⟨u, c, rfl⟩
  · rfl
  · rw [List.concat_eq_append] at hu ⊢
    have hc : dropEndWhile isBlank [c] = [c] :=
      dropEndWhile_eq_self (by simpa using hu c (List.getLast?_concat))
    rw [trimEnd, dropEndWhile_append (by rw [hc]; simp), hc]

/-- A member can begin behind a newline, a brace or semicolon, or nothing at all. -/
theorem canBeginMember_append {u y : List Char} (hu : ∀ c ∈ u.getLast?, isBlank c = false)
    (hy : ∀ c ∈ y, isBlank c = true) :
    endsLine (u ++ y) = y.contains '\n'
      ∧ canBeginMember (u ++ y)
        = (y.contains '\n' || u.getLast?.all (fun c => c == '{' || c == ';' || c == '}')) := by
  have htrim : trimEnd (u ++ y) = u := (trimEnd_append_blanks hy u).trans (trimEnd_eq_self hu)
  constructor
  · rw [endsLine, htrim, List.drop_left]
  · rw [canBeginMember, htrim, List.drop_left]
    rcases u.getLast? with - | c <;> rfl

theorem canBeginMember_of_newline {y : List Char} (hy : ∀ c ∈ y, isBlank c = true)
    (hnewline : '\n' ∈ y) (u : List Char) : canBeginMember (u ++ y) = true := by
  obtain ⟨w, hw⟩ : trimEnd u <+: u := dropEndWhile_isPrefix isBlank u
  have hdrop : (u ++ y).drop (trimEnd (u ++ y)).length = w ++ y := by
    rw [trimEnd_append_blanks hy]
    nth_rewrite 2 [← hw]
    rw [List.append_assoc, List.drop_left]
  have hmem : (w ++ y).contains '\n' = true := by simp [hnewline]
  rw [canBeginMember, hdrop, hmem]
  rfl

/-- A text up to its last visible glyph, and the blanks behind it. -/
theorem exists_trailing (gs : List Glyph) :
    ∃ x y, gs = x ++ y ∧ (∀ g ∈ y, isBlank g.char = true) ∧ lastVisible gs = x.getLast?
      ∧ ∀ g ∈ x.getLast?, isBlank g.char = false := by
  induction gs using List.reverseRecOn with
  | nil => exact ⟨[], [], rfl, by simp, rfl, by simp⟩
  | append_singleton gs g ih =>
    by_cases hg : isBlank g.char = true
    · -- a blank behind does not change what is last visible
      obtain ⟨x, y, rfl, hy, hlast, hx⟩ := ih
      refine ⟨x, y ++ [g], by simp, ?_, ?_, hx⟩
      · intro d hd
        rcases List.mem_append.mp hd with hd | hd
        · exact hy d hd
        · rwa [List.mem_singleton.mp hd]
      · rw [← hlast, lastVisible, lastVisible, List.filter_append,
          List.filter_cons_of_neg (by simp [hg]), List.filter_nil, List.append_nil]
    · refine ⟨gs ++ [g], [], by simp, by simp, ?_, ?_⟩
      · rw [lastVisible, List.filter_append, List.filter_cons_of_pos (by simp [hg]),
          List.filter_nil, List.getLast?_concat, List.getLast?_concat]
      · intro d hd
        rw [List.getLast?_concat] at hd
        obtain rfl := Option.some.inj hd
        simpa using hg

/-- Behind code, blanks are in no comment. -/
theorem code_of_blanks {g : Glyph} {y : List Glyph} (hchain : (g :: y).IsChain Joins)
    (hg : g.inComment = false) (hy : ∀ d ∈ y, isBlank d.char = true) :
    ∀ d ∈ y, d.inComment = false := by
  induction y generalizing g with
  | nil => simp
  | cons d y ih =>
    obtain ⟨hjoin, hrest⟩ := List.isChain_cons_cons.mp hchain
    have hd : d.inComment = false := by
      by_contra hd
      have hslash := hjoin.1 hg (by simpa using hd)
      have hblank := hy d List.mem_cons_self
      rw [hslash] at hblank
      cases hblank
    intro e he
    rcases List.mem_cons.mp he with rfl | he
    · exact hd
    · exact ih hrest hd (fun e he => hy e (List.mem_cons_of_mem _ he)) e he

/-- Between a comment and the next visible character outside comments is a newline, or the comment
ends in a slash. -/
theorem newline_or_slash {g d : Glyph} {y : List Glyph} (hchain : (g :: (y ++ [d])).IsChain Joins)
    (hg : g.inComment = true) (hd : d.inComment = false) (hvisible : isBlank d.char = false)
    (hy : ∀ e ∈ y, isBlank e.char = true) : '\n' ∈ written y ∨ g.char = '/' := by
  induction y generalizing g with
  | nil =>
    -- the comment ends right in front of `d`
    rcases (List.isChain_cons_cons.mp hchain).1.2 hg hd with hnewline | hslash
    · rw [hnewline] at hvisible
      cases hvisible
    · exact .inr hslash
  | cons e y ih =>
    obtain ⟨hjoin, hrest⟩ := List.isChain_cons_cons.mp hchain
    by_cases he : e.inComment = true
    · -- the comment goes on: its last glyph is among the blanks, and no slash
      rcases ih hrest he (fun x hx => hy x (List.mem_cons_of_mem _ hx)) with hnewline | hslash
      · exact .inl (List.mem_cons_of_mem _ hnewline)
      · have hblank := hy e List.mem_cons_self
        rw [hslash] at hblank
        cases hblank
    · -- the comment ends here
      rcases hjoin.2 hg (by simpa using he) with hnewline | hslash
      · exact .inl (by rw [written_cons, hnewline]; exact List.mem_cons_self)
      · exact .inr hslash

theorem written_isBlank {y : List Glyph} (hy : ∀ g ∈ y, isBlank g.char = true) :
    ∀ c ∈ written y, isBlank c = true := by
  intro c hc
  obtain ⟨g, hg, rfl⟩ := List.mem_map.mp hc
  exact hy g hg

/-- A newline among the blanks behind a text is kept, so a member can begin in both texts. -/
theorem canBeginMember_blanked_of_newline (u : List Glyph) {y : List Glyph}
    (hy : ∀ g ∈ y, isBlank g.char = true) (hnewline : '\n' ∈ written y) :
    canBeginMember (blanked (u ++ y)) = canBeginMember (written (u ++ y)) := by
  have hkept : '\n' ∈ blanked y := by
    obtain ⟨e, he, hec⟩ := List.mem_map.mp hnewline
    refine List.mem_flatMap.mpr ⟨e, he, ?_⟩
    rw [Glyph.blanked, if_neg (by simp [hec]), hec]
    exact List.mem_singleton_self _
  have hblanks : ∀ c ∈ blanked y, isBlank c = true := by
    intro c hc
    by_contra hvisible
    exact hvisible (written_isBlank hy c (mem_written_of_mem_blanked (by simpa using hvisible) hc))
  rw [blanked_append, canBeginMember_of_newline hblanks hkept, written_append,
    canBeginMember_of_newline (written_isBlank hy) hnewline]

/-- Behind code and blanks both texts end in the same. -/
theorem canBeginMember_blanked_of_code (x : List Glyph) {g : Glyph} {y : List Glyph}
    (hg : g.inComment = false) (hvisible : isBlank g.char = false)
    (hcode : ∀ d ∈ y, d.inComment = false) (hy : ∀ d ∈ y, isBlank d.char = true) :
    canBeginMember (blanked (x ++ [g] ++ y)) = canBeginMember (written (x ++ [g] ++ y)) := by
  have hhere : (written (x ++ [g])).getLast? = some g.char := getLast?_written_snoc x g
  have hthere : (blanked (x ++ [g])).getLast? = some g.char := by
    rw [blanked_snoc, Glyph.blanked_of_code hg, List.getLast?_concat]
  obtain ⟨-, hwritten⟩ := canBeginMember_append (u := written (x ++ [g]))
    (by rw [hhere]; rintro c ⟨⟩; exact hvisible) (written_isBlank hy)
  obtain ⟨-, hblanked⟩ := canBeginMember_append (u := blanked (x ++ [g]))
    (by rw [hthere]; rintro c ⟨⟩; exact hvisible) (written_isBlank hy)
  rw [written_append, hwritten, blanked_append, blanked_of_clear hcode, hblanked, hthere, hhere]

/-- **A member can begin behind a text in both texts or in neither.** -/
theorem canBeginMember_blanked {front : List Glyph} {d : Glyph}
    (hchain : (⟨'{', false⟩ :: (front ++ [d])).IsChain Joins) (hd : d.inComment = false)
    (hvisible : isBlank d.char = false) (h : beginApart front = true) :
    canBeginMember (blanked front) = canBeginMember (written front) := by
  obtain ⟨x, y, rfl, hy, hlast, hx⟩ := exists_trailing front
  rcases List.eq_nil_or_concat x with rfl | ⟨x, g, rfl⟩
  · -- there are blanks only, and none of them is in a comment
    rw [List.nil_append] at hchain ⊢
    rw [← List.cons_append] at hchain
    rw [blanked_of_clear (code_of_blanks hchain.left_of_append rfl hy)]
  rw [List.concat_eq_append] at hchain hlast hx h ⊢
  rw [List.getLast?_concat] at hlast hx
  have hlocal : (g :: (y ++ [d])).IsChain Joins := by
    have hsplit : (⟨'{', false⟩ : Glyph) :: (x ++ [g] ++ y ++ [d])
        = (⟨'{', false⟩ :: x) ++ (g :: (y ++ [d])) := by simp
    rw [hsplit] at hchain
    exact hchain.right_of_append
  by_cases hg : g.inComment = true
  · by_cases hnewline : '\n' ∈ written y
    · exact canBeginMember_blanked_of_newline _ hy hnewline
    · -- the comment ends in a slash, behind which no member can begin
      have hslash := (newline_or_slash hlocal hg hd hvisible hy).resolve_left hnewline
      have hno : (written y).contains '\n' = false := by simpa using hnewline
      have hlastw : (written (x ++ [g])).getLast? = some g.char := getLast?_written_snoc x g
      obtain ⟨hends, hhere⟩ := canBeginMember_append (u := written (x ++ [g]))
        (by rw [hlastw]; rintro c ⟨⟩; exact hx g rfl) (written_isBlank hy)
      rw [← written_append, hno] at hends hhere
      rw [beginApart, hlast, Option.all_some, hg, hends] at h
      rw [hhere, hlastw, hslash]
      simpa using h
  · have hg : g.inComment = false := by simpa using hg
    have hcode := code_of_blanks
      (List.IsChain.left_of_append (by rwa [← List.cons_append] at hlocal)) hg hy
    exact canBeginMember_blanked_of_code x hg (hx g rfl) hcode hy

end Beginnings

end Scaffold

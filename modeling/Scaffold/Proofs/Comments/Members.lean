/-
Scaffold/Proofs/Comments/Members.lean

The members of a class body and of the body with its comments blanked.

A body is read standing alone, in a text that is its opening brace and itself:
what it is asked is answered alike there and in the whole text.  `MembersApart`
says where comments may stand in it: not in the head of a member, up to its opening
parenthesis, nor between its parameters and the brace or arrow that follows them,
and in front of a head only with a newline behind.  In the parameters they may
stand: the parentheses that count are those in code, so parameters end at the same
offset in both bodies (`closingParen_blanked`).  Then the methods have the same
names (`methodNames_blanked`).
-/
import Scaffold.Proofs.Comments.MemberStart
import Scaffold.Proofs.Comments.Search
import Scaffold.Proofs.Extraction.Body

namespace Scaffold

open Text Pattern Scan

/-! ### The glyphs of a body -/

/-- The glyphs of a body that stands alone. -/
def bodyGlyphs (body : List Char) : List Glyph := (shade ('{' :: body)).tail

/-- A body with its comments blanked. -/
def blankedBody (body : List Char) : List Char := blanked (bodyGlyphs body)

theorem shade_body (body : List Char) : shade ('{' :: body) = ⟨'{', false⟩ :: bodyGlyphs body := by
  have hhead : inCommentAt .code (.ofChar '{') (nextClass body) = false := by
    rcases nextClass body with - | k
    · rfl
    · rfl
  rw [bodyGlyphs, shade_eq, shadeIn_cons, hhead]
  rfl

@[simp] theorem written_bodyGlyphs (body : List Char) : written (bodyGlyphs body) = body := by
  have h := written_shade ('{' :: body)
  rw [shade_body, written_cons] at h
  exact (List.cons.inj h).2

/-- Blanking a body that stands alone leaves its opening brace. -/
theorem blanked_shade_body (body : List Char) :
    blanked (shade ('{' :: body)) = '{' :: blankedBody body := by
  rw [shade_body, blanked_cons]
  rfl

theorem byteLength_blankedBody (body : List Char) :
    byteLength (blankedBody body) = byteLength body := by
  rw [blankedBody, byteLength_blanked, written_bodyGlyphs]

theorem isChain_bodyGlyphs (body : List Char) : (bodyGlyphs body).IsChain Joins := by
  have h := isChain_shade ('{' :: body)
  rw [shade_body] at h
  exact h.tail

/-! ### Parentheses -/

section Parentheses

variable {cs : List Char}

/-- What is left of a comment is no parenthesis. -/
theorem Glyph.blanked_ne_paren {g : Glyph} (hg : g.inComment = true) :
    ∀ c ∈ g.blanked, c ≠ '(' ∧ c ≠ ')' := by
  intro c hc
  rcases g.blanked_of_comment hg with ⟨hb, -⟩ | hb
  · rw [hb] at hc
    obtain rfl := List.mem_singleton.mp hc
    decide
  · rw [hb] at hc
    obtain rfl := List.eq_of_mem_replicate hc
    decide

theorem closingParen_no_paren {map : CodeMap} {offset depth : Nat} {b cs : List Char}
    (h : ∀ c ∈ b, c ≠ '(' ∧ c ≠ ')') :
    closingParen map offset depth (b ++ cs)
      = closingParen map (offset + byteLength b) depth cs := by
  induction b generalizing offset with
  | nil => rfl
  | cons c b ih =>
    obtain ⟨hopen, hclose⟩ := h c List.mem_cons_self
    rw [List.cons_append, closingParen, if_neg hopen, if_neg hclose, ite_self,
      ih (fun d hd => h d (List.mem_cons_of_mem _ hd)), byteLength_cons, Nat.add_assoc]

/-- The parentheses in code are the same. -/
theorem parenDepths_blanked {u v : List Glyph} (hsplit : shade cs = u ++ v) (depth : Nat) :
    parenDepths (.ofText (blanked (shade cs))) (byteLength (written u)) depth (blanked v)
      = parenDepths (.ofText cs) (byteLength (written u)) depth (written v) := by
  induction v generalizing u depth with
  | nil => rfl
  | cons g v ih =>
    have hrest := fun depth => ih (u := u ++ [g]) (by rw [hsplit]; simp) depth
    rw [byteLength_written_snoc] at hrest
    rw [blanked_cons, written_cons, parenDepths]
    by_cases hg : g.inComment = true
    · -- in a comment a parenthesis does not count, and a blank is none
      have hcode := isCode_of_comment hsplit hg
      rw [parenDepths_no_paren (Glyph.blanked_ne_paren hg), g.byteLength_blanked, hrest,
        if_neg (by simp [hcode]), if_neg (by simp [hcode])]
    · have hg' : g.inComment = false := by simpa using hg
      rw [Glyph.blanked_of_code hg', List.singleton_append, parenDepths,
        isCode_blanked hsplit hg', hrest, hrest, hrest]

/-- **Parentheses close at the same offsets.** -/
theorem closingParen_blanked {u v : List Glyph} (hsplit : shade cs = u ++ v) (depth : Nat) :
    closingParen (.ofText (blanked (shade cs))) (byteLength (written u)) depth (blanked v)
      = closingParen (.ofText cs) (byteLength (written u)) depth (written v) := by
  induction v generalizing u depth with
  | nil => rfl
  | cons g v ih =>
    have hrest := fun depth => ih (u := u ++ [g]) (by rw [hsplit]; simp) depth
    rw [byteLength_written_snoc] at hrest
    rw [blanked_cons, written_cons, closingParen]
    by_cases hg : g.inComment = true
    · -- a parenthesis in a comment does not count
      have hcode := isCode_of_comment hsplit hg
      rw [closingParen_no_paren (Glyph.blanked_ne_paren hg), g.byteLength_blanked, hrest,
        if_pos (by simp [hcode])]
    · have hg' : g.inComment = false := by simpa using hg
      rw [Glyph.blanked_of_code hg', List.singleton_append, closingParen,
        isCode_blanked hsplit hg', hrest, hrest, hrest]

end Parentheses

/-! ### What follows the parameters -/

/-- The glyphs behind the parameters of a head, up to the end of the body. -/
def afterParameters (body : List Char) (m : Match) : Option (List Glyph) :=
  (closingParen (.ofText ('{' :: body)) m.span.stop 0 (dropBytes m.span.stop ('{' :: body))).map
    fun n => dropGlyphs (n + 1) (shade ('{' :: body))

section AfterParameters

variable {body u v : List Char} {m : Match}

/-- Behind a closing parenthesis, the first comment begins with a slash. -/
theorem closing_split {cs : List Char} {x y : List Glyph} (hsplit : shade cs = x ++ y) {n : Nat}
    (h : closingParen (.ofText cs) (byteLength (written x)) 0 (written y) = some n) :
    ∃ w r, shade cs = w ++ r ∧ n + 1 = byteLength (written w) ∧ OpensWithSlash r := by
  obtain ⟨w, r, hy, rfl⟩ := closingParen_at h
  obtain ⟨w, g, rfl, rfl, hg⟩ := List.map_eq_append_iff.mp hy
  obtain ⟨g, r, rfl, hclose, rfl⟩ := List.map_eq_cons_iff.mp hg
  have hcut : shade cs = (x ++ w) ++ g :: r := by rw [hsplit, List.append_assoc]
  have hlen : byteLength (written (x ++ w))
      = byteLength (written x) + byteLength (w.map Glyph.char) := by
    rw [written_append, byteLength_append]
    rfl
  -- a parenthesis that closes is in code
  have hcode : g.inComment = false := by
    by_contra hg
    have := isCode_of_comment hcut (by simpa using hg)
    rw [hlen, isCode_closingParen h] at this
    cases this
  have hchain := isChain_shade cs
  rw [hcut] at hchain
  refine ⟨(x ++ w) ++ [g], r, by rw [hcut]; simp, ?_, ?_⟩
  · rw [byteLength_written_snoc, hlen, hclose]
    rfl
  · exact (opensWithSlash_of_chain hcode hchain.right_of_append).2

/-- The glyphs of a body around the parenthesis that ends a head. -/
theorem head_split (hm : IsHead body m u v) :
    ∃ x y, shade ('{' :: body) = x ++ y ∧ written y = '(' :: v
      ∧ byteLength (written x) = m.span.stop := by
  have hwritten : written (shade ('{' :: body)) = ('{' :: u) ++ '(' :: v := by
    rw [written_shade, hm.text_eq]
    rfl
  obtain ⟨x, y, hsplit, hx, hy⟩ := List.map_eq_append_iff.mp hwritten
  refine ⟨x, y, hsplit, hy, ?_⟩
  rw [hm.stop_eq, show written x = '{' :: u from hx, byteLength_cons, Nat.add_comm]
  rfl

theorem afterParameters_eq {x y : List Glyph} (hsplit : shade ('{' :: body) = x ++ y)
    (hx : byteLength (written x) = m.span.stop) :
    afterParameters body m
      = (closingParen (.ofText ('{' :: body)) (byteLength (written x)) 0 (written y)).map
          fun n => dropGlyphs (n + 1) (shade ('{' :: body)) := by
  have hdrop : dropBytes m.span.stop ('{' :: body) = written y := by
    rw [← hx, ← written_shade ('{' :: body), hsplit, written_append, dropBytes_append]
  rw [afterParameters, hdrop, hx]

theorem opensWithSlash_afterParameters (hm : IsHead body m u v) {rest : List Glyph}
    (h : afterParameters body m = some rest) : OpensWithSlash rest := by
  obtain ⟨x, y, hsplit, -, hx⟩ := head_split hm
  rw [afterParameters_eq hsplit hx] at h
  obtain ⟨n, hn, rfl⟩ := Option.map_eq_some_iff.mp h
  obtain ⟨w, r, hcut, hlen, hslash⟩ := closing_split hsplit hn
  rw [hlen, hcut, dropGlyphs_append]
  exact hslash

/-- The text behind the parameters of a head. -/
theorem rest_eq (hm : IsHead body m u v) :
    ((ClassBody.alone body).parametersAfter m).map Prod.snd
      = (afterParameters body m).map written := by
  obtain ⟨x, y, hsplit, hy, hx⟩ := head_split hm
  have hstop : 1 + byteLength u = byteLength (written x) := by rw [hx, hm.stop_eq, Nat.add_comm]
  have hparams := ClassBody.parametersAfter_within (ClassBody.block_alone body) hm
  rw [afterParameters_eq hsplit hx, Option.map_map, hy,
    show (ClassBody.alone body).parametersAfter m = _ from hparams, Option.map_map, hstop]
  refine Option.map_congr fun n hn => ?_
  obtain ⟨w, r, hcut, hlen, -⟩ := closing_split hsplit (by rw [hy]; exact hn)
  have htext : '{' :: body = written w ++ (written r ++ []) := by
    rw [List.append_nil, ← written_append, ← hcut, written_shade]
  have hsize : 1 + byteLength body = byteLength (written w) + byteLength (written r) := by
    rw [← byteLength_append, ← written_append, ← hcut, written_shade]
    rfl
  show slice (n + 1) (1 + byteLength body) ('{' :: body) = written (dropGlyphs (n + 1) _)
  rw [hlen, hcut, dropGlyphs_append, hsize, htext, slice_of_append]

/-- The text behind the parameters of a head, in the blanked body. -/
theorem rest_blanked (hm : IsHead body m u v) {m' : Match} {u' v' : List Char}
    (hm' : IsHead (blankedBody body) m' u' v') (hstop : m.span.stop = m'.span.stop) :
    ((ClassBody.alone (blankedBody body)).parametersAfter m').map Prod.snd
      = (afterParameters body m).map blanked := by
  -- blanking keeps lengths, so the head cuts both bodies at one place
  have hlen : byteLength ('{' :: u) = byteLength ('{' :: u') := by
    have hm := hm.stop_eq
    have hm' := hm'.stop_eq
    rw [byteLength_cons, byteLength_cons]
    omega
  obtain ⟨x, y, hsplit, hux, -, hux', hy'⟩ := exists_cut
    (show written (shade ('{' :: body)) = ('{' :: u) ++ '(' :: v by
      rw [written_shade, hm.text_eq]; rfl)
    (show blanked (shade ('{' :: body)) = ('{' :: u') ++ '(' :: v' by
      rw [blanked_shade_body, hm'.text_eq]; rfl) hlen
  have hx : byteLength (written x) = m.span.stop := by
    rw [hux, hm.stop_eq, byteLength_cons, Nat.add_comm]
    rfl
  have hu' : 1 + byteLength u' = byteLength (written x) := by
    rw [hx, hstop, hm'.stop_eq, Nat.add_comm]
  have hparams := ClassBody.parametersAfter_within (ClassBody.block_alone (blankedBody body)) hm'
  have hclosing := closingParen_blanked hsplit 0
  rw [blanked_shade_body, hy'] at hclosing
  rw [afterParameters_eq hsplit hx, Option.map_map, ← hclosing,
    show (ClassBody.alone (blankedBody body)).parametersAfter m' = _ from hparams, Option.map_map,
    hu']
  refine Option.map_congr fun n hn => ?_
  obtain ⟨w, r, hcut, hlen, -⟩ := closing_split hsplit (hclosing.symm.trans hn)
  have htext : '{' :: blankedBody body = blanked w ++ (blanked r ++ []) := by
    rw [List.append_nil, ← blanked_append, ← hcut, blanked_shade_body]
  have hsize : 1 + byteLength (blankedBody body)
      = byteLength (blanked w) + byteLength (blanked r) := by
    rw [← byteLength_append, ← blanked_append, ← hcut, blanked_shade_body]
    rfl
  show slice (n + 1) (1 + byteLength (blankedBody body)) ('{' :: blankedBody body)
    = blanked (dropGlyphs (n + 1) _)
  rw [hsize, hlen, htext, ← byteLength_blanked, slice_of_append, byteLength_blanked, hcut,
    dropGlyphs_append]

end AfterParameters

/-! ### Heads -/

/-- Whether an offset in a body is in code, directly in the body. -/
def inBody (body : List Char) (offset : Nat) : Bool :=
  (CodeMap.ofText ('{' :: body)).isCode (1 + offset)
    && (CodeMap.ofText ('{' :: body)).depthAt (1 + offset)
        == (CodeMap.ofText ('{' :: body)).depthAt 1

/-- Whether the name in a head stands in code, directly in the body. -/
def standsInBody (body : List Char) (m : Match) : Bool :=
  (m.capture? .name).any (fun name => inBody body name.start)

/-- Where the head of a member begins, blanks aside. -/
def headStart (body : List Char) (m : Match) : Nat :=
  m.span.start + byteLength ((slice m.span.start m.span.stop body).takeWhile isBlank)

namespace ClassBody

/-- In a text that is a body alone, an offset in the body is one more in the text. -/
theorem start_alone (body : List Char) (n : Nat) : (alone body).span.start + n = 1 + n := by
  show 0 + 1 + n = 1 + n
  omega

theorem isMember_alone (body : List Char) (m : Match) :
    (alone body).isMember m
      = ((m.text .name body).head? != some '#' && standsInBody body m
          && (m.capture? .name).all
            (fun name => parenDepthAt (alone body).parens (1 + name.start) == 0)
          && canBeginMember (takeBytes (headStart body m) body)) := by
  rw [isMember, standsInBody]
  rcases m.capture? .name with - | name
  · rw [Option.any_none, Bool.and_false]
    rfl
  · simp only [start_alone, text_alone, Option.any_some, Option.all_some]
    show ((((_ && _) && _) && _) && _) = (((_ && (_ && _)) && _) && _)
    simp only [Bool.and_assoc]
    rfl

/-- The name of the member a head in a body stands for, with its offset. -/
def memberName? (body : List Char) (tail : Pattern) (m : Match) : Option (Nat × String) :=
  ((alone body).member? tail m).map (fun x => (x.1, x.2.name))

theorem memberName?_eq (body : List Char) (tail : Pattern) (m : Match) :
    memberName? body tail m
      = if (alone body).isMember m then
          (m.capture? .name).bind fun name =>
            (((alone body).parametersAfter m).map Prod.snd).bind fun rest =>
              if tail.leads rest then some (1 + name.start, String.ofList (m.text .name body))
              else none
        else none := by
  rw [memberName?, member?, text_alone]
  simp only [start_alone]
  split_ifs
  · rcases (alone body).parametersAfter m with - | ⟨parameters, rest⟩
    · rcases m.capture? .name with - | name <;> rfl
    · rcases m.capture? .name with - | name
      · rfl
      · show Option.map _ (if tail.leads rest then _ else none)
          = if tail.leads rest then _ else none
        split_ifs <;> rfl
  · rfl

theorem memberName?_of_outside {body : List Char} {tail : Pattern} {m : Match}
    (h : standsInBody body m = false) : memberName? body tail m = none := by
  rw [memberName?_eq, isMember_alone, h, Bool.and_false]
  rfl

end ClassBody

/-! ### The two forms of a member -/

/-- The forms of a member: a method, or a field that holds an arrow function. -/
inductive MemberForm where
  | method
  | field
deriving DecidableEq

namespace MemberForm

def all : List MemberForm := [method, field]

/-- A member of a form up to its opening parenthesis. -/
def head : MemberForm → Pattern
  | method => methodHead
  | field => fieldHead

/-- What follows the parameters of a member of a form. -/
def tail : MemberForm → Pattern
  | method => methodTail
  | field => fieldTail

/-- Whether a head is excluded before anything else is asked. -/
def excludes (body : List Char) (m : Match) : MemberForm → Bool
  | method => m.has .accessor || nonMethodNames.contains (String.ofList (m.text .name body))
  | field => false

/-- The name a head stands for, if any, with its offset. -/
def name? (form : MemberForm) (body : List Char) (m : Match) : List (Nat × String) :=
  if form.excludes body m then [] else (ClassBody.memberName? body form.tail m).toList

theorem name?_of_outside {form : MemberForm} {body : List Char} {m : Match}
    (h : standsInBody body m = false) : form.name? body m = [] := by
  rw [name?, ClassBody.memberName?_of_outside h]
  exact ite_self _

theorem mem_all (form : MemberForm) : form ∈ all := by
  cases form <;> decide

theorem namesVisibly (form : MemberForm) : form.head.namesVisibly = true := by
  cases form <;> decide +kernel

theorem lands_head (form : MemberForm) : form.head.lands = true := by
  cases form <;> decide +kernel

theorem lands_tail (form : MemberForm) : form.tail.lands = true := by
  cases form <;> decide +kernel

end MemberForm

/-- Where comments may stand in a class body. -/
structure MembersApart (body : List Char) : Prop where
  /-- No comment stands in the head of a member. -/
  heads : ∀ form ∈ MemberForm.all,
    apart form.head (standsInBody body) (fun _ => false) (placesFrom [] (bodyGlyphs body)) = true
  /-- In front of a head, a comment has a newline behind it. -/
  begins : ∀ form ∈ MemberForm.all, ∀ x ∈ placesFrom [] (bodyGlyphs body),
    x.isCounting form.head (standsInBody body) = true → beginApart x.front = true
  /-- No comment stands between the parameters of a member and the brace or arrow behind them. -/
  tails : ∀ form ∈ MemberForm.all, ∀ x ∈ placesFrom [] (bodyGlyphs body), ∀ m ∈ x.match? form.head,
    (ClassBody.alone body).isMember m = true → ∀ rest ∈ afterParameters body m,
      reachesComment form.tail rest = false

instance (body : List Char) : Decidable (MembersApart body) :=
  decidable_of_iff (_ ∧ _ ∧ _)
    ⟨fun ⟨h₁, h₂, h₃⟩ => ⟨h₁, h₂, h₃⟩, fun h => ⟨h.heads, h.begins, h.tails⟩⟩

/-! ### Where names stand -/

section Names

variable {p : Pattern} {gs : List Glyph} {x : TextPlace} {m : Match} {name : Span}

/-- The name in a match of the blanked text stands at a place outside comments. -/
theorem exists_place_of_blankedName (hp : p.namesVisibly = true) (hx : x ∈ placesFrom [] gs)
    (hm : x.blankedMatch? p = some m) (hname : m.capture? .name = some name) :
    ∃ y ∈ placesFrom [] gs, y.glyph.inComment = false ∧ y.offset = name.start := by
  obtain ⟨-, hmatch⟩ := inComment_of_blankedMatch? hm
  obtain ⟨v, d, w, hrest, hd, hstart, -⟩ := name_visible hp hmatch hname
  change blanked x.ahead = v ++ d :: w at hrest
  change name.start = byteLength (written x.front) + byteLength v at hstart
  obtain ⟨c, hc, hoff⟩ := exists_mem_visible (u := blanked x.front ++ v) (v := w) hd none 0
  have htext : blanked gs = (blanked x.front ++ v) ++ d :: w := by
    rw [(whole_of_mem hx).1, TextPlace.whole, blanked_append, hrest, List.append_assoc]
  have hthere := there_placesFrom [] gs
  change _ = visible none 0 (blanked gs) at hthere
  rw [← htext, ← hthere] at hc
  obtain ⟨y, hy, hyc⟩ := List.mem_filterMap.mp hc
  rw [TextPlace.there] at hyc
  split_ifs at hyc with hg
  obtain rfl := Option.some.inj hyc
  refine ⟨y, hy, by simpa using hg, ?_⟩
  change y.offset = 0 + _ at hoff
  rw [hoff, Nat.zero_add, byteLength_append, byteLength_blanked, hstart]

end Names

/-! ### One head in both bodies -/

section OneHead

variable {body : List Char} {form : MemberForm} {x : TextPlace} {m m' : Match}

theorem shade_split {u v : List Glyph} {g : Glyph} (hsplit : bodyGlyphs body = u ++ g :: v) :
    shade ('{' :: body) = (⟨'{', false⟩ :: u) ++ g :: v := by
  rw [shade_body, hsplit, List.cons_append]

theorem inBody_blanked {y : TextPlace} (hy : y ∈ placesFrom [] (bodyGlyphs body))
    (hg : y.glyph.inComment = false) : inBody (blankedBody body) y.offset = inBody body y.offset := by
  have hcode := isCode_blanked (shade_split (whole_of_mem hy).1) hg
  have hdepth := depthAt_blanked ('{' :: body)
  rw [blanked_shade_body] at hcode hdepth
  change (CodeMap.ofText _).isCode (1 + y.offset) = (CodeMap.ofText _).isCode (1 + y.offset) at hcode
  rw [inBody, inBody, hcode, hdepth, hdepth]

theorem parens_blanked (body : List Char) :
    (ClassBody.alone (blankedBody body)).parens = (ClassBody.alone body).parens := by
  rw [ClassBody.parens_eq, ClassBody.parens_eq, ClassBody.text_alone, ClassBody.text_alone]
  have hparens :=
    parenDepths_blanked (u := [⟨'{', false⟩]) (v := bodyGlyphs body) (shade_body body) 0
  rwa [blanked_shade_body, written_bodyGlyphs] at hparens

/-- A head begins at its first visible character. -/
theorem headStart_eq {u b v : List Char} {d : Char} (hb : ∀ c ∈ b, isBlank c = true)
    (hd : isBlank d = false) (hstart : m.span.start = byteLength u)
    (hstop : byteLength (u ++ b) + d.utf8Size ≤ m.span.stop) :
    headStart (u ++ (b ++ d :: v)) m = byteLength (u ++ b) := by
  obtain ⟨n, hn⟩ : ∃ n, m.span.stop = byteLength u + (byteLength b + (d.utf8Size + n)) := by
    rw [byteLength_append] at hstop
    exact ⟨m.span.stop - (byteLength u + byteLength b + d.utf8Size), by omega⟩
  have htake : takeBytes (d.utf8Size + n) (d :: v) = d :: takeBytes n v := by
    rw [takeBytes, if_pos (Nat.le_add_right _ _), Nat.add_sub_cancel_left]
  rw [headStart, hstart, hn, slice_append, takeBytes_append_add, htake,
    List.takeWhile_append_of_pos hb, List.takeWhile_cons_of_neg (by simp [hd]), List.append_nil,
    byteLength_append]

/-- A head and the head without its blanks stand for the same. -/
theorem name?_of_trimsTo (h : TrimsTo body m m') : form.name? body m = form.name? body m' := by
  obtain ⟨u, b, d, v, rfl, hstart, hb, hd, hstop, rfl⟩ := h
  have hhead := headStart_eq (v := v) hb hd hstart hstop
  have hhead' := headStart_eq (u := u ++ b) (b := []) (v := v)
    (m := ⟨⟨byteLength (u ++ b), m.span.stop⟩, m.captures⟩) (by simp) hd rfl (by simpa using hstop)
  rw [List.nil_append, List.append_nil, List.append_assoc] at hhead'
  rw [MemberForm.name?, MemberForm.name?, ClassBody.memberName?_eq, ClassBody.memberName?_eq,
    ClassBody.isMember_alone, ClassBody.isMember_alone, hhead, hhead']
  rfl

theorem isHead_of_form {u v : List Char} (h : form.head.matchAt? (.between u v) = some m) :
    ∃ w y, IsHead (u ++ v) m w y := by
  cases form with
  | method =>
    obtain ⟨w, y, -, hhead⟩ := isHead_of_matchAt? [_, _, _, _, _, _, _] h
    exact ⟨_, _, hhead⟩
  | field =>
    obtain ⟨w, y, -, hhead⟩ := isHead_of_matchAt? [_, _, _, _, _, _] h
    exact ⟨_, _, hhead⟩

theorem nullable_head (form : MemberForm) : form.head.nullable = false := by
  cases form <;> rfl

/-- A head found in front of a visible character begins there, and a parenthesis ends it. -/
theorem head_at {u v : List Char} {d : Char} (hd : isBlank d = false)
    (h : form.head.matchAt? (.between u (d :: v)) = some m) :
    headStart (u ++ d :: v) m = byteLength u ∧ ∃ w y, IsHead (u ++ d :: v) m w y := by
  have hat := h
  rw [Cursor.between_eq] at hat
  have hstop : byteLength (u ++ []) + d.utf8Size ≤ m.span.stop := by
    rw [List.append_nil]
    exact next_le_of_matchAt? (nullable_head form) hat
  have hstart := headStart_eq (b := []) (v := v) (by simp) hd (span_start_of_matchAt? hat) hstop
  rw [List.nil_append, List.append_nil] at hstart
  exact ⟨hstart, isHead_of_form h⟩

theorem head_at_place (hx : x ∈ placesFrom [] (bodyGlyphs body))
    (hm : x.match? form.head = some m) :
    headStart body m = x.offset ∧ ∃ u v, IsHead body m u v := by
  obtain ⟨hwhole, hblank⟩ := whole_of_mem hx
  have htext : written x.front ++ x.glyph.char :: written x.back = body := by
    rw [← written_cons, ← written_append, ← written_bodyGlyphs body, hwhole]
    rfl
  change form.head.matchAt? ⟨_, _, x.glyph.char :: written x.back⟩ = some m at hm
  rw [TextPlace.offset, ← Cursor.between_eq] at hm
  rw [← htext]
  exact head_at hblank hm

theorem head_at_blankedPlace (hx : x ∈ placesFrom [] (bodyGlyphs body))
    (hm : x.blankedMatch? form.head = some m) :
    headStart (blankedBody body) m = x.offset ∧ ∃ u v, IsHead (blankedBody body) m u v := by
  obtain ⟨hwhole, hblank⟩ := whole_of_mem hx
  obtain ⟨hg, hmatch⟩ := inComment_of_blankedMatch? hm
  have hahead : blanked x.ahead = x.glyph.char :: blanked x.back := by
    rw [TextPlace.ahead, blanked_cons, Glyph.blanked_of_code hg]
    rfl
  rw [hahead, TextPlace.offset, ← byteLength_blanked, ← Cursor.between_eq] at hmatch
  have htext : blanked x.front ++ x.glyph.char :: blanked x.back = blankedBody body := by
    rw [← hahead, ← blanked_append, blankedBody, hwhole]
    rfl
  have hhead := head_at hblank hmatch
  rwa [htext, byteLength_blanked] at hhead

theorem standsInBody_blanked (hx : x ∈ placesFrom [] (bodyGlyphs body))
    (hm : x.blankedMatch? form.head = some m) :
    standsInBody (blankedBody body) m = standsInBody body m := by
  rw [standsInBody, standsInBody]
  rcases hcap : m.capture? .name with - | name
  · rfl
  · obtain ⟨y, hy, hg, hoff⟩ := exists_place_of_blankedName form.namesVisibly hx hm hcap
    rw [Option.any_some, Option.any_some, ← hoff]
    exact inBody_blanked hy hg

/-- A member can begin at a place that counts in both bodies or in neither. -/
theorem begins_blanked (hx : x ∈ placesFrom [] (bodyGlyphs body)) (hg : x.glyph.inComment = false)
    (h : beginApart x.front = true) :
    canBeginMember (takeBytes x.offset (blankedBody body))
      = canBeginMember (takeBytes x.offset body) := by
  obtain ⟨hwhole, hblank⟩ := whole_of_mem hx
  change bodyGlyphs body = x.front ++ x.glyph :: x.back at hwhole
  have hchain : (⟨'{', false⟩ :: (x.front ++ [x.glyph])).IsChain Joins := by
    have hall := isChain_shade ('{' :: body)
    have hsplit : (⟨'{', false⟩ : Glyph) :: (x.front ++ x.glyph :: x.back)
        = (⟨'{', false⟩ :: (x.front ++ [x.glyph])) ++ x.back := by simp
    rw [shade_body, hwhole, hsplit] at hall
    exact hall.left_of_append
  have hhere : takeBytes x.offset body = written x.front := by
    rw [← written_bodyGlyphs body, hwhole, written_append, TextPlace.offset, takeBytes_append]
  have hthere : takeBytes x.offset (blankedBody body) = blanked x.front := by
    rw [blankedBody, hwhole, blanked_append, TextPlace.offset, ← byteLength_blanked,
      takeBytes_append]
  rw [hhere, hthere]
  exact canBeginMember_blanked hchain hg hblank h

/-- **A head that is the same in both bodies stands for the same member.** -/
theorem name?_blanked (h : MembersApart body) (hx : x ∈ placesFrom [] (bodyGlyphs body))
    (hm : x.match? form.head = some m) (hm' : x.blankedMatch? form.head = some m)
    (htext : m.text .name body = m.text .name (blankedBody body)) :
    form.name? body m = form.name? (blankedBody body) m := by
  obtain ⟨hstart, u, v, hhead⟩ := head_at_place hx hm
  obtain ⟨hstart', u', v', hhead'⟩ := head_at_blankedPlace hx hm'
  have hstands := standsInBody_blanked hx hm'
  -- what precedes the head matters only where the name stands in the body
  have hmember : (ClassBody.alone (blankedBody body)).isMember m
      = (ClassBody.alone body).isMember m := by
    rw [ClassBody.isMember_alone, ClassBody.isMember_alone, hstands, hstart, hstart', htext,
      parens_blanked]
    by_cases hs : standsInBody body m = true
    · rw [begins_blanked hx (inComment_of_blankedMatch? hm').1 (h.begins form form.mem_all x hx
        (List.any_eq_true.mpr ⟨m, match?_mem_found hm, hs⟩))]
    · rw [Bool.eq_false_iff.mpr hs, Bool.and_false]
      rfl
  have hexcludes : form.excludes (blankedBody body) m = form.excludes body m := by
    cases form with
    | method =>
      show (m.has .accessor || _) = (m.has .accessor || _)
      rw [htext]
    | field => rfl
  -- no comment stands between the parameters and what has to follow them
  have hrest : ∀ rest ∈ afterParameters body m, (ClassBody.alone body).isMember m = true →
      form.tail.leads (blanked rest) = form.tail.leads (written rest) := by
    intro rest hrest hmem
    exact leads_blanked form.lands_tail (opensWithSlash_afterParameters hhead hrest)
      (h.tails form form.mem_all x hx m hm hmem rest hrest)
  rw [MemberForm.name?, MemberForm.name?, hexcludes, ClassBody.memberName?_eq,
    ClassBody.memberName?_eq, hmember, rest_eq hhead, rest_blanked hhead hhead' rfl, htext]
  by_cases hmem : (ClassBody.alone body).isMember m = true
  · rcases hafter : afterParameters body m with - | rest
    · rfl
    · simp only [Option.map_some, Option.bind_some, hrest rest hafter hmem]
  · rw [if_neg hmem, if_neg hmem]

end OneHead

/-! ### All methods of both bodies -/

section AllMethods

variable {body : List Char}

/-- The two searches for the heads of a form. -/
theorem searches_heads (h : MembersApart body) (form : MemberForm) :
    Searches form.head (standsInBody body) (fun _ => false) (form.name? body)
      (form.name? (blankedBody body)) (placesFrom [] (bodyGlyphs body)) where
  ascend := pairwise_placesFrom _ _
  nothing x hx := by
    constructor
    · exact fun m _ hnot => MemberForm.name?_of_outside hnot
    · exact fun m hm hnot => MemberForm.name?_of_outside ((standsInBody_blanked hx hm).trans hnot)
  near x hx hnear := by
    obtain ⟨hwhole, hblank⟩ := whole_of_mem hx
    have hchain := isChain_bodyGlyphs body
    rw [hwhole] at hchain
    obtain ⟨hsame, htexts⟩ := TextPlace.same_match form.lands_head hchain hblank hnear
    rw [← hwhole, written_bodyGlyphs] at htexts
    exact ⟨hsame, fun m hm => name?_blanked h hx hm (hsame.trans hm) (htexts m hm .name)⟩
  allowed _ _ hallow := by cases hallow

/-- The names of the members of a form, in a body. -/
def MemberForm.names (form : MemberForm) (body : List Char) : List (Nat × String) :=
  (form.head.findAll body).flatMap (form.name? body)

/-- The names are found at visible places. -/
theorem names_eq_searchAt (form : MemberForm) (body : List Char) :
    form.names body = (form.head.searchAt 0 (visible none 0 body)).flatMap (form.name? body) := by
  cases form with
  | method =>
    -- a method's head may begin with blanks, so the places of the two searches differ by them
    have hrel := List.rel_flatMap (forall₂_methodHead body)
      (fun m m' hm => List.forall₂_eq_eq_eq ▸ @name?_of_trimsTo body .method m m' hm)
    rwa [List.forall₂_eq_eq_eq] at hrel
  | field =>
    rw [MemberForm.names]
    exact congrArg (List.flatMap _)
      (findAll_eq_searchAt (nullable_head .field) (fun _ hc => fieldHead_starts hc) body)

theorem names_blanked (h : MembersApart body) (form : MemberForm) :
    form.names (blankedBody body) = form.names body := by
  have hsearch := search_blanked (searches_heads h form) (h.heads form form.mem_all)
  rw [written_bodyGlyphs] at hsearch
  rw [names_eq_searchAt, names_eq_searchAt, hsearch]
  rfl

theorem plainNames_eq (body : List Char) :
    (ClassBody.alone body).plainMethods.map (fun x => (x.1, x.2.name))
      = MemberForm.method.names body := by
  rw [ClassBody.plainMethods, ClassBody.text_alone, List.map_filterMap,
    List.filterMap_eq_flatMap_toList]
  refine List.flatMap_congr fun m _ => ?_
  rw [MemberForm.name?]
  show (Option.map _ (if MemberForm.method.excludes body m then none else _)).toList = _
  split_ifs <;> rfl

theorem fieldNames_eq (body : List Char) :
    (ClassBody.alone body).fieldMethods.map (fun x => (x.1, x.2.name))
      = MemberForm.field.names body := by
  rw [ClassBody.fieldMethods, ClassBody.text_alone, List.map_filterMap,
    List.filterMap_eq_flatMap_toList]
  rfl

/-- The names of the methods of a body, from those of the two forms. -/
theorem methodNames_eq (body : List Char) :
    (ClassBody.alone body).methods.map (fun method => method.name)
      = ((MemberForm.method.names body ++ MemberForm.field.names body).mergeSort
          (fun x y => decide (x.1 ≤ y.1))).map Prod.snd := by
  rw [← plainNames_eq, ← fieldNames_eq, ← List.map_append,
    ← List.map_mergeSort (r := fun x y => decide (x.1 ≤ y.1)), ClassBody.methods, List.map_map,
    List.map_map]
  · rfl
  · intro x _ y _
    rfl

/-- **The methods of a body have the same names with its comments blanked.** -/
theorem methodNames_blanked (h : MembersApart body) :
    (ClassBody.alone (blankedBody body)).methods.map (fun method => method.name)
      = (ClassBody.alone body).methods.map (fun method => method.name) := by
  rw [methodNames_eq, methodNames_eq, names_blanked h, names_blanked h]

end AllMethods

end Scaffold

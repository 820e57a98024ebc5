/-
Scaffold/Proofs/Comments/Declarations.lean

The declarations of a text and of the text with its comments blanked.

`DeclarationsApart` says where comments may stand for the recognizers.  In a
function they may stand in the parameter list, in an export list they have entries
of their own, and in the other declarations they stand nowhere; what looks like a
declaration in a comment ends before the next declaration; and a comment in front
of a `function` keyword ends in an operator if and only if the code in front of the
comment does.  Then the recognizers find the same (`findings_blanked`).
-/
import Scaffold.Extraction
import Scaffold.Proofs.Comments.Entries
import Scaffold.Proofs.Comments.Search

namespace Scaffold

open Text Pattern

/-! ### Where comments may stand -/

/-- Whether a match begins in code, outside all braces. -/
def declares (cs : List Char) (m : Match) : Bool := (CodeMap.ofText cs).isTopLevel m.span.start

/-- The visible places of a text. -/
def textPlaces (cs : List Char) : List TextPlace := placesFrom [] (shade cs)

def TextPlace.isDeclaring (cs : List Char) (p : Pattern) (x : TextPlace) : Bool :=
  x.isCounting p (declares cs)

/-- The declarations in which no comment may stand. -/
def solidDeclarations : List Pattern :=
  [boundArrow, classDeclaration, exportedDeclaration, exportedName]

/-- Whether comments in the export list at a place have entries of their own. -/
def TextPlace.holdsEntries (x : TextPlace) : Bool :=
  x.holdsList exportedList .braces
    && (x.found exportedList).all
      (fun m => entriesApart (dropGlyphs (m.opening .entries - x.offset) x.ahead))

/-- Whether a character in front of `function` makes it begin an expression. -/
def isExpressionMark (c : Char) : Bool := expressionMarks.contains c

/-- Whether a comment that a text ends in ends in an operator if and only if the code in front of
the comment does. -/
def leadApart (front : List Glyph) : Bool :=
  (lastVisible front).all (fun g => !g.inComment
    || isExpressionMark g.char == (lastCode front).any (fun d => isExpressionMark d.char))

/-- Where comments may stand for the recognizers. -/
structure DeclarationsApart (cs : List Char) : Prop where
  solid : ∀ p ∈ solidDeclarations, apart p (declares cs) (fun _ => false) (textPlaces cs) = true
  /-- In a function, comments stand in its parameter list. -/
  functions : ∀ p ∈ [functionDeclaration, boundFunction],
    apart p (declares cs) (fun x => x.holdsList p .parens) (textPlaces cs) = true
  /-- In an export list, comments have entries of their own. -/
  lists : apart exportedList (declares cs) TextPlace.holdsEntries (textPlaces cs) = true
  /-- No comment decides whether a `function` keyword begins an expression. -/
  leads : ∀ x ∈ textPlaces cs, x.isDeclaring cs functionDeclaration = true →
    leadApart x.front = true

instance (cs : List Char) : Decidable (DeclarationsApart cs) :=
  decidable_of_iff (_ ∧ _ ∧ _ ∧ _)
    ⟨fun ⟨h₁, h₂, h₃, h₄⟩ => ⟨h₁, h₂, h₃, h₄⟩,
      fun h => ⟨h.solid, h.functions, h.lists, h.leads⟩⟩

/-! ### What a recognizer reads in a match -/

/-- A finding without its parameters. -/
def Found.bare : Found → Found
  | .function f => .function { f with parameters := [] }
  | .classNamed name offset => .classNamed name offset
  | .exporting e => .exporting e

/-- Matches of two texts stand for the same declaration, parameters apart. -/
structure SameReading (r : Recognizer) (cs bs : List Char) (m m' : Match) : Prop where
  start : m.span.start = m'.span.start
  name : m.text .name cs = m'.text .name bs
  marks : ∀ slot ∈ [Slot.asyncMark, .defaultMark, .typeMark], m.has slot = m'.has slot
  exports : r = .exportedList →
    listedExports m.span.start (m.text .entries cs)
      = listedExports m.span.start (m'.text .entries bs)

/-- Both texts have a match at a place, and the two stand for the same declaration, or neither
has. -/
def TextPlace.SameReadings (r : Recognizer) (cs : List Char) (p : Pattern) (x : TextPlace) : Prop :=
  ((x.match? p).isSome ↔ (x.blankedMatch? p).isSome)
    ∧ ∀ m m', x.match? p = some m → x.blankedMatch? p = some m' →
      SameReading r cs (blanked (shade cs)) m m'

section Readings

variable {r : Recognizer} {cs bs : List Char} {m m' : Match}

theorem SameReading.of_texts (h : ∀ slot, m.text slot cs = m.text slot bs) :
    SameReading r cs bs m m :=
  ⟨rfl, h .name, fun _ _ => rfl, fun _ => by rw [h]⟩

/-- The reading of a match, but for the look at what precedes a function. -/
theorem SameReading.read_bare (h : SameReading r cs bs m m')
    (hlead : r = .functionKeyword → inExpression cs m.span.start = inExpression bs m.span.start) :
    (r.read cs m).map Found.bare = (r.read bs m').map Found.bare := by
  have hfunction : (Found.function (Recognizer.functionOf cs m)).bare
      = (Found.function (Recognizer.functionOf bs m')).bare := by
    show Found.function ⟨String.ofList (m.text .name cs), [], m.has .asyncMark, m.span.start⟩
      = .function ⟨String.ofList (m'.text .name bs), [], m'.has .asyncMark, m'.span.start⟩
    rw [h.name, h.marks .asyncMark (by simp), h.start]
  cases r with
  | functionKeyword =>
    rw [Recognizer.read, Recognizer.read, hlead rfl, ← h.start]
    split_ifs
    · -- an expression in both texts
      rfl
    · exact congrArg (fun f => [f]) hfunction
  | boundFunction => exact congrArg (fun f => [f]) hfunction
  | classKeyword => rw [Recognizer.read, Recognizer.read, h.name, h.start]
  | exportedDeclaration =>
    rw [Recognizer.read, Recognizer.read, h.name, h.start, h.marks .defaultMark (by simp)]
  | exportedName => rw [Recognizer.read, Recognizer.read, h.name, h.start]
  | exportedList =>
    have hlist : ∀ (source : List Char) (m : Match), Recognizer.exportedList.read source m
        = if m.has .typeMark then []
          else (listedExports m.span.start (m.text .entries source)).map Found.exporting := by
      intro source m
      rw [listedExports, List.map_filterMap]
      rfl
    rw [hlist, hlist, h.exports rfl, h.start, h.marks .typeMark (by simp)]

end Readings

/-! ### Matches around a list in brackets -/

section Outside

variable {p : Pattern} {b : Bracket} {cs : List Char} {x : TextPlace} {m m' : Match}

theorem capture?_without {slot : Slot} (h : slot ≠ b.slot) (m : Match) :
    m.capture? slot = ((m.without b.slot).find? (fun c => c.1 == slot)).map (·.2) := by
  rw [Match.capture?, Match.without, List.find?_filter]
  refine congrArg (Option.map _) (congrArg (m.captures.find? ·) (funext fun c => ?_))
  by_cases hc : c.1 = slot
  · simp [hc, h]
  · simp [hc]

/-- Where comments stand in a list in brackets, both texts have a match or neither has; the list is
at one place in both, and what is captured outside it is the same. -/
theorem same_outside_list (hp : p.EndsIn b) (hclosing : isBlank b.closing = false)
    (hx : x ∈ textPlaces cs) (hlist : x.holdsList p b = true) :
    ((x.match? p).isSome ↔ (x.blankedMatch? p).isSome)
      ∧ ∀ m m', x.match? p = some m → x.blankedMatch? p = some m' →
        m.opening b.slot = m'.opening b.slot
          ∧ ∀ slot ≠ b.slot, m.has slot = m'.has slot
            ∧ m.text slot cs = m'.text slot (blanked (shade cs)) := by
  obtain ⟨hwhole, hblank⟩ := whole_of_mem hx
  have hchain := isChain_shade cs
  rw [hwhole] at hchain
  obtain ⟨hsame, hslices⟩ := TextPlace.same_outside hp hclosing hchain hblank hlist
  constructor
  · have hsome := congrArg Option.isSome hsame
    rw [Option.isSome_map, Option.isSome_map] at hsome
    rw [hsome]
  intro m m' hm hm'
  rw [hm, hm', Option.map_some, Option.map_some, Option.some.injEq, Prod.mk.injEq] at hsame
  obtain ⟨hopening, hwithout⟩ := hsame
  refine ⟨hopening.symm, fun slot hslot => ?_⟩
  have hcapture : m.capture? slot = m'.capture? slot := by
    rw [capture?_without hslot, capture?_without hslot, hwithout]
  refine ⟨by rw [Match.has, Match.has, hcapture], ?_⟩
  rw [Match.text, Match.text, ← hcapture]
  rcases hcap : m.capture? slot with - | span
  · -- nothing is captured for the slot
    rfl
  · -- what is captured lies in front of the next comment
    rw [capture?_without hslot] at hcap
    obtain ⟨c, hfind, rfl⟩ := Option.map_eq_some_iff.mp hcap
    have hslice := hslices m hm c (List.mem_of_find?_eq_some hfind)
    rwa [← hwhole, written_shade] at hslice

/-- The text of an export list, and what stands in front of it and behind it. -/
theorem entries_of_match {before : Option Char} {front rest : List Char}
    (hm : exportedList.matchAt? ⟨before, byteLength front, rest⟩ = some m) :
    ∃ u v w, rest = u ++ (v ++ '}' :: w) ∧ '}' ∉ v
      ∧ m.opening .entries = byteLength front + byteLength u
      ∧ m.text .entries (front ++ rest) = v := by
  obtain ⟨u, v, w, hrest, hnot, hcap, -⟩ := endsIn_exportedList.parts hm
  change rest = u ++ '{' :: (v ++ '}' :: w) at hrest
  change m.capture? .entries = some ⟨byteLength front + byteLength u + 1,
    byteLength front + byteLength u + 1 + byteLength v⟩ at hcap
  have hlen : byteLength (u ++ ['{']) = byteLength u + 1 := byteLength_append u ['{']
  have hfront : byteLength (front ++ (u ++ ['{'])) = byteLength front + byteLength u + 1 := by
    rw [byteLength_append, hlen, Nat.add_assoc]
  refine ⟨u ++ ['{'], v, w, by rw [hrest]; simp, hnot, ?_, ?_⟩
  · rw [Match.opening, hcap, hlen]
    rfl
  · have htext : front ++ rest = (front ++ (u ++ ['{'])) ++ (v ++ '}' :: w) := by
      rw [hrest]
      simp
    rw [Match.text, hcap, htext, ← hfront]
    exact slice_of_append _ _ _

/-- An export list stands for the same exports in both texts. -/
theorem exports_blanked (hx : x ∈ textPlaces cs) (hentries : x.holdsEntries = true)
    (hm : x.match? exportedList = some m) (hm' : x.blankedMatch? exportedList = some m')
    (hopening : m.opening .entries = m'.opening .entries) (offset : Nat) :
    listedExports offset (m.text .entries cs)
      = listedExports offset (m'.text .entries (blanked (shade cs))) := by
  obtain ⟨hwhole, -⟩ := whole_of_mem hx
  obtain ⟨-, hapart⟩ := Bool.and_eq_true_iff.mp hentries
  have hapart := List.all_eq_true.mp hapart m (match?_mem_found hm)
  obtain ⟨-, hthere⟩ := inComment_of_blankedMatch? hm'
  rw [TextPlace.offset, ← byteLength_blanked] at hthere
  obtain ⟨u, v, w, hrest, hnot, hopen, htext⟩ := entries_of_match hm
  obtain ⟨u', v', w', hrest', hnot', hopen', htext'⟩ := entries_of_match hthere
  rw [byteLength_blanked] at hopen'
  have hlen : byteLength u = byteLength u' := by omega
  obtain ⟨y, z, hyz, rfl, hz, -, hz'⟩ := exists_cut hrest hrest' hlen
  have hdrop : dropGlyphs (m.opening .entries - x.offset) x.ahead = z := by
    rw [hopen, TextPlace.offset, Nat.add_sub_cancel_left, hyz, dropGlyphs_append]
  rw [hdrop] at hapart
  have hboth := listed_blanked hapart hz hnot hz' hnot' offset
  rw [← written_append] at htext
  rw [← blanked_append] at htext'
  rw [← htext, ← htext'] at hboth
  change shade cs = x.front ++ x.ahead at hwhole
  rwa [← hwhole, written_shade] at hboth

end Outside

/-! ### The same declarations -/

section Declarations

variable {cs : List Char} {x : TextPlace} {r : Recognizer} {p : Pattern} {m m' : Match}

/-- A place outside comments is outside all braces in both texts or in neither. -/
theorem isTopLevel_blanked (hx : x ∈ textPlaces cs) (hg : x.glyph.inComment = false) :
    (CodeMap.ofText (blanked (shade cs))).isTopLevel x.offset
      = (CodeMap.ofText cs).isTopLevel x.offset := by
  rw [CodeMap.isTopLevel, CodeMap.isTopLevel, depthAt_blanked, TextPlace.offset,
    isCode_blanked (whole_of_mem hx).1 hg]

theorem declares_blanked (hx : x ∈ textPlaces cs) (hm : x.blankedMatch? p = some m) :
    declares (blanked (shade cs)) m = declares cs m := by
  have hstart := start_of_mem_found (blankedMatch?_mem_found hm)
  rw [declares, declares, hstart, isTopLevel_blanked hx (inComment_of_blankedMatch? hm).1]

/-- The look at what precedes a place that declares is the same in both texts. -/
theorem inExpression_blanked (hx : x ∈ textPlaces cs) (h : leadApart x.front = true) :
    inExpression cs x.offset = inExpression (blanked (shade cs)) x.offset := by
  obtain ⟨hwhole, -⟩ := whole_of_mem hx
  change shade cs = x.front ++ x.ahead at hwhole
  have hhere : inExpression cs x.offset
      = (lastVisible x.front).any (fun g => isExpressionMark g.char) := by
    rw [inExpression, ← written_shade cs, hwhole, written_append, TextPlace.offset,
      takeBytes_append, getLast?_trimEnd_written, Option.any_map]
    rfl
  have hthere : inExpression (blanked (shade cs)) x.offset
      = (lastCode x.front).any (fun g => isExpressionMark g.char) := by
    rw [inExpression, hwhole, blanked_append, TextPlace.offset, ← byteLength_blanked,
      takeBytes_append, getLast?_trimEnd_blanked, Option.any_map]
    rfl
  rw [hhere, hthere]
  by_cases hcode : ∀ g ∈ lastVisible x.front, g.inComment = false
  · rw [lastCode_eq hcode]
  · -- a comment stands in front of the place
    rw [leadApart] at h
    rcases hlast : lastVisible x.front with - | g
    · simp [hlast] at hcode
    · rw [hlast] at h hcode
      have hg : g.inComment = true := by simpa using hcode
      simpa [hg] using h

/-- Every declaration ends in a character, or in a name. -/
theorem lands_of_mem (hp : p ∈ r.patterns) : p.lands = true := by
  have hall : ∀ r ∈ Recognizer.all, ∀ p ∈ r.patterns, p.lands = true := by decide +kernel
  exact hall r (by cases r <;> decide) p hp

/-- What a recognizer makes of a match that begins outside all braces, parameters apart. -/
def Recognizer.made (r : Recognizer) (cs : List Char) (m : Match) : List Found :=
  if declares cs m then (r.read cs m).map Found.bare else []

/-- The same is made of matches at one place that stand for the same declaration. -/
theorem made_blanked (h : DeclarationsApart cs) (hp : p ∈ r.patterns) (hx : x ∈ textPlaces cs)
    (hm : x.match? p = some m) (hm' : x.blankedMatch? p = some m')
    (hsame : SameReading r cs (blanked (shade cs)) m m') :
    r.made cs m = r.made (blanked (shade cs)) m' := by
  have hstart := start_of_mem_found (match?_mem_found hm)
  rw [Recognizer.made, Recognizer.made, declares_blanked hx hm',
    show declares cs m' = declares cs m by rw [declares, declares, hsame.start]]
  split_ifs with htop
  · refine hsame.read_bare fun hr => ?_
    subst hr
    obtain rfl := List.mem_singleton.mp hp
    rw [hstart]
    exact inExpression_blanked hx
      (h.leads x hx (List.any_eq_true.mpr ⟨m, match?_mem_found hm, htop⟩))
  · rfl

/-- The two searches for the declarations of a pattern. -/
theorem searches_declarations (h : DeclarationsApart cs) (hp : p ∈ r.patterns)
    {allows : TextPlace → Bool}
    (hallows : ∀ x ∈ textPlaces cs, allows x = true → x.SameReadings r cs p) :
    Searches p (declares cs) allows (r.made cs) (r.made (blanked (shade cs))) (textPlaces cs) where
  ascend := pairwise_placesFrom _ _
  nothing x hx := by
    constructor
    · exact fun m _ hnot => if_neg (by simp [hnot])
    · exact fun m hm hnot => if_neg (by simp [declares_blanked hx hm, hnot])
  near x hx hnear := by
    obtain ⟨hwhole, hblank⟩ := whole_of_mem hx
    have hchain := isChain_shade cs
    rw [hwhole] at hchain
    obtain ⟨hsame, htexts⟩ := TextPlace.same_match (lands_of_mem hp) hchain hblank hnear
    rw [← hwhole, written_shade] at htexts
    exact ⟨hsame, fun m hm =>
      made_blanked h hp hx hm (hsame.trans hm) (.of_texts (htexts m hm))⟩
  allowed x hx hallow := by
    obtain ⟨hboth, hread⟩ := hallows x hx hallow
    -- a match in one text alone is against `hboth`
    rcases hm : x.match? p with - | m
    · rcases hm' : x.blankedMatch? p with - | m'
      · rfl
      · rw [hm, hm'] at hboth
        simp at hboth
    · rcases hm' : x.blankedMatch? p with - | m'
      · rw [hm, hm'] at hboth
        simp at hboth
      · simpa using made_blanked h hp hx hm hm' (hread m m' hm hm')

/-- What is made of the declarations of a pattern is the same in both texts. -/
theorem findAll_blanked (h : DeclarationsApart cs) (hp : p ∈ r.patterns)
    {allows : TextPlace → Bool} (hapart : apart p (declares cs) allows (textPlaces cs) = true)
    (hallows : ∀ x ∈ textPlaces cs, allows x = true → x.SameReadings r cs p) :
    (p.findAll cs).flatMap (r.made cs)
      = (p.findAll (blanked (shade cs))).flatMap (r.made (blanked (shade cs))) := by
  have hall : p ∈ Recognizer.all.flatMap Recognizer.patterns :=
    List.mem_flatMap.mpr ⟨r, by cases r <;> decide, hp⟩
  obtain ⟨hnull, hstarts⟩ := declaration_starts hall
  have hsearch := search_blanked (searches_declarations h hp hallows) hapart
  rw [written_shade] at hsearch
  rwa [findAll_eq_searchAt hnull hstarts, findAll_eq_searchAt hnull hstarts]

theorem solid_blanked (h : DeclarationsApart cs) (hp : p ∈ r.patterns)
    (hsolid : p ∈ solidDeclarations) :
    (p.findAll cs).flatMap (r.made cs)
      = (p.findAll (blanked (shade cs))).flatMap (r.made (blanked (shade cs))) :=
  findAll_blanked h hp (h.solid p hsolid) fun _ _ hallow => by cases hallow

theorem function_blanked (h : DeclarationsApart cs) (hp : p ∈ r.patterns)
    (hfunction : p ∈ [functionDeclaration, boundFunction]) (hr : r ≠ .exportedList) :
    (p.findAll cs).flatMap (r.made cs)
      = (p.findAll (blanked (shade cs))).flatMap (r.made (blanked (shade cs))) := by
  have hends : p.EndsIn .parens := by
    rcases List.mem_cons.mp hfunction with rfl | hfunction
    · exact endsIn_functionDeclaration
    · obtain rfl := List.mem_singleton.mp hfunction
      exact endsIn_boundFunction
  refine findAll_blanked h hp (h.functions p hfunction) fun x hx hlist => ?_
  obtain ⟨hboth, hsame⟩ := same_outside_list hends (by decide) hx hlist
  refine ⟨hboth, fun m m' hm hm' => ?_⟩
  obtain ⟨-, houtside⟩ := hsame m m' hm hm'
  exact {
    start := (start_of_mem_found (match?_mem_found hm)).trans
      (start_of_mem_found (blankedMatch?_mem_found hm')).symm
    name := (houtside .name (by decide)).2
    marks := fun slot hslot => (houtside slot (by rintro rfl; simp [Bracket.parens] at hslot)).1
    exports := fun hlist => absurd hlist hr }

theorem exportedList_blanked (h : DeclarationsApart cs) :
    (exportedList.findAll cs).flatMap (Recognizer.exportedList.made cs)
      = (exportedList.findAll (blanked (shade cs))).flatMap
          (Recognizer.exportedList.made (blanked (shade cs))) := by
  refine findAll_blanked h List.mem_cons_self h.lists fun x hx hentries => ?_
  have hlist := (Bool.and_eq_true_iff.mp hentries).1
  obtain ⟨hboth, hsame⟩ := same_outside_list endsIn_exportedList (by decide) hx hlist
  refine ⟨hboth, fun m m' hm hm' => ?_⟩
  obtain ⟨hopening, houtside⟩ := hsame m m' hm hm'
  exact {
    start := (start_of_mem_found (match?_mem_found hm)).trans
      (start_of_mem_found (blankedMatch?_mem_found hm')).symm
    name := (houtside .name (by decide)).2
    marks := fun slot hslot => (houtside slot (by rintro rfl; simp [Bracket.braces] at hslot)).1
    exports := fun _ => exports_blanked hx hentries hm hm' hopening _ }

theorem find_blanked (h : DeclarationsApart cs) (r : Recognizer) :
    (r.find cs (.ofText cs)).map Found.bare
      = (r.find (blanked (shade cs)) (.ofText (blanked (shade cs)))).map Found.bare := by
  have hfind : ∀ source : List Char, (r.find source (.ofText source)).map Found.bare
      = r.patterns.flatMap fun p => (p.findAll source).flatMap (r.made source) := by
    intro source
    rw [Recognizer.find, List.flatMap_assoc, List.map_flatMap]
    refine congrArg (fun g => r.patterns.flatMap g) (funext fun p => ?_)
    rw [List.map_flatMap]
    refine congrArg (fun g => (p.findAll source).flatMap g) (funext fun m => ?_)
    rw [Recognizer.made, declares]
    split_ifs <;> rfl
  rw [hfind, hfind]
  refine List.flatMap_congr fun p hp => ?_
  cases r with
  | functionKeyword =>
    obtain rfl := List.mem_singleton.mp hp
    exact function_blanked h hp List.mem_cons_self (by simp)
  | boundFunction =>
    rcases List.mem_cons.mp hp with rfl | hp'
    · exact function_blanked h hp (List.mem_cons_of_mem _ List.mem_cons_self) (by simp)
    · obtain rfl := List.mem_singleton.mp hp'
      exact solid_blanked h hp List.mem_cons_self
  | classKeyword =>
    obtain rfl := List.mem_singleton.mp hp
    exact solid_blanked h hp (List.mem_of_getElem (show solidDeclarations[1] = _ from rfl))
  | exportedDeclaration =>
    obtain rfl := List.mem_singleton.mp hp
    exact solid_blanked h hp (List.mem_of_getElem (show solidDeclarations[2] = _ from rfl))
  | exportedName =>
    obtain rfl := List.mem_singleton.mp hp
    exact solid_blanked h hp (List.mem_of_getElem (show solidDeclarations[3] = _ from rfl))
  | exportedList =>
    obtain rfl := List.mem_singleton.mp hp
    exact exportedList_blanked h

/-- **The recognizers find the same**, parameters apart. -/
theorem findings_blanked (h : DeclarationsApart cs) :
    (findings Recognizer.all cs (.ofText cs)).map Found.bare
      = (findings Recognizer.all (blanked (shade cs))
          (.ofText (blanked (shade cs)))).map Found.bare := by
  rw [findings, findings, List.map_flatMap, List.map_flatMap]
  exact List.flatMap_congr fun r _ => find_blanked h r

end Declarations

end Scaffold

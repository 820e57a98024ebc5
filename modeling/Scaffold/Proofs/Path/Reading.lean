/-
Scaffold/Proofs/Path/Reading.lean

How a path is read that is cut or put together as it is written.

The operations that keep the writing of a path work on its text.  Here is what
they do to its parts:

* `parts_parent` — a path that ends in a name is read as its parent and that
  name;
* `normalize_dropExtension` — without its extension it is read as its parent and
  the stem of that name;
* `normalParts_join` — a path behind another is read after it, but for the dots
  it is written with.

Design.  Only the pieces between slashes are read, and the first of them in a
way of its own (`partsOf`); pieces at the end that are idle are not read at
all.
-/
import Mathlib.Data.List.TakeWhile
import Scaffold.Proofs.Path.Destination

namespace Scaffold

open Text

namespace Path

/-! ### Pieces and parts -/

/-- What pieces between slashes are read as. -/
def partsOf (first : List Char) (rest : List (List Char)) : List Part :=
  (if first = [] then (if rest = [] then [] else [.root])
    else if first = ['.'] then [.here] else (Part.ofPiece? first).toList)
  ++ rest.filterMap Part.ofPiece?

/-- Pieces with slashes between them are the text they were cut from. -/
theorem slashed_pieces (cs : List Char) : slashed (pieces cs) = cs := by
  induction cs with
  | nil => rfl
  | cons c cs ih =>
    by_cases hc : c = '/'
    · -- a slash begins a piece
      subst hc
      rw [pieces_slash_cons, slashed_cons (pieces_ne_nil cs), ih, List.nil_append]
    · -- any other character belongs to the first
      obtain ⟨s, ss, hs⟩ := List.exists_cons_of_ne_nil (pieces_ne_nil cs)
      rw [hs] at ih
      rw [pieces_cons_of_ne hc hs]
      by_cases hss : ss = []
      · subst hss
        rw [slashed_singleton] at ih ⊢
        rw [ih]
      · rw [slashed_cons hss] at ih ⊢
        rw [← ih, List.cons_append]

/-- A path is absolute when its first piece is empty and not the only one. -/
theorem isAbsolute_of_pieces {p : Path} {first : List Char} {rest : List (List Char)}
    (h : pieces p.chars = first :: rest) : p.isAbsolute = true ↔ first = [] ∧ rest ≠ [] := by
  have htext := slashed_pieces p.chars
  rw [h] at htext
  have hslash : '/' ∉ first := no_slash_of_mem_pieces (by rw [h]; exact List.mem_cons_self)
  rw [isAbsolute, ← htext]
  by_cases hrest : rest = []
  · -- a single piece holds no slash
    rw [hrest, slashed_singleton]
    refine iff_of_false ?_ fun hne => hne.2 rfl
    intro hhead
    exact hslash (List.mem_of_mem_head? (beq_iff_eq.mp hhead))
  · rw [slashed_cons hrest]
    cases first with
    | nil => exact iff_of_true rfl ⟨rfl, hrest⟩
    | cons c first =>
      refine iff_of_false ?_ fun hne => List.cons_ne_nil _ _ hne.1
      intro hhead
      obtain rfl : c = '/' := by simpa using hhead
      exact hslash List.mem_cons_self

/-- **A path is read by its pieces.** -/
theorem parts_of_pieces {cs first : List Char} {rest : List (List Char)}
    (h : pieces cs = first :: rest) : (⟨cs⟩ : Path).parts = partsOf first rest := by
  have habs := isAbsolute_of_pieces (p := ⟨cs⟩) h
  rw [parts, h, partsOf]
  refine congrArg (· ++ _) ?_
  by_cases hfirst : first = []
  · subst hfirst
    by_cases hrest : rest = []
    · have : (⟨cs⟩ : Path).isAbsolute = false := Bool.eq_false_iff.mpr fun h => (habs.mp h).2 hrest
      simp [this, hrest, Part.ofPiece?]
    · simp [habs.mpr ⟨rfl, hrest⟩, hrest]
  · have : (⟨cs⟩ : Path).isAbsolute = false := Bool.eq_false_iff.mpr fun h => hfirst (habs.mp h).1
    simp [this, hfirst]

theorem filterMap_of_idle {ss : List (List Char)} (h : ∀ s ∈ ss, isIdle s = true) :
    ss.filterMap Part.ofPiece? = [] := by
  rw [List.filterMap_eq_nil_iff]
  intro s hs
  have hidle := h s hs
  rw [isIdle, Bool.or_eq_true, List.isEmpty_iff, beq_iff_eq] at hidle
  exact if_pos hidle

/-- Pieces are those up to the last one that is read, and idle ones. -/
theorem exists_idle_end (ss : List (List Char)) :
    ∃ idle, (∀ s ∈ idle, isIdle s = true)
      ∧ ss = (ss.reverse.dropWhile isIdle).reverse ++ idle := by
  refine ⟨(ss.reverse.takeWhile isIdle).reverse, ?_, ?_⟩
  · intro s hs
    exact List.mem_takeWhile_imp (List.mem_reverse.mp hs)
  · rw [← List.reverse_append, List.takeWhile_append_dropWhile, List.reverse_reverse]

/-- Idle pieces at the end are not read. -/
theorem partsOf_append_idle {first : List Char} {rest idle : List (List Char)}
    (hidle : ∀ s ∈ idle, isIdle s = true) (h : first = [] → rest = [] → idle = []) :
    partsOf first (rest ++ idle) = partsOf first rest := by
  rw [partsOf, partsOf, List.filterMap_append, filterMap_of_idle hidle, List.append_nil]
  by_cases hfirst : first = []
  · have hnil : rest ++ idle = [] ↔ rest = [] := by
      refine ⟨fun h => (List.append_eq_nil_iff.mp h).1, fun hrest => ?_⟩
      rw [hrest, h hfirst hrest, List.nil_append]
    rw [if_pos hfirst, if_pos hfirst, if_congr hnil rfl rfl]
  · rw [if_neg hfirst, if_neg hfirst]

/-! ### The last piece -/

/-- What is written in front of a last piece: nothing, or something that ends in a slash. -/
def Opens (before : List Char) : Prop := before = [] ∨ ∃ cs, before = cs ++ ['/']

/-- A piece behind what is open is read as one part more. -/
theorem parts_append_piece {before s : List Char} (hbefore : Opens before) (hs : IsStep s) :
    (⟨before ++ s⟩ : Path).parts = (⟨before⟩ : Path).parts ++ [partOf s] := by
  have hpiece := ofPiece?_of_isStep hs
  rcases hbefore with rfl | ⟨cs, rfl⟩
  · -- at the beginning of the text
    rw [List.nil_append, parts_of_pieces (pieces_of_no_slash hs.1.2), partsOf, if_neg hs.1.1,
      if_neg hs.2, hpiece]
    rfl
  · -- behind a slash
    obtain ⟨first, rest, hcs⟩ := List.exists_cons_of_ne_nil (pieces_ne_nil cs)
    have hlong : pieces (cs ++ ['/'] ++ s) = first :: (rest ++ [s]) := by
      rw [List.append_assoc, List.singleton_append, pieces_append_slash, hcs,
        pieces_of_no_slash hs.1.2, List.cons_append]
    have hshort : pieces (cs ++ ['/']) = first :: (rest ++ [[]]) := by
      rw [pieces_append_slash, hcs]
      rfl
    rw [parts_of_pieces hlong, parts_of_pieces hshort, partsOf, partsOf, List.filterMap_append,
      List.filterMap_append, List.filterMap_cons, hpiece]
    simp [Part.ofPiece?]

/-- The last piece that is read, with what is written in front of it; what is written behind it is
not read. -/
theorem splitLast_eq_some {p : Path} {before last : List Char}
    (h : p.splitLast = some (before, last)) :
    Opens before ∧ IsSegment last ∧ p.parts = (⟨before ++ last⟩ : Path).parts := by
  obtain ⟨first, rest, hpieces⟩ := List.exists_cons_of_ne_nil (pieces_ne_nil p.chars)
  have hslash : ∀ s ∈ first :: rest, '/' ∉ s := by
    rw [← hpieces]
    exact fun s hs => no_slash_of_mem_pieces hs
  obtain ⟨idle, hidle, hrest⟩ := exists_idle_end rest
  rw [splitLast, hpieces] at h
  rcases hkept : rest.reverse.dropWhile isIdle with - | ⟨t, front⟩
  · -- only the first piece is read
    rw [hkept, List.reverse_nil, List.nil_append] at hrest
    simp only [hkept] at h
    split_ifs at h with hempty
    obtain ⟨rfl, rfl⟩ := Prod.mk.inj (Option.some.inj h)
    have hfirst : first ≠ [] := by simpa using hempty
    have hno := hslash first List.mem_cons_self
    refine ⟨.inl rfl, ⟨hfirst, hno⟩, ?_⟩
    have hread := @partsOf_append_idle first [] idle hidle fun h => absurd h hfirst
    rw [List.nil_append, ← hrest] at hread
    rw [List.nil_append, parts_of_pieces (pieces_of_no_slash hno), ← hread]
    exact parts_of_pieces hpieces
  · rw [hkept, List.reverse_cons] at hrest
    simp only [hkept] at h
    obtain ⟨rfl, rfl⟩ := Prod.mk.inj (Option.some.inj h)
    have hread : isIdle t = false := by
      have := List.head?_dropWhile_not isIdle rest.reverse
      rwa [hkept] at this
    have hkeep : ∀ s ∈ first :: (front.reverse ++ [t]), '/' ∉ s := by
      intro s hs
      refine hslash s ?_
      rw [hrest, ← List.cons_append]
      exact List.mem_append_left _ hs
    have htext : slashed (first :: front.reverse) ++ ['/'] ++ t
        = slashed (first :: (front.reverse ++ [t])) := by
      rw [← List.cons_append, slashed_append (by simp) (by simp), slashed_singleton]
      simp
    refine ⟨.inr ⟨_, rfl⟩, ⟨?_, hkeep t (by simp)⟩, ?_⟩
    · rintro rfl
      cases hread
    · rw [htext, parts_of_pieces (pieces_slashed (by simp) hkeep),
        ← partsOf_append_idle hidle fun _ h => absurd h (by simp), ← hrest]
      exact parts_of_pieces hpieces

/-- Slashes and idle pieces at the end are not read. -/
theorem parts_dropIdleEnd (cs : List Char) :
    (⟨dropIdleEnd cs⟩ : Path).parts = (⟨cs⟩ : Path).parts := by
  obtain ⟨first, rest, hpieces⟩ := List.exists_cons_of_ne_nil (pieces_ne_nil cs)
  have hslash : ∀ s ∈ first :: rest, '/' ∉ s := by
    rw [← hpieces]
    exact fun s hs => no_slash_of_mem_pieces hs
  obtain ⟨idle, hidle, hrest⟩ := exists_idle_end rest
  have htext : dropIdleEnd cs = if ((rest.reverse.dropWhile isIdle).reverse.isEmpty
      && first.isEmpty && !cs.isEmpty) = true then ['/']
      else slashed (first :: (rest.reverse.dropWhile isIdle).reverse) := by
    rw [dropIdleEnd, hpieces]
  generalize (rest.reverse.dropWhile isIdle).reverse = kept at hrest htext
  have hempty : first = [] → rest = [] → cs = [] := by
    rintro rfl rfl
    rw [← slashed_pieces cs, hpieces, slashed_singleton]
  rw [htext, parts_of_pieces hpieces]
  by_cases hroot : kept = [] ∧ first = [] ∧ cs ≠ []
  · obtain ⟨rfl, rfl, hcs⟩ := hroot
    rw [if_pos (by simpa using hcs), partsOf, if_pos rfl, if_neg fun h => hcs (hempty rfl h),
      show rest = idle from hrest, filterMap_of_idle hidle]
    rfl
  · have hkeep : pieces (slashed (first :: kept)) = first :: kept := by
      refine pieces_slashed (by simp) fun s hs => hslash s ?_
      rw [hrest, ← List.cons_append]
      exact List.mem_append_left _ hs
    rw [if_neg (by simpa [and_assoc] using hroot), parts_of_pieces hkeep, hrest]
    refine (partsOf_append_idle hidle fun hfirst hkept => ?_).symm
    -- the text is empty
    have hcs : cs = [] := by
      by_contra hcs
      exact hroot ⟨hkept, hfirst, hcs⟩
    subst hcs
    rw [← (List.cons.inj hpieces).2, hkept] at hrest
    exact hrest.symm

section FileName

variable {p : Path} {name : List Char}

/-- A path that ends in a name, cut in front of it. -/
theorem fileName_eq_some (h : p.fileName = some name) :
    ∃ before, p.splitLast = some (before, name) ∧ Opens before ∧ IsName name
      ∧ p.parts = (⟨before⟩ : Path).parts ++ [.name name] := by
  obtain ⟨⟨before, last⟩, hsplit, hlast⟩ := Option.bind_eq_some_iff.mp h
  simp only at hlast
  split_ifs at hlast with hdots
  obtain rfl := Option.some.inj hlast
  rw [not_or] at hdots
  obtain ⟨hbefore, hsegment, hparts⟩ := splitLast_eq_some hsplit
  have hname : IsName last := ⟨hsegment, hdots⟩
  refine ⟨before, hsplit, hbefore, hname, ?_⟩
  rw [hparts, parts_append_piece hbefore hname.isStep, partOf, if_neg hname.2.2]

/-- **A path that ends in a name is read as its parent and that name.** -/
theorem parts_parent (h : p.fileName = some name) :
    ∃ dir, p.parent = some dir ∧ IsName name ∧ p.parts = dir.parts ++ [.name name] := by
  obtain ⟨before, hsplit, -, hname, hparts⟩ := fileName_eq_some h
  refine ⟨⟨dropIdleEnd before⟩, by rw [parent, hsplit]; rfl, hname, ?_⟩
  rw [parts_dropIdleEnd, hparts]

end FileName

/-! ### Normalised parts -/

theorem normalParts_append (ps qs : List Part) :
    normalParts (ps ++ qs) = (qs.foldl pushPart (normalParts ps).reverse).reverse := by
  rw [normalParts, List.foldl_append, normalParts, List.reverse_reverse]

/-- The last name of a path is that of its normal form. -/
theorem getLast?_normalParts {p : Path} {name : List Char} (h : p.fileName = some name) :
    (normalParts p.parts).getLast? = some (.name name) := by
  obtain ⟨dir, -, -, hparts⟩ := parts_parent h
  rw [hparts, ← List.map_singleton, normalParts_append_names, List.map_singleton,
    List.getLast?_concat]

/-- A dot is not kept. -/
theorem normalParts_here (ps qs : List Part) :
    normalParts (ps ++ .here :: qs) = normalParts (ps ++ qs) := by
  rw [normalParts_append, List.foldl_cons, pushPart, ← normalParts_append]

/-- The root is never taken away, and never comes in. -/
theorem root_mem_normalParts {ps : List Part} : .root ∈ normalParts ps ↔ .root ∈ ps := by
  have hpush : ∀ (stack : List Part) (q : Part),
      .root ∈ pushPart stack q ↔ .root ∈ stack ∨ q = .root := by
    intro stack q
    cases q with
    | here => simp [pushPart]
    | up => rcases stack with - | ⟨_ | _ | _ | _, stack⟩ <;> simp [pushPart]
    | root => simp [pushPart]
    | name n => simp [pushPart]
  have hfold : ∀ stack : List Part,
      .root ∈ ps.foldl pushPart stack ↔ .root ∈ stack ∨ .root ∈ ps := by
    induction ps with
    | nil => simp
    | cons q ps ih =>
      intro stack
      rw [List.foldl_cons, ih, hpush, List.mem_cons, or_assoc, eq_comm (a := q)]
  rw [normalParts, List.mem_reverse, hfold]
  simp

theorem root_mem_parts {p : Path} : .root ∈ p.parts ↔ p.isAbsolute = true := by
  obtain ⟨rest, hparts, hread⟩ := parts_eq p
  have hrest : .root ∉ rest := fun h => hread _ h
  rw [hparts, List.mem_append]
  cases p.isAbsolute <;> simp [hrest]

theorem NormalForm.root_mem_parts {f : NormalForm} : .root ∈ f.parts ↔ f.rooted = true := by
  rw [NormalForm.parts]
  cases f.rooted <;> simp

/-- **The normal form of a path is rooted when the path is absolute.** -/
theorem exists_rooted_normalForm (p : Path) :
    ∃ f : NormalForm, normalParts p.parts = f.parts ∧ f.rooted = p.isAbsolute := by
  obtain ⟨f, hf⟩ := exists_normalForm p
  refine ⟨f, hf, ?_⟩
  rw [Bool.eq_iff_iff, ← f.root_mem_parts, ← hf, root_mem_normalParts, root_mem_parts]

/-! ### One path behind another -/

/-- **A relative text behind what is open is read after it**, but for the dots. -/
theorem normalParts_append_text {before cs : List Char} (hbefore : Opens before)
    (hcs : (⟨cs⟩ : Path).isAbsolute = false) :
    normalParts (⟨before ++ cs⟩ : Path).parts
      = normalParts ((⟨before⟩ : Path).parts ++ (⟨cs⟩ : Path).parts) := by
  rcases hbefore with rfl | ⟨bs, rfl⟩
  · rfl
  · obtain ⟨first, rest, hbs⟩ := List.exists_cons_of_ne_nil (pieces_ne_nil bs)
    obtain ⟨first', rest', hcs'⟩ := List.exists_cons_of_ne_nil (pieces_ne_nil cs)
    have hlong : pieces (bs ++ ['/'] ++ cs) = first :: (rest ++ first' :: rest') := by
      rw [List.append_assoc, List.singleton_append, pieces_append_slash, hbs, hcs',
        List.cons_append]
    have hshort : pieces (bs ++ ['/']) = first :: (rest ++ [[]]) := by
      rw [pieces_append_slash, hbs]
      rfl
    have hempty : first' = [] → rest' = [] := by
      intro hfirst
      by_contra hrest
      rw [(isAbsolute_of_pieces (p := ⟨cs⟩) hcs').mpr ⟨hfirst, hrest⟩] at hcs
      cases hcs
    have hread : partsOf first (rest ++ first' :: rest')
        = partsOf first (rest ++ [[]]) ++ (first' :: rest').filterMap Part.ofPiece? := by
      simp [partsOf, Part.ofPiece?]
    rw [parts_of_pieces hlong, parts_of_pieces hshort, parts_of_pieces hcs', hread]
    by_cases hfirst : first' = []
    · rw [hfirst, hempty hfirst]
      rfl
    · by_cases hdot : first' = ['.']
      · -- a dot is read at the beginning alone, and goes nowhere
        rw [hdot]
        exact (normalParts_here _ _).symm
      · refine congrArg (fun ps => normalParts (partsOf first (rest ++ [[]]) ++ ps)) ?_
        rw [partsOf, if_neg hfirst, if_neg hdot, List.filterMap_cons]
        cases Part.ofPiece? first' <;> rfl

/-- **A relative path behind another is read after it**, but for the dots. -/
theorem normalParts_join (p : Path) {q : Path} (hq : q.isAbsolute = false) :
    normalParts (p.join q).parts = normalParts (p.parts ++ q.parts) := by
  rw [join, hq, if_neg Bool.false_ne_true]
  split_ifs with hend
  · -- there is a slash to join at
    rw [Bool.or_eq_true, List.isEmpty_iff, beq_iff_eq, List.getLast?_eq_some_iff] at hend
    exact normalParts_append_text hend hq
  · -- a slash is put between
    have hne : p.chars ≠ [] := by
      rintro hnil
      simp [hnil] at hend
    have hslash : (⟨p.chars ++ ['/']⟩ : Path).parts = p.parts := by
      obtain ⟨first, rest, hpieces⟩ := List.exists_cons_of_ne_nil (pieces_ne_nil p.chars)
      have hlong : pieces (p.chars ++ ['/']) = first :: (rest ++ [[]]) := by
        rw [pieces_append_slash, hpieces]
        rfl
      rw [parts_of_pieces hlong, partsOf_append_idle (by simp [isIdle]) ?_]
      · exact (parts_of_pieces hpieces).symm
      · rintro rfl rfl
        have htext := slashed_pieces p.chars
        rw [hpieces, slashed_singleton] at htext
        exact absurd htext.symm hne
    have htext := @normalParts_append_text (p.chars ++ ['/']) q.chars (.inr ⟨_, rfl⟩) hq
    rwa [hslash, List.append_assoc, List.singleton_append] at htext

/-- A path with a name behind ends in that name. -/
theorem fileName_join (p : Path) {n : List Char} (hn : IsName n) :
    (p.join ⟨n⟩).fileName = some n := by
  rcases join_name p hn with ⟨-, hjoin⟩ | ⟨cs, -, hjoin⟩
  · rw [hjoin]
    exact fileName_self hn
  · obtain ⟨first, rest, hcs⟩ := List.exists_cons_of_ne_nil (pieces_ne_nil cs)
    have htext : cs ++ '/' :: n = slashed (first :: (rest ++ [n])) := by
      rw [← List.cons_append, ← hcs, slashed_append (pieces_ne_nil cs) (List.cons_ne_nil _ _),
        slashed_pieces, slashed_singleton]
    have hslash : ∀ s ∈ first :: rest, '/' ∉ s := by
      rw [← hcs]
      exact fun s hs => no_slash_of_mem_pieces hs
    rw [hjoin, htext, fileName, splitLast_slashed hslash hn.isStep, Option.bind_some,
      if_neg (not_or.mpr hn.2)]

theorem isAbsolute_of_isSegment {s : List Char} (h : IsSegment s) :
    (⟨s⟩ : Path).isAbsolute = false := by
  rw [Bool.eq_false_iff]
  intro habs
  exact h.2 (List.mem_of_mem_head? (beq_iff_eq.mp habs))

/-! ### Extensions -/

/-- What is left of a name without its extension is not empty. -/
theorem isSegment_nameStem {name : List Char} (h : IsName name) : IsSegment (nameStem name) := by
  rw [nameStem]
  rcases hsplit : splitExtension name with - | ⟨stem, ext⟩
  · exact h.1
  · obtain ⟨hname, -, hstem⟩ := splitExtension_eq_some.mp hsplit
    refine ⟨hstem, fun hslash => h.1.2 ?_⟩
    rw [hname]
    exact List.mem_append_left _ hslash

/-- What a name is replaced by when its extension is dropped: its stem, or `..` where that is a
dot. -/
def IsStemOf (s name : List Char) : Prop :=
  s = nameStem name ∨ nameStem name = ['.'] ∧ s = ['.', '.']

/-- A path without the extension of its name: the text in front of the name, and the stem. -/
theorem dropExtension_eq {p : Path} {name : List Char} (h : p.fileName = some name) :
    ∃ dir before s, p.parent = some dir ∧ Opens before ∧ (⟨before⟩ : Path).parts = dir.parts
      ∧ IsSegment s ∧ IsStemOf s name ∧ p.dropExtension = ⟨before ++ s⟩ := by
  obtain ⟨before, hsplit, hbefore, hname, -⟩ := fileName_eq_some h
  have hparent : p.parent = some ⟨dropIdleEnd before⟩ := by
    rw [parent, hsplit]
    rfl
  have hdrop : p.dropExtension = if nameStem name = ['.'] ∧ p.chars = before ++ name
      then ⟨before ++ ['.', '.']⟩ else ⟨before ++ nameStem name⟩ := by
    rw [dropExtension, hsplit, h]
  by_cases hdot : nameStem name = ['.'] ∧ p.chars = before ++ name
  · -- the stem `.` is written as a step up
    rw [if_pos hdot] at hdrop
    exact ⟨_, before, _, hparent, hbefore, (parts_dropIdleEnd before).symm, by decide,
      .inr ⟨hdot.1, rfl⟩, hdrop⟩
  · -- any other stem is written as it is
    rw [if_neg hdot] at hdrop
    exact ⟨_, before, _, hparent, hbefore, (parts_dropIdleEnd before).symm,
      isSegment_nameStem hname, .inl rfl, hdrop⟩

/-- **Without the extension of its name a path is read as the stem in its parent.** -/
theorem normalize_dropExtension {p : Path} {name : List Char} (h : p.fileName = some name) :
    ∃ dir s, p.parent = some dir ∧ IsSegment s ∧ IsStemOf s name
      ∧ p.dropExtension.normalize = (dir.join ⟨s⟩).normalize := by
  obtain ⟨dir, before, s, hdir, hbefore, hparts, hs, hstem, hdrop⟩ := dropExtension_eq h
  have hrelative := isAbsolute_of_isSegment hs
  refine ⟨dir, s, hdir, hs, hstem, ?_⟩
  rw [normalize_eq_iff, hdrop, normalParts_append_text hbefore hrelative, hparts,
    normalParts_join dir hrelative]

end Path

end Scaffold

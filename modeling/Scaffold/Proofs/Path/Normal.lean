/-
Scaffold/Proofs/Path/Normal.lean

Paths in normal form.

Normalisation reads the parts of a path onto a stack.  Whatever the path, the
stack is always of one shape: names, below them some `..`, below them possibly
the root.  `NormalForm` is that shape, and

* `exists_normalForm` — every path normalises to one;
* `parts_path` — a normal form written as a path is read back as it is;
* `normalParts_append_names` — names only pile up on it.
-/
import Scaffold.Proofs.Path.Segments

namespace Scaffold

open Text

namespace Path

/-! ### The shape -/

/-- The shape of normalised parts: the root or not, some `..`, and names. -/
structure NormalForm where
  rooted : Bool
  ups : Nat
  names : List (List Char)
  isName : ∀ n ∈ names, IsName n

namespace NormalForm

/-- The segments of a normal form. -/
def segments (f : NormalForm) : List (List Char) := List.replicate f.ups ['.', '.'] ++ f.names

/-- The parts of a normal form. -/
def parts (f : NormalForm) : List Part :=
  (if f.rooted then [.root] else []) ++ (List.replicate f.ups .up ++ f.names.map .name)

/-- A normal form as a path. -/
def path (f : NormalForm) : Path := ofSegments f.rooted f.segments

/-- A normal form with more names behind. -/
def below (f : NormalForm) (names : List (List Char)) (h : ∀ n ∈ names, IsName n) : NormalForm where
  rooted := f.rooted
  ups := f.ups
  names := f.names ++ names
  isName := by
    intro n hn
    rcases List.mem_append.mp hn with hn | hn
    · exact f.isName n hn
    · exact h n hn

theorem isStep_segments (f : NormalForm) : ∀ s ∈ f.segments, IsStep s := by
  intro s hs
  rcases List.mem_append.mp hs with hs | hs
  · rw [List.eq_of_mem_replicate hs]
    exact isStep_up
  · exact (f.isName s hs).isStep

theorem isSegment_segments (f : NormalForm) : ∀ s ∈ f.segments, IsSegment s :=
  fun s hs => (f.isStep_segments s hs).1

theorem parts_below (f : NormalForm) (names : List (List Char)) (h : ∀ n ∈ names, IsName n) :
    (f.below names h).parts = f.parts ++ names.map .name := by
  simp only [parts, below, List.map_append, List.append_assoc]
  rfl

theorem mem_names (f : NormalForm) {n : List Char} (h : .name n ∈ f.parts) : n ∈ f.names := by
  obtain ⟨b, ups, names, hnames⟩ := f
  cases b <;> simpa [parts, List.mem_replicate] using h

theorem here_not_mem (f : NormalForm) : .here ∉ f.parts := by
  rw [parts]
  cases f.rooted <;> simp [List.mem_replicate]

theorem segments_below (f : NormalForm) (names : List (List Char)) (h : ∀ n ∈ names, IsName n) :
    (f.below names h).segments = f.segments ++ names := by
  simp only [segments, below, List.append_assoc]

theorem path_below (f : NormalForm) (names : List (List Char)) (h : ∀ n ∈ names, IsName n) :
    (f.below names h).path = ofSegments f.rooted (f.segments ++ names) := by
  rw [path, segments_below]
  rfl

theorem ofParts_parts (f : NormalForm) : ofParts f.parts = f.path := by
  have htext : (List.replicate f.ups Part.up ++ f.names.map Part.name).map Part.text
      = f.segments := by
    rw [List.map_append, List.map_replicate, List.map_map]
    exact congrArg (_ ++ ·) (List.map_id _)
  obtain ⟨b, ups, names, hnames⟩ := f
  cases b with
  | true => exact congrArg (fun segs => (⟨'/' :: slashed segs⟩ : Path)) htext
  | false =>
    have hplain : ofParts (List.replicate ups Part.up ++ names.map Part.name)
        = ⟨slashed ((List.replicate ups Part.up ++ names.map Part.name).map Part.text)⟩ := by
      rw [ofParts]
      rintro ps hps
      -- no part of the list is the root
      cases ups with
      | succ ups => cases hps
      | zero =>
        cases names with
        | nil => cases hps
        | cons n names => cases hps
    show ofParts (List.replicate ups Part.up ++ names.map Part.name) = _
    rw [hplain, htext]
    rfl

/-- A path of some segments is not empty. -/
theorem chars_path_ne_nil (g : NormalForm) (h : g.segments ≠ []) : g.path.chars ≠ [] :=
  List.append_ne_nil_of_right_ne_nil _
    (slashed_ne_nil h fun s hs => (g.isSegment_segments s hs).1)

/-- The path without its last name is the parent. -/
theorem exists_above (g : NormalForm) {init : List (List Char)} {n : List Char}
    (hnames : g.names = init ++ [n]) (hinit : init ≠ []) :
    ∃ g' : NormalForm, g'.names = init ∧ g.path.parent = some g'.path
      ∧ g'.path.chars ≠ [] ∧ ∃ rest, g.path.chars = g'.path.chars ++ rest := by
  have hname := g.isName
  rw [hnames] at hname
  let g' : NormalForm := ⟨g.rooted, g.ups, init, fun m hm => hname m (by simp [hm])⟩
  have hsegs : g.segments = g'.segments ++ [n] := by
    show List.replicate g.ups _ ++ g.names = List.replicate g.ups _ ++ init ++ [n]
    rw [hnames, List.append_assoc]
  have hfront : g'.segments ≠ [] := fun h => hinit (List.append_eq_nil_iff.mp h).2
  refine ⟨g', rfl, ?_, g'.chars_path_ne_nil hfront, '/' :: n, ?_⟩
  · rw [NormalForm.path, hsegs]
    exact parent_ofSegments g'.isStep_segments (hname n (by simp)).isStep
  · rw [NormalForm.path, hsegs, NormalForm.path, ofSegments, ofSegments]
    simp only
    rw [slashed_append hfront (by simp), slashed_singleton, List.append_assoc]

end NormalForm

/-! ### Reading -/

/-- The part a segment is read as. -/
def partOf (s : List Char) : Part := if s = ['.', '.'] then .up else .name s

theorem ofPiece?_of_isStep {s : List Char} (h : IsStep s) : Part.ofPiece? s = some (partOf s) := by
  rw [Part.ofPiece?, if_neg (by simp [h.1.1, h.2]), partOf]
  split_ifs <;> rfl

theorem filterMap_ofPiece? {segs : List (List Char)} (h : ∀ s ∈ segs, IsStep s) :
    segs.filterMap Part.ofPiece? = segs.map partOf := by
  induction segs with
  | nil => rfl
  | cons s segs ih =>
    rw [List.filterMap_cons, ofPiece?_of_isStep (h s List.mem_cons_self),
      ih (fun t ht => h t (List.mem_cons_of_mem _ ht))]
    rfl

theorem parts_ofSegments {b : Bool} {segs : List (List Char)} (h : ∀ s ∈ segs, IsStep s) :
    (ofSegments b segs).parts = (if b then [.root] else []) ++ segs.map partOf := by
  have habs := isAbsolute_ofSegments (b := b) (fun s hs => (h s hs).1)
  by_cases hsegs : segs = []
  · subst hsegs
    cases b <;> rfl
  · rw [parts, pieces_ofSegments hsegs (fun s hs => (h s hs).1), habs, ← filterMap_ofPiece? h]
    cases b with
    | true => rfl
    | false =>
      obtain ⟨s, segs, rfl⟩ := List.exists_cons_of_ne_nil hsegs
      have hs := h s List.mem_cons_self
      show (if s = ['.'] then [Part.here] else (Part.ofPiece? s).toList) ++ _ = _
      rw [if_neg hs.2, List.filterMap_cons, ofPiece?_of_isStep hs]
      rfl

/-- **A normal form is read back as it is.** -/
theorem NormalForm.parts_path (f : NormalForm) : f.path.parts = f.parts := by
  rw [path, parts_ofSegments f.isStep_segments, parts, segments, List.map_append,
    List.map_replicate]
  refine congrArg (_ ++ ·) (congrArg (_ ++ ·) (List.map_congr_left fun n hn => ?_))
  exact if_neg (f.isName n hn).2.2

/-- A part that can come after the first one. -/
def IsRead : Part → Prop
  | .root => False
  | .name n => IsName n
  | _ => True

theorem isRead_of_ofPiece? {piece : List Char} {part : Part} (hslash : '/' ∉ piece)
    (h : Part.ofPiece? piece = some part) : IsRead part := by
  rw [Part.ofPiece?] at h
  split_ifs at h with h1 h2
  · obtain rfl := Option.some.inj h
    trivial
  · obtain rfl := Option.some.inj h
    rw [not_or] at h1
    exact ⟨⟨h1.1, hslash⟩, h1.2, h2⟩

/-- A path is the root, if it is absolute, and parts that can come later. -/
theorem parts_eq (p : Path) :
    ∃ rest, p.parts = (if p.isAbsolute then [.root] else []) ++ rest ∧ ∀ q ∈ rest, IsRead q := by
  obtain ⟨first, rest, hpieces⟩ := List.exists_cons_of_ne_nil (pieces_ne_nil p.chars)
  have hslash : ∀ s ∈ first :: rest, '/' ∉ s := by
    rw [← hpieces]
    exact fun s hs => no_slash_of_mem_pieces hs
  have hrest : ∀ q ∈ rest.filterMap Part.ofPiece?, IsRead q := by
    intro q hq
    obtain ⟨s, hs, hq⟩ := List.mem_filterMap.mp hq
    exact isRead_of_ofPiece? (hslash s (List.mem_cons_of_mem _ hs)) hq
  rw [parts, hpieces]
  by_cases habs : p.isAbsolute
  · -- the root is read
    exact ⟨_, by simp [habs], hrest⟩
  · -- without a root, a dot at the front is read
    refine ⟨_, by simp only [habs]; rfl, ?_⟩
    intro q hq
    rcases List.mem_append.mp hq with hq | hq
    · simp only [Bool.false_eq_true, if_false] at hq
      split_ifs at hq
      · obtain rfl := List.mem_singleton.mp hq
        trivial
      · exact isRead_of_ofPiece? (hslash first List.mem_cons_self) (Option.mem_toList.mp hq)
    · exact hrest q hq

/-! ### Normalising -/

/-- One more part leaves a normal form on the stack. -/
theorem pushPart_normalForm (f : NormalForm) {part : Part} (h : IsRead part) :
    ∃ g : NormalForm, pushPart f.parts.reverse part = g.parts.reverse := by
  cases part with
  | root => exact absurd h id
  | here => exact ⟨f, rfl⟩
  | name n =>
    refine ⟨f.below [n] (fun m hm => List.mem_singleton.mp hm ▸ h), ?_⟩
    rw [NormalForm.parts_below, List.reverse_append]
    rfl
  | up =>
    obtain ⟨b, ups, names, hnames⟩ := f
    rcases List.eq_nil_or_concat names with rfl | ⟨init, n, rfl⟩
    · -- there is no name to take away, so the step up stays
      refine ⟨⟨b, ups + 1, [], by simp⟩, ?_⟩
      have hnone : ∀ n rest, (NormalForm.mk b ups [] hnames).parts.reverse ≠ .name n :: rest := by
        intro n rest heq
        have : Part.name n ∈ (NormalForm.mk b ups [] hnames).parts := by
          rw [← List.mem_reverse, heq]
          exact List.mem_cons_self
        cases b <;> simp [NormalForm.parts, List.mem_replicate] at this
      have hup : pushPart (NormalForm.mk b ups [] hnames).parts.reverse .up
          = .up :: (NormalForm.mk b ups [] hnames).parts.reverse := by
        rw [pushPart]
        exact hnone
      rw [hup, NormalForm.parts, NormalForm.parts]
      simp only [List.map_nil, List.append_nil, List.reverse_append, List.reverse_replicate]
      rfl
    · -- the last name is taken away
      refine ⟨⟨b, ups, init, fun m hm => hnames m (by simp [hm])⟩, ?_⟩
      have htop : (NormalForm.mk b ups (init.concat n) hnames).parts.reverse
          = .name n
            :: (NormalForm.mk b ups init (fun m hm => hnames m (by simp [hm]))).parts.reverse := by
        simp [NormalForm.parts]
      rw [htop]
      rfl

theorem foldl_pushPart_normalForm (f : NormalForm) {ps : List Part} (h : ∀ p ∈ ps, IsRead p) :
    ∃ g : NormalForm, ps.foldl pushPart f.parts.reverse = g.parts.reverse := by
  induction ps generalizing f with
  | nil => exact ⟨f, rfl⟩
  | cons p ps ih =>
    obtain ⟨g, hg⟩ := pushPart_normalForm f (h p List.mem_cons_self)
    rw [List.foldl_cons, hg]
    exact ih g (fun q hq => h q (List.mem_cons_of_mem _ hq))

/-- **Every path has a normal form.** -/
theorem exists_normalForm (p : Path) : ∃ f : NormalForm, normalParts p.parts = f.parts := by
  obtain ⟨rest, hparts, hrest⟩ := parts_eq p
  have hstart : ∃ f : NormalForm, (if p.isAbsolute then [Part.root] else []).foldl pushPart []
      = f.parts.reverse := by
    refine ⟨⟨p.isAbsolute, 0, [], by simp⟩, ?_⟩
    cases p.isAbsolute <;> rfl
  obtain ⟨f, hf⟩ := hstart
  obtain ⟨g, hg⟩ := foldl_pushPart_normalForm f hrest
  refine ⟨g, ?_⟩
  rw [normalParts, hparts, List.foldl_append, hf, hg, List.reverse_reverse]

theorem normalize_eq {p : Path} {f : NormalForm} (h : normalParts p.parts = f.parts) :
    p.normalize = f.path := by
  rw [normalize, h, f.ofParts_parts]

/-- Names pile up on what is normalised before them. -/
theorem normalParts_append_names (ps : List Part) (names : List (List Char)) :
    normalParts (ps ++ names.map .name) = normalParts ps ++ names.map .name := by
  have hpush : ∀ stack, (names.map Part.name).foldl pushPart stack
      = (names.map Part.name).reverse ++ stack := by
    induction names with
    | nil => exact fun _ => rfl
    | cons n names ih =>
      intro stack
      rw [List.map_cons, List.foldl_cons, ih]
      simp [pushPart]
  rw [normalParts, List.foldl_append, hpush, List.reverse_append, List.reverse_reverse]
  rfl

/-- Nothing takes away what a normal form has in front, nor does it drop a part itself. -/
theorem foldl_pushPart_of_normalForm {f : NormalForm} {front back : List Part}
    (h : f.parts = front ++ back) : back.foldl pushPart front.reverse = f.parts.reverse := by
  have hsettled : f.parts.Pairwise fun x y => ∀ n, x = .name n → y ≠ .up := by
    rw [NormalForm.parts]
    cases f.rooted <;> simp [List.pairwise_append, List.pairwise_map, List.pairwise_replicate,
      List.pairwise_of_forall]
  have hhere := f.here_not_mem
  rw [h] at hsettled hhere ⊢
  clear h
  induction back generalizing front with
  | nil => simp
  | cons q back ih =>
    have hpush : pushPart front.reverse q = (front ++ [q]).reverse := by
      rw [List.reverse_append]
      cases q with
      | here => exact absurd (by simp) hhere
      | root => rfl
      | name n => rfl
      | up =>
        rcases List.eq_nil_or_concat front with rfl | ⟨init, x, rfl⟩
        · rfl
        · -- a name in front of `..` would not have stayed
          rw [List.concat_eq_append] at hsettled ⊢
          have hx := (List.pairwise_append.mp hsettled).2.2 x (by simp) .up (by simp)
          cases x with
          | name n => exact absurd rfl (hx n rfl)
          | _ => simp [pushPart]
    rw [List.foldl_cons, hpush, ih (by simpa using hsettled) (by simpa using hhere)]
    simp

theorem NormalForm.normalParts_parts (f : NormalForm) : normalParts f.parts = f.parts := by
  rw [normalParts, ← List.reverse_nil, foldl_pushPart_of_normalForm (List.nil_append _).symm,
    List.reverse_reverse]

/-- **What is normalised stays as it is.** -/
theorem NormalForm.normalize_path (f : NormalForm) : f.path.normalize = f.path :=
  normalize_eq (by rw [f.parts_path, f.normalParts_parts])

/-- Paths are normalised alike just when their parts are. -/
theorem normalize_eq_iff {p q : Path} :
    p.normalize = q.normalize ↔ normalParts p.parts = normalParts q.parts := by
  refine ⟨fun h => ?_, fun h => congrArg ofParts h⟩
  obtain ⟨f, hf⟩ := exists_normalForm p
  obtain ⟨g, hg⟩ := exists_normalForm q
  rw [normalize_eq hf, normalize_eq hg] at h
  rw [hf, hg, ← f.parts_path, h, g.parts_path]

/-! ### Below a path -/

theorem join_name (p : Path) {n : List Char} (hn : IsName n) :
    p.chars = [] ∧ p.join ⟨n⟩ = ⟨n⟩
      ∨ ∃ cs, (p.chars = cs ++ ['/'] ∨ p.chars = cs ∧ cs ≠ []) ∧ p.join ⟨n⟩ = ⟨cs ++ '/' :: n⟩ := by
  have habs : (⟨n⟩ : Path).isAbsolute = false := by
    have := @isAbsolute_ofSegments false [n] (by simpa using hn.1)
    rwa [ofSegments, slashed_singleton] at this
  rw [join, habs, if_neg Bool.false_ne_true]
  by_cases hnil : p.chars = []
  · -- the empty path
    left
    rw [if_pos (by simp [hnil]), hnil]
    exact ⟨rfl, rfl⟩
  · right
    by_cases hlast : p.chars.getLast? = some '/'
    · -- there is a slash to join at
      obtain ⟨cs, hcs⟩ := List.getLast?_eq_some_iff.mp hlast
      refine ⟨cs, .inl hcs, ?_⟩
      rw [if_pos (by simp [hlast]), hcs]
      simp
    · -- a slash is put between
      exact ⟨p.chars, .inr ⟨rfl, hnil⟩, if_neg (by simp [hnil, hlast])⟩

/-- A path with a name behind is written with one name more. -/
theorem named_join (p : Path) {n : List Char} (hn : IsName n) :
    (p.join ⟨n⟩).named = p.named ++ [n] := by
  have hself : [n].filter (fun s => !s.isEmpty) = [n] := by simp [hn.1.1]
  rcases join_name p hn with ⟨hnil, hjoin⟩ | ⟨cs, hcs, hjoin⟩
  · rw [hjoin, named, named, hnil, pieces_of_no_slash hn.1.2, hself]
    rfl
  · rw [hjoin, named, pieces_append_slash, pieces_of_no_slash hn.1.2, List.filter_append, hself]
    rcases hcs with hcs | ⟨hcs, -⟩
    · rw [named, hcs, pieces_append_slash, List.filter_append]
      exact congrArg (· ++ [n]) (List.append_nil _).symm
    · rw [named, hcs]

/-- A path with a name behind is read with one name more. -/
theorem parts_join (p : Path) {n : List Char} (hn : IsName n) :
    (p.join ⟨n⟩).parts = p.parts ++ [.name n] := by
  have hread : Part.ofPiece? n = some (.name n) := by
    rw [ofPiece?_of_isStep hn.isStep, partOf, if_neg hn.2.2]
  rcases join_name p hn with ⟨hnil, hjoin⟩ | ⟨cs, hcs, hjoin⟩
  · -- joined to the empty path
    have hp : p = ⟨[]⟩ := congrArg Path.mk hnil
    have hplain : (⟨n⟩ : Path) = ofSegments false [n] := by
      rw [ofSegments, slashed_singleton]
      rfl
    rw [hjoin, hp, hplain, parts_ofSegments (by simpa using hn.isStep), List.map_singleton, partOf,
      if_neg hn.2.2]
    rfl
  · -- joined behind a slash
    obtain ⟨first, rest, hpieces⟩ := List.exists_cons_of_ne_nil (pieces_ne_nil cs)
    have habs : (⟨cs ++ '/' :: n⟩ : Path).isAbsolute = p.isAbsolute := by
      rw [isAbsolute, isAbsolute]
      rcases hcs with hcs | ⟨hcs, hne⟩
      · rw [hcs]
        cases cs <;> rfl
      · rw [hcs]
        cases cs with
        | nil => exact absurd rfl hne
        | cons c cs => rfl
    have hrest : ∃ rest', pieces p.chars = first :: rest'
        ∧ rest'.filterMap Part.ofPiece? = rest.filterMap Part.ofPiece? := by
      rcases hcs with hcs | ⟨hcs, -⟩
      · refine ⟨rest ++ [[]], by rw [hcs, pieces_append_slash, hpieces]; rfl, ?_⟩
        rw [List.filterMap_append]
        exact List.append_nil _
      · exact ⟨rest, by rw [hcs, hpieces], rfl⟩
    obtain ⟨rest', hp, hsame⟩ := hrest
    rw [hjoin, parts, parts, pieces_append_slash, hpieces, pieces_of_no_slash hn.1.2, hp, habs]
    simp only [List.cons_append, List.filterMap_append, hsame, List.append_assoc]
    rw [List.filterMap_cons, hread]
    rfl

/-- A path with a name behind does not end in a slash. -/
theorem getLast?_join (p : Path) {n : List Char} (hn : IsName n) :
    (p.join ⟨n⟩).chars.getLast? ≠ some '/' := by
  have hlast : n.getLast? ≠ some '/' := fun h => hn.1.2 (List.mem_of_getLast? h)
  rw [List.getLast?_eq_some_getLast hn.1.1] at hlast
  rcases join_name p hn with ⟨-, hjoin⟩ | ⟨cs, -, hjoin⟩
  · rw [hjoin]
    show n.getLast? ≠ _
    rw [List.getLast?_eq_some_getLast hn.1.1]
    exact hlast
  · rw [hjoin]
    show (cs ++ '/' :: n).getLast? ≠ _
    rw [List.getLast?_append, List.getLast?_cons, List.getLast?_eq_some_getLast hn.1.1]
    exact hlast

end Path

end Scaffold

/-
Scaffold/Proofs/FileTree/Places.lean

The place of a path, read off its parts.

A look-up follows the steps a path is written with, and the steps that are not read
stay where they are.  So the place a path leads to without links is decided by its
parts (`place_eq`): a path that ends in a name leads to that name below the place of
its parent (`place_parent`), and the path beside it for a temporary file leads
elsewhere (`place_temporaryPath_ne`).

Making the directories of a path makes only such whose parts the path begins with
(`makeDirectories_made`).  Unless a path climbs, its place is no place of a path it
begins with (`place_ne_of_isPrefix`), so its directories are not made where the path
itself leads.
-/
import Scaffold.Proofs.FileTree.Change
import Scaffold.Proofs.Path.Normal
import Scaffold.Proofs.Path.Reading

namespace Scaffold

open Text Scaffold.Path

/-! ### Places and parts -/

/-- The place one part leads to. -/
def Part.placeFrom (here : Place) : Part → Place
  | .root | .here => here
  | .up => here.dropLast
  | .name n => here ++ [n]

/-- A path that climbs out of a directory somewhere. -/
def Path.Climbs (p : Path) : Prop := .up ∈ p.parts

instance (p : Path) : Decidable p.Climbs := inferInstanceAs (Decidable (_ ∈ _))

namespace Path

section Parts

variable {p q : Path} {name : List Char}

theorem placeFrom_filterMap (here : Place) (ss : List (List Char)) :
    placeFrom here ss = (ss.filterMap Part.ofPiece?).foldl Part.placeFrom here := by
  induction ss generalizing here with
  | nil => rfl
  | cons s ss ih =>
    rw [placeFrom_cons, ih, List.filterMap_cons, Part.ofPiece?, stepFrom]
    by_cases hidle : s = [] ∨ s = ['.']
    · rw [if_pos hidle, if_pos hidle.symm]
    · rw [if_neg hidle, if_neg (fun h => hidle h.symm)]
      by_cases hup : s = ['.', '.']
      · rw [if_pos hup, if_pos hup]
        rfl
      · rw [if_neg hup, if_neg hup]
        rfl

/-- Empty steps stay where they are. -/
theorem placeFrom_filter (here : Place) (ss : List (List Char)) :
    placeFrom here (ss.filter fun s => !s.isEmpty) = placeFrom here ss := by
  induction ss generalizing here with
  | nil => rfl
  | cons s ss ih =>
    cases s with
    | nil => exact ih here
    | cons c cs => exact ih _

/-- **The place of a path is decided by its parts.** -/
theorem place_eq (p : Path) : p.place = p.parts.foldl Part.placeFrom [] := by
  have hsteps : p.place = placeFrom [] (pieces p.chars) := by
    have hnamed : placeFrom [] p.named = placeFrom [] (pieces p.chars) := placeFrom_filter [] _
    rw [Path.place, Path.steps_eq, ← hnamed]
    split_ifs
    · exact placeFrom_append _ _ _
    · rfl
  obtain ⟨first, rest, hpieces⟩ := List.exists_cons_of_ne_nil (pieces_ne_nil p.chars)
  have hparts : p.parts = partsOf first rest := parts_of_pieces hpieces
  rw [hsteps, hpieces, hparts, placeFrom_filterMap, partsOf, List.filterMap_cons]
  by_cases hempty : first = []
  · -- the first piece is empty where a slash comes first
    rw [hempty, if_pos rfl]
    split_ifs <;> rfl
  · rw [if_neg hempty]
    by_cases hhere : first = ['.']
    · -- a dot at the front is read, and goes nowhere
      rw [hhere, if_pos rfl]
      rfl
    · rw [if_neg hhere]
      rcases Part.ofPiece? first with - | part <;> rfl

/-! ### The parent -/

/-- A path is read as its parent, and maybe more. -/
theorem isPrefix_parts_parent (h : p.parent = some q) : q.parts <+: p.parts := by
  obtain ⟨⟨before, last⟩, hsplit, rfl⟩ := Option.map_eq_some_iff.mp h
  obtain ⟨hbefore, hsegment, hparts⟩ := splitLast_eq_some hsplit
  rw [parts_dropIdleEnd, hparts]
  by_cases hhere : last = ['.']
  · -- a dot behind a slash is not read
    rcases hbefore with rfl | ⟨cs, rfl⟩
    · exact List.nil_prefix
    · obtain ⟨first, rest, hcs⟩ := List.exists_cons_of_ne_nil (pieces_ne_nil cs)
      have hlong : pieces (cs ++ ['/'] ++ last) = first :: (rest ++ [last]) := by
        rw [List.append_assoc, List.singleton_append, pieces_append_slash, hcs,
          pieces_of_no_slash hsegment.2, List.cons_append]
      have hshort : pieces (cs ++ ['/']) = first :: (rest ++ [[]]) := by
        rw [pieces_append_slash, hcs]
        rfl
      rw [parts_of_pieces hlong, parts_of_pieces hshort, partsOf, partsOf, hhere]
      simp [Part.ofPiece?]
  · rw [parts_append_piece hbefore ⟨hsegment, hhere⟩]
    exact List.prefix_append _ _

/-- **A path that ends in a name leads to it below the place of its parent.** -/
theorem place_parent (h : p.fileName = some name) :
    ∃ dir, p.parent = some dir ∧ IsName name ∧ p.parts = dir.parts ++ [.name name]
      ∧ p.place = dir.place ++ [name] := by
  obtain ⟨dir, hparent, hname, hparts⟩ := parts_parent h
  refine ⟨dir, hparent, hname, hparts, ?_⟩
  rw [place_eq, place_eq, hparts, List.foldl_append]
  rfl

theorem place_join (p : Path) (h : IsName name) : (p.join ⟨name⟩).place = p.place ++ [name] := by
  rw [place_eq, place_eq, parts_join p h, List.foldl_append]
  rfl

/-- A path that ends in no name and does not climb leads to the root. -/
theorem place_of_no_fileName (h : p.fileName = none) (hclimb : ¬ p.Climbs) : p.place = [] := by
  obtain ⟨first, rest, hpieces⟩ := List.exists_cons_of_ne_nil (pieces_ne_nil p.chars)
  have hparts : p.parts = partsOf first rest := parts_of_pieces hpieces
  obtain ⟨idle, hidle, hrest⟩ := exists_idle_end rest
  rw [Path.Climbs, hparts, partsOf] at hclimb
  rw [fileName, splitLast, hpieces] at h
  rcases hkept : rest.reverse.dropWhile isIdle with - | ⟨last, before⟩
  · -- only the first piece is read
    rw [hkept, List.reverse_nil, List.nil_append] at hrest
    rw [place_eq, hparts, partsOf, hrest, filterMap_of_idle hidle]
    by_cases hempty : first = []
    · rw [if_pos hempty]
      split_ifs <;> rfl
    · by_cases hhere : first = ['.']
      · rw [if_neg hempty, if_pos hhere]
        rfl
      · have hup : first = ['.', '.'] := by
          simpa [hkept, hempty, hhere] using h
        rw [if_neg hempty, if_neg hhere, hup] at hclimb
        exact absurd (List.mem_append_left _ (by decide)) hclimb
  · have hread : isIdle last = false := by
      have := List.head?_dropWhile_not isIdle rest.reverse
      rwa [hkept] at this
    have hhere : last ≠ ['.'] := by
      rintro rfl
      cases hread
    have hup : last = ['.', '.'] := by
      simpa [hkept, hhere] using h
    refine absurd (List.mem_append_right _ (List.mem_filterMap.mpr ⟨last, ?_, ?_⟩)) hclimb
    · rw [hrest, hkept]
      simp
    · rw [hup]
      rfl

/-- **A temporary file does not stand where the path leads it is for.** -/
theorem place_temporaryPath_ne (p : Path) : p.place ≠ (temporaryPath p).place := by
  rcases hname : p.fileName with - | name
  · -- it stands below the place
    have htemporary : temporaryPath p = p.join ⟨".tmp".toList⟩ := by
      rw [temporaryPath, withFileName, hname]
      rfl
    rw [htemporary, place_join p (by decide)]
    simp
  · obtain ⟨dir, hparent, hisName, -, hplace⟩ := place_parent hname
    have hlonger : IsName (name ++ ".tmp".toList) :=
      isName_of_length (by simp) (by simp [hisName.1.2])
    have htemporary : temporaryPath p = dir.join ⟨name ++ ".tmp".toList⟩ := by
      rw [temporaryPath, withFileName, hname, hparent]
      rfl
    rw [htemporary, place_join dir hlonger, hplace]
    simp

end Parts

/-! ### Directories on the way -/

/-- Parts that do not climb never lead up. -/
theorem length_le_placeFrom {ps : List Part} (h : .up ∉ ps) (here : Place) :
    here.length ≤ (ps.foldl Part.placeFrom here).length := by
  induction ps generalizing here with
  | nil => exact Nat.le_refl _
  | cons part ps ih =>
    rw [List.mem_cons, not_or] at h
    refine Nat.le_trans ?_ (ih h.2 _)
    cases part with
    | up => exact absurd rfl h.1
    | name n => simp [Part.placeFrom]
    | _ => exact Nat.le_refl _

/-- **A path that does not climb leads below every path in front of its last name.** -/
theorem place_ne_of_isPrefix {p q dir : Path} {name : List Char} (hclimb : ¬ p.Climbs)
    (hparts : p.parts = dir.parts ++ [.name name]) (hq : q.parts <+: dir.parts) :
    q.place ≠ p.place := by
  intro heq
  obtain ⟨rest, hrest⟩ := hq
  -- what is read behind the shorter path never leads up, and the name leads one deeper
  rw [Path.Climbs, hparts, ← hrest, List.append_assoc, List.mem_append, not_or, List.mem_append,
    not_or] at hclimb
  have hlength := length_le_placeFrom hclimb.2.1 q.place
  have hplace : p.place = rest.foldl Part.placeFrom q.place ++ [name] := by
    rw [place_eq, place_eq, hparts, ← hrest, List.foldl_append, List.foldl_append]
    rfl
  have hlonger := congrArg List.length hplace
  rw [← heq, List.length_append, List.length_singleton] at hlonger
  omega

end Path

namespace FileTree

section Made

variable {t : FileTree} {p : Path}

theorem makeDirectory_made (hlink : t.LinkFree) {t' : FileTree} (h : t.makeDirectory p = .ok t') :
    ∀ place, t'.get? place = t.get? place ∨ place = p.place := by
  obtain ⟨rfl, hnone⟩ := makeDirectory_ok hlink h
  have hdir : t.get? p.place ≠ some .directory := by simp [hnone]
  intro q
  rw [get?_put _ _ _ _ (ne_root_of_get? hdir)]
  split_ifs with hq
  · exact .inr hq
  · exact .inl rfl

theorem ensureDirectory_made (hlink : t.LinkFree) (p : Path) (place : Place) :
    (t.ensureDirectory p).1.get? place = t.get? place ∨ place = p.place := by
  rw [ensureDirectory]
  split
  · next t' h => exact makeDirectory_made hlink h place
  · exact .inl rfl

/-- **Of all directories only those of paths that a path begins with are made for it.** -/
theorem makeDirectoriesUpTo_made (n : Nat) (hlink : t.LinkFree) (p : Path) (place : Place) :
    (makeDirectoriesUpTo n t p).1.get? place = t.get? place
      ∨ ∃ q : Path, q.parts <+: p.parts ∧ place = q.place := by
  have hself : ∀ (p : Path) {t : FileTree}, t.LinkFree →
      (t.ensureDirectory p).1.get? place = t.get? place
        ∨ ∃ q : Path, q.parts <+: p.parts ∧ place = q.place := fun p _ hlink =>
    (ensureDirectory_made hlink p place).imp_right fun h => ⟨p, List.prefix_rfl, h⟩
  induction n generalizing p with
  | zero => exact hself p hlink
  | succ n ih =>
    rw [makeDirectoriesUpTo]
    split_ifs
    · exact .inl rfl
    · split
      · next above _ hparent =>
        have hprefix := isPrefix_parts_parent hparent
        have hadd := makeDirectoriesUpTo_adds n hlink above
        have habove : (makeDirectoriesUpTo n t above).1.get? place = t.get? place
            ∨ ∃ q : Path, q.parts <+: p.parts ∧ place = q.place := by
          rcases ih above with h | ⟨q, hq, hplace⟩
          · exact .inl h
          · exact .inr ⟨q, hq.trans hprefix, hplace⟩
        -- the directory itself is made in the tree with those above it
        split
        · next t' hmade =>
          rw [hmade] at hadd habove
          rcases hself p (hadd.linkFree hlink) with h | h
          · rw [h]
            exact habove
          · exact .inr h
        · next t' e hmade =>
          rw [hmade] at habove
          exact habove
      · exact hself p hlink

theorem makeDirectories_made (hlink : t.LinkFree) (p : Path) (place : Place) :
    (t.makeDirectories p).1.get? place = t.get? place
      ∨ ∃ q : Path, q.parts <+: p.parts ∧ place = q.place :=
  makeDirectoriesUpTo_made _ hlink p place

end Made

end FileTree

end Scaffold

/-
Scaffold/Proofs/Path/Canonical.lean

Normalisation gives a canonical form.

In a path there is nothing to fold when its parts are the root, if it is
absolute, then some `..`, and then names (`IsFolded`).

* `isFolded_normalize` — every path normalises to such a path;
* `normalize_parts_eq_iff` — and such paths are the ones that keep their parts;
* `normalParts_append_left` — parts that come behind do not tell whether those
  in front have been normalised, hence no relative path does
  (`normalize_join_normalize`);
* `normalize_join_name_up` — `..` takes away the name in front of it.
-/
import Scaffold.Proofs.Path.Below

namespace Scaffold

namespace Path

variable {p q : Path}

/-- There is nothing to fold: the root of an absolute path, some `..`, and names. -/
def IsFolded (p : Path) : Prop :=
  ∃ (ups : Nat) (names : List (List Char)),
    p.parts = (if p.isAbsolute then [.root] else []) ++ (List.replicate ups .up ++ names.map .name)

theorem IsFolded.here_not_mem (h : IsFolded p) : .here ∉ p.parts := by
  obtain ⟨ups, names, hparts⟩ := h
  rw [hparts]
  cases p.isAbsolute <;> simp [List.mem_replicate]

/-! ### The form -/

theorem isAbsolute_normalize (p : Path) : p.normalize.isAbsolute = p.isAbsolute := by
  obtain ⟨f, hf, hrooted⟩ := exists_rooted_normalForm p
  rw [normalize_eq hf, NormalForm.path, isAbsolute_ofSegments f.isSegment_segments, hrooted]

/-- **Nothing is left to fold.** -/
theorem isFolded_normalize (p : Path) : IsFolded p.normalize := by
  obtain ⟨f, hf, hrooted⟩ := exists_rooted_normalForm p
  refine ⟨f.ups, f.names, ?_⟩
  rw [isAbsolute_normalize, ← hrooted, parts_normalize hf]
  rfl

theorem isName_of_mem_parts {n : List Char} (h : .name n ∈ p.parts) : IsName n := by
  obtain ⟨rest, hparts, hrest⟩ := parts_eq p
  rw [hparts] at h
  rcases List.mem_append.mp h with h | h
  · cases habs : p.isAbsolute <;> simp [habs] at h
  · exact hrest _ h

/-- A path without anything to fold is read as a normal form. -/
theorem IsFolded.exists_normalForm (h : IsFolded p) : ∃ f : NormalForm, p.parts = f.parts := by
  obtain ⟨ups, names, hparts⟩ := h
  refine ⟨⟨p.isAbsolute, ups, names, fun n hn => isName_of_mem_parts (p := p) ?_⟩, hparts⟩
  rw [hparts]
  exact List.mem_append_right _ (List.mem_append_right _ (List.mem_map_of_mem hn))

/-- **The paths that keep their parts are those without anything to fold.** -/
theorem normalize_parts_eq_iff : p.normalize.parts = p.parts ↔ IsFolded p := by
  constructor
  · intro h
    have hfolded := isFolded_normalize p
    rwa [IsFolded, h, isAbsolute_normalize] at hfolded
  · intro h
    obtain ⟨f, hf⟩ := h.exists_normalForm
    rw [parts_normalize (by rw [hf, f.normalParts_parts]), hf]

theorem normalize_normalize (p : Path) : p.normalize.normalize = p.normalize := by
  obtain ⟨f, hf⟩ := exists_normalForm p
  rw [normalize_eq hf, f.normalize_path]

/-! ### Parts behind -/

/-- **What comes behind does not tell whether the parts in front have been normalised.** -/
theorem normalParts_append_left (p : Path) (qs : List Part) :
    normalParts (normalParts p.parts ++ qs) = normalParts (p.parts ++ qs) := by
  obtain ⟨f, hf⟩ := exists_normalForm p
  -- reading the normal form leaves the same stack as reading the path
  have hstack : f.parts.foldl pushPart [] = p.parts.foldl pushPart [] := by
    have hself := f.normalParts_parts
    rw [← hf] at hself ⊢
    exact List.reverse_inj.mp hself
  rw [hf, normalParts, normalParts, List.foldl_append, List.foldl_append, hstack]

theorem normalize_join_normalize (p : Path) (hq : q.isAbsolute = false) :
    (p.join q).normalize = (p.normalize.join q).normalize := by
  obtain ⟨f, hf⟩ := exists_normalForm p
  rw [normalize_eq_iff, normalParts_join p hq, normalParts_join p.normalize hq, parts_normalize hf,
    ← hf, normalParts_append_left]

/-- **A name and `..` behind it come to nothing.** -/
theorem normalize_join_name_up (p : Path) {n : List Char} (hn : IsName n) :
    ((p.join ⟨n⟩).join ⟨['.', '.']⟩).normalize = p.normalize := by
  have hup : (⟨['.', '.']⟩ : Path).parts = [.up] := by decide
  rw [normalize_eq_iff, normalParts_join _ (by decide), parts_join p hn, hup, List.append_assoc,
    normalParts, normalParts, List.foldl_append]
  rfl

/-- **Normalisation computes a canonical form.**  It has no `.`, and `..` only in front of all names
and right after the root; the path stays absolute or relative; a path of that form is kept, and no
other; and it makes no difference whether a path is normalised before a relative one is put behind
it. -/
theorem normalize_canonical (p : Path) :
    (.here ∉ p.normalize.parts ∧ IsFolded p.normalize)
      ∧ p.normalize.isAbsolute = p.isAbsolute
      ∧ p.normalize.normalize = p.normalize
      ∧ (p.normalize.parts = p.parts ↔ IsFolded p)
      ∧ (∀ q : Path, q.isAbsolute = false →
          (p.join q).normalize = (p.normalize.join q).normalize)
      ∧ ∀ n, IsName n → ((p.join ⟨n⟩).join ⟨['.', '.']⟩).normalize = p.normalize :=
  ⟨⟨(isFolded_normalize p).here_not_mem, isFolded_normalize p⟩, isAbsolute_normalize p,
    normalize_normalize p, normalize_parts_eq_iff, fun _ hq => normalize_join_normalize p hq,
    fun _ hn => normalize_join_name_up p hn⟩

/-- A path that climbs out of where it began, and one behind it that climbs further. -/
theorem normalize_canonical_climbing :
    (ofString "../../c/.").isAbsolute = false
      ∧ IsName ['x']
      ∧ (ofString "./a//../../b/.").normalize = ofString "../b"
      ∧ ((ofString "./a//../../b/.").join (ofString "../../c/.")).normalize = ofString "../../c"
      ∧ (((ofString "./a//../../b/.").join ⟨['x']⟩).join ⟨['.', '.']⟩).normalize
        = ofString "../b" := by
  have hrelative : (ofString "../../c/.").isAbsolute = false := by decide
  have hname : IsName ['x'] := ⟨⟨by decide, by decide⟩, by decide, by decide⟩
  have hnormal : (ofString "./a//../../b/.").normalize = ofString "../b" := by decide
  obtain ⟨-, -, -, -, hbehind, hup⟩ := normalize_canonical (ofString "./a//../../b/.")
  refine ⟨hrelative, hname, hnormal, (hbehind _ hrelative).trans ?_, (hup _ hname).trans hnormal⟩
  rw [hnormal]
  decide

end Path

end Scaffold

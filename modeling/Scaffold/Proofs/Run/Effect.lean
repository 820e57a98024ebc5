/-
Scaffold/Proofs/Run/Effect.lean

What processing one source comes to, exactly.

In a tree without links in which everything stands in a directory, and in which
nothing is in the way of the temporary file, what becomes of a source can be
told before it is processed (`fate`): from whether there is something at its
destination, what reading it gives, what is in the way of the directories for
its test, and whether its test can stand in the last of them.

`processUnit_fate` says that this is what happens, and `Leaves` what it leaves
of every entry: the test where one is written, directories on the way as far as
they were made, and everything else as it was.  In particular no temporary file
is left behind, whatever fails.
-/
import Scaffold.Proofs.FileTree.Directories
import Scaffold.Proofs.Run.Unit

namespace Scaffold

open Text Scaffold.Path FileTree

/-! ### Where a test is written -/

/-- A directory, and a name in it that leaves room for the name of a temporary file. -/
structure Site where
  directory : NormalForm
  name : List Char
  isName : IsName name
  isName_temporary : IsName (temporaryName name)

namespace Site

/-- The test at a site. -/
def target (site : Site) : NormalForm :=
  site.directory.below [site.name] (by simpa using site.isName)

/-- What stands beside the test while it is written. -/
def temporary (site : Site) : NormalForm :=
  site.directory.below [temporaryName site.name] (by simpa using site.isName_temporary)

variable (site : Site)

theorem names_target : site.target.names = site.directory.names ++ [site.name] := rfl

theorem names_temporary :
    site.temporary.names = site.directory.names ++ [temporaryName site.name] := rfl

theorem path_target : site.target.path
    = ofSegments site.directory.rooted (site.directory.segments ++ [site.name]) :=
  NormalForm.path_below _ _ _

theorem path_temporary : site.temporary.path
    = ofSegments site.directory.rooted (site.directory.segments ++ [temporaryName site.name]) :=
  NormalForm.path_below _ _ _

theorem parent_target : site.target.path.parent = some site.directory.path := by
  rw [path_target]
  exact parent_ofSegments site.directory.isStep_segments site.isName.isStep

theorem target_without_slash : site.target.path.chars.getLast? ≠ some '/' :=
  getLast?_ofSegments (by simp [NormalForm.segments, names_target])
    site.target.isSegment_segments

theorem temporaryPath_target : temporaryPath site.target.path = site.temporary.path := by
  rw [path_target, path_temporary]
  exact temporaryPath_ofSegments site.directory.isStep_segments site.isName site.isName_temporary

/-- The path of the temporary file is longer by its ending. -/
theorem chars_temporary :
    site.temporary.path.chars = site.target.path.chars ++ ".tmp".toList := by
  rw [path_target, path_temporary, ofSegments, ofSegments]
  simp only
  by_cases hfront : site.directory.segments = []
  · rw [hfront, List.nil_append, List.nil_append, slashed_singleton, slashed_singleton,
      temporaryName, List.append_assoc]
  · rw [slashed_append hfront (by simp), slashed_append hfront (by simp), slashed_singleton,
      slashed_singleton, temporaryName]
    simp

theorem fault_target (h : site.temporary.path.fault = none) : site.target.path.fault = none :=
  Path.fault_of_append site.chars_temporary
    (site.target.chars_path_ne_nil (by simp [NormalForm.segments, names_target])) h

theorem short_name (h : ¬ maxName < byteLength (temporaryName site.name)) :
    ¬ maxName < byteLength site.name := by
  rw [temporaryName, byteLength_append] at h
  omega

/-- What stands in a directory is not on the way to it. -/
theorem ne_concat_of_isPrefix {dir q : Place} (h : q <+: dir) (n : List Char) : q ≠ dir ++ [n] := by
  rintro rfl
  have := h.length_le
  rw [List.length_append, List.length_singleton] at this
  omega

theorem ne_target {q : Place} (h : q <+: site.directory.names) : q ≠ site.target.names :=
  ne_concat_of_isPrefix h _

theorem ne_temporary {q : Place} (h : q <+: site.directory.names) : q ≠ site.temporary.names :=
  ne_concat_of_isPrefix h _

theorem target_ne_temporary : site.target.names ≠ site.temporary.names := by
  intro h
  rw [names_target, names_temporary, List.append_cancel_left_eq, List.singleton_inj] at h
  have := congrArg List.length h
  simp [temporaryName] at this

end Site

/-! ### What can be told in advance -/

/-- What keeps a file from being written to a path, where its directory is there. -/
def FileTree.refusal (t : FileTree) (p : Path) : Option IoError :=
  match (temporaryPath p).fault with
  | some e => some e
  | none =>
    if (temporaryPath p).place.getLast?.any (fun n => decide (maxName < byteLength n)) then
      some .nameTooLong
    else if t.get? p.place = some .directory then some .isDirectory
    else none

/-- The directory of a test. -/
def directoryOf (r : Resolved) (source : Path) : Path :=
  (targetOf r source).parent.getD Path.empty

/-- What becomes of a source. -/
inductive Fate where
  /-- There is something at its destination, and it stays. -/
  | kept
  /-- It cannot be read. -/
  | unread (cause : IoError)
  /-- The directories for its test cannot be made. -/
  | blocked (cause : IoError)
  /-- Its test cannot be written. -/
  | refused (cause : IoError)
  /-- Its test is written. -/
  | written (contents : ByteArray)

/-- What is reported of a source. -/
def Fate.outcome (r : Resolved) (source : Path) : Fate → Outcome
  | kept => .skipped source (targetOf r source)
  | unread cause => .failed (.read source cause)
  | blocked cause => .failed (.makeDirectory (directoryOf r source) cause)
  | refused cause => .failed (.write (targetOf r source) cause)
  | written _ => .generated source (targetOf r source)

/-- What becomes of a source, told from the tree it is processed in. -/
def fate (r : Resolved) (policy : WritePolicy) (t : FileTree) (source : Path) : Fate :=
  if policy = .skipExisting ∧ t.exists? (targetOf r source) then .kept
  else
    match t.readText source with
    | .error cause => .unread cause
    | .ok text =>
      match t.obstacle (directoryOf r source) with
      | some cause => .blocked cause
      | none =>
        match t.refusal (targetOf r source) with
        | some cause => .refused cause
        | none => .written (documentOf r source text)

/-- How far directories are made for the test of a source. -/
def reachOf (r : Resolved) (policy : WritePolicy) (t : FileTree) (source : Path) : Place :=
  match fate r policy t source with
  | .kept => []
  | .unread _ => []
  | _ => t.reach (directoryOf r source)

/-- What processing a source leaves of a tree. -/
structure Leaves (r : Resolved) (policy : WritePolicy) (t : FileTree) (source : Path)
    (t' : FileTree) : Prop where
  written : ∀ contents, fate r policy t source = .written contents →
    t'.get? (targetOf r source).place = some (.file contents)
  others : ∀ q, (∀ contents, fate r policy t source = .written contents →
      q ≠ (targetOf r source).place) →
    t'.get? q = if t.get? q = none ∧ q <+: reachOf r policy t source then some .directory
      else t.get? q
  way : ∀ q, q <+: reachOf r policy t source → t'.get? q = some .directory

/-! ### Replacing a file -/

namespace FileTree

variable {t t' : FileTree}

section Replace

variable {site : Site} {contents : ByteArray}

theorem refusal_target : t.refusal site.target.path
    = match site.temporary.path.fault with
      | some e => some e
      | none =>
        if maxName < byteLength (temporaryName site.name) then some .nameTooLong
        else if t.get? site.target.names = some .directory then some .isDirectory
        else none := by
  rw [refusal, site.temporaryPath_target, place_path, place_path, site.names_temporary,
    List.getLast?_concat]
  simp only [Option.any_some, decide_eq_true_eq]

/-- Where a temporary file cannot be written nothing happens. -/
theorem replaceFile_of_locate_error {cause : IoError}
    (h : ∀ purpose, t.locate purpose site.temporary.path = .error cause) :
    replaceFile t site.target.path contents = (t, .error (.write site.target.path cause)) := by
  have hwrite : t.writeFile site.temporary.path contents = .error cause := by
    rw [writeFile, h]
  have hremove : t.removeFile site.temporary.path = .error cause := by
    rw [removeFile, h]
  rw [replaceFile, site.temporaryPath_target]
  simp only [hwrite, hremove]

/-- What a look-up finds at a site while the temporary file is there. -/
theorem locate_beside_temporary (hlink : t.LinkFree) (hclosed : t.IsClosed)
    (hclear : (t.passage [] site.directory.names).2 = none)
    (hdir : t.get? site.directory.names = some .directory)
    (hfree : t.get? site.temporary.names = none) (hfault : site.temporary.path.fault = none)
    (hshort : ¬ maxName < byteLength (temporaryName site.name)) :
    (t.put site.temporary.names (.file contents)).locate .itself site.temporary.path
        = .ok (.entry site.temporary.names (.file contents))
      ∧ (t.put site.temporary.names (.file contents)).locate .itself site.target.path
        = match t.get? site.target.names with
          | none => .ok (.free site.target.names)
          | some e => .ok (.entry site.target.names e) := by
  have hplace : site.temporary.names ≠ [] := ne_root_of_get? (by rw [hfree]; simp)
  -- the temporary file is in nobody's way: it is neither the directory nor above it
  have hview := fun q => get?_put t site.temporary.names q (.file contents) hplace
  have hlink₁ : (t.put site.temporary.names (.file contents)).LinkFree := put_linkFree hplace hlink
  have hclosed₁ : (t.put site.temporary.names (.file contents)).IsClosed :=
    put_isClosed hclosed hdir hfree
  have hdir₁ : (t.put site.temporary.names (.file contents)).get? site.directory.names
      = some .directory := by
    rw [hview, if_neg (site.ne_temporary List.prefix_rfl), hdir]
  have hclear₁ : ((t.put site.temporary.names (.file contents)).passage []
      site.directory.names).2 = none := by
    rw [passage_congr (t := t) fun q hq => by rw [hview, if_neg (site.ne_temporary hq)], hclear]
  have htemporary := locate_child hlink₁ hclosed₁ site.names_temporary hclear₁ hdir₁ .itself
  have htarget := locate_child hlink₁ hclosed₁ site.names_target hclear₁ hdir₁ .itself
  rw [hfault] at htemporary
  rw [site.fault_target hfault] at htarget
  simp only [if_neg hshort, hview, if_true] at htemporary
  simp only [if_neg (site.short_name hshort), hview, if_neg site.target_ne_temporary] at htarget
  exact ⟨htemporary, htarget⟩

/-- The tree with the test, after the temporary file was put and taken away. -/
theorem get?_moved (hfree : t.get? site.temporary.names = none) (q : Place) :
    (((t.put site.temporary.names (.file contents)).erase site.temporary.names).put
        site.target.names (.file contents)).get? q
      = if q = site.target.names then some (.file contents) else t.get? q := by
  have hplace : site.temporary.names ≠ [] := ne_root_of_get? (by rw [hfree]; simp)
  rw [get?_put _ _ _ _ (by rw [site.names_target]; simp), get?_erase _ _ _ hplace,
    get?_put _ _ _ _ hplace]
  split_ifs with hq hq'
  · rfl
  · rw [hq', hfree]
  · rfl

/-- The tree without the temporary file that was put into it. -/
theorem get?_cleaned (hfree : t.get? site.temporary.names = none) (q : Place) :
    ((t.put site.temporary.names (.file contents)).erase site.temporary.names).get? q
      = t.get? q := by
  have hplace : site.temporary.names ≠ [] := ne_root_of_get? (by rw [hfree]; simp)
  rw [get?_erase _ _ _ hplace, get?_put _ _ _ _ hplace]
  split_ifs with hq
  · rw [hq, hfree]
  · rfl

/-- A test is written as soon as the temporary file is there and nothing refuses it. -/
theorem replaceFile_site (hlink : t.LinkFree) (hclosed : t.IsClosed)
    (hclear : (t.passage [] site.directory.names).2 = none)
    (hdir : t.get? site.directory.names = some .directory)
    (hfree : t.get? site.temporary.names = none) :
    match t.refusal site.target.path with
    | some cause => (replaceFile t site.target.path contents).2
          = .error (.write site.target.path cause)
        ∧ ∀ q, (replaceFile t site.target.path contents).1.get? q = t.get? q
    | none => (replaceFile t site.target.path contents).2 = .ok ()
        ∧ ∀ q, (replaceFile t site.target.path contents).1.get? q
          = if q = site.target.names then some (.file contents) else t.get? q := by
  have htemporary := locate_child hlink hclosed site.names_temporary hclear hdir
  rw [refusal_target]
  rcases hfault : site.temporary.path.fault with - | cause
  · rw [hfault] at htemporary
    simp only at htemporary ⊢
    by_cases hlong : maxName < byteLength (temporaryName site.name)
    · rw [if_pos hlong]
      simp only [if_pos hlong] at htemporary
      rw [replaceFile_of_locate_error htemporary]
      exact ⟨rfl, fun _ => rfl⟩
    · simp only [if_neg hlong, hfree] at htemporary ⊢
      obtain ⟨hsource, htarget⟩ :=
        @locate_beside_temporary t site contents hlink hclosed hclear hdir hfree hfault hlong
      rw [replaceFile, site.temporaryPath_target, writeFile, htemporary]
      simp only
      rw [move, if_neg site.target_without_slash, removeFile, hsource, htarget]
      -- only a directory at the destination keeps the file from being moved there
      rcases hget : t.get? site.target.names with - | ⟨old | - | link⟩
      · simp only [reduceCtorEq, if_false]
        exact ⟨trivial, get?_moved hfree⟩
      · simp only [Option.some.injEq, reduceCtorEq, if_false]
        exact ⟨trivial, get?_moved hfree⟩
      · simp only [if_true]
        exact ⟨trivial, get?_cleaned hfree⟩
      · exact absurd hget (hlink _ _)
  · rw [hfault] at htemporary
    simp only at htemporary ⊢
    rw [replaceFile_of_locate_error htemporary]
    exact ⟨rfl, fun _ => rfl⟩

end Replace

/-- **When there is something at a site.** -/
theorem exists?_target (hlink : t.LinkFree) (hclosed : t.IsClosed) (site : Site) :
    t.exists? site.target.path = true
      ↔ site.target.path.IsUsable ∧ (t.get? site.target.names).isSome := by
  -- at the root every `..` stays there
  have hups : t.Opens [] (List.replicate site.directory.ups ['.', '.'])
      ∧ placeFrom [] (List.replicate site.directory.ups ['.', '.']) = [] := by
    induction site.directory.ups with
    | zero => exact ⟨trivial, rfl⟩
    | succ k ih => exact ⟨⟨t.get?_root, ih.1⟩, ih.2⟩
  have hsteps : site.target.path.steps
      = List.replicate site.directory.ups ['.', '.'] ++ site.target.names := by
    rw [NormalForm.path, steps_ofSegments (by simp [NormalForm.segments, site.names_target])
      site.target.isSegment_segments]
    rfl
  rw [exists?, Option.isSome_iff_exists]
  simp only [entryAt?_eq_some hlink, place_path]
  constructor
  · rintro ⟨e, hp, -, he⟩
    exact ⟨hp, Option.isSome_iff_exists.mpr ⟨e, he⟩⟩
  · rintro ⟨hp, hthere⟩
    obtain ⟨e, he⟩ := Option.isSome_iff_exists.mp hthere
    refine ⟨e, hp, ?_, he⟩
    rw [hsteps, opens_append, hups.2]
    exact ⟨hups.1, opens_of_closed hclosed site.target.isName hthere⟩

end FileTree

/-! ### Processing -/

section Process

variable {r : Resolved} {policy : WritePolicy} {t t' : FileTree} {source : Path} {site : Site}

theorem directoryOf_site (h : targetOf r source = site.target.path) :
    directoryOf r source = site.directory.path := by
  rw [directoryOf, h, site.parent_target]
  rfl

/-- For a source that is read directories are made as far as they can be. -/
theorem reachOf_of_read {text : String}
    (hkept : ¬ (policy = .skipExisting ∧ t.exists? (targetOf r source) = true))
    (hread : t.readText source = .ok text) :
    reachOf r policy t source = t.reach (directoryOf r source) := by
  rw [reachOf, fate, if_neg hkept, hread]
  rcases t.obstacle (directoryOf r source) with - | cause
  · rcases t.refusal (targetOf r source) with - | cause <;> rfl
  · rfl

theorem reachOf_isPrefix (h : targetOf r source = site.target.path) :
    reachOf r policy t source <+: site.directory.names := by
  rw [reachOf]
  split
  · exact List.nil_prefix
  · exact List.nil_prefix
  · rw [directoryOf_site h]
    exact reach_isPrefix _ _

/-- What is left where nothing is written: directories, as far as they are made. -/
theorem Leaves.of_made (hnot : ∀ contents, fate r policy t source ≠ .written contents)
    (h : t.Made t' (reachOf r policy t source)) : Leaves r policy t source t' :=
  ⟨fun contents hw => absurd hw (hnot contents), fun q _ => h.view q, h.way⟩

/-- Writing a document fails for what is in the way of its directories or of itself. -/
theorem writeDocument_site (hlink : t.LinkFree) (hclosed : t.IsClosed)
    (hfree : t.get? site.temporary.names = none) (text : String) :
    match t.obstacle site.directory.path with
    | some cause => (writeDocument t site.target.path text).2
          = .error (.makeDirectory site.directory.path cause)
        ∧ t.Made (writeDocument t site.target.path text).1 (t.reach site.directory.path)
    | none =>
      match t.refusal site.target.path with
      | some cause => (writeDocument t site.target.path text).2
            = .error (.write site.target.path cause)
          ∧ t.Made (writeDocument t site.target.path text).1 (t.reach site.directory.path)
      | none => (writeDocument t site.target.path text).2 = .ok ()
          ∧ ∃ t₁, t.Made t₁ (t.reach site.directory.path)
            ∧ ∀ q, (writeDocument t site.target.path text).1.get? q
              = if q = site.target.names then some (.file text.toUTF8) else t₁.get? q := by
  obtain ⟨hresult, hmade⟩ := makeDirectories_path hlink hclosed site.directory
  rw [writeDocument, site.parent_target]
  simp only
  rcases hmake : t.makeDirectories site.directory.path with ⟨t₁, made⟩
  rw [hmake] at hresult hmade
  rcases hobstacle : t.obstacle site.directory.path with - | cause
  · rw [hobstacle] at hresult
    obtain rfl : made = .ok () := hresult
    obtain ⟨hclear, hreach⟩ := clear_of_obstacle hobstacle
    rw [hreach] at hmade ⊢
    -- neither the test nor the temporary file is on the way to its directory
    have hsame : ∀ {q}, ¬ q <+: site.directory.names → t₁.get? q = t.get? q := by
      intro q hq
      rw [hmade.view, if_neg (fun h => hq h.2)]
    have hrefusal : t₁.refusal site.target.path = t.refusal site.target.path := by
      rw [refusal_target, refusal_target,
        hsame fun h => site.ne_target h rfl]
    have hclear₁ : (t₁.passage [] site.directory.names).2 = none := by
      rw [passage_congr fun q _ => hmade.adds.any_isFile q, hclear]
    have hfree₁ : t₁.get? site.temporary.names = none := by
      rw [hsame fun h => site.ne_temporary h rfl, hfree]
    have hreplace := @replaceFile_site t₁ site text.toUTF8 (hmade.adds.linkFree hlink)
      (hmade.isClosed hclosed) hclear₁ (hmade.way _ List.prefix_rfl) hfree₁
    rw [hrefusal] at hreplace
    -- refused or not, the directories are there
    rcases hrefused : t.refusal site.target.path with - | cause
    · rw [hrefused] at hreplace
      exact ⟨hreplace.1, t₁, hmade, hreplace.2⟩
    · rw [hrefused] at hreplace
      refine ⟨hreplace.1, ?_, ?_⟩
      · intro q
        rw [hreplace.2, hmade.view]
      · intro q hq
        rw [hreplace.2, hmade.way q hq]
  · rw [hobstacle] at hresult
    obtain rfl : made = .error cause := hresult
    exact ⟨rfl, hmade⟩

/-- **A source comes to what can be told in advance.** -/
theorem processUnit_fate (hlink : t.LinkFree) (hclosed : t.IsClosed)
    (hsite : targetOf r source = site.target.path) (hfree : t.get? site.temporary.names = none) :
    (processUnit r policy false t source).outcome = (fate r policy t source).outcome r source
      ∧ Leaves r policy t source (processUnit r policy false t source).tree := by
  have hroot : t.Made t [] := .of_directory hclosed t.get?_root
  -- the cases of `fate`, one by one; only the last two touch the tree
  by_cases hkept : policy = .skipExisting ∧ t.exists? (targetOf r source) = true
  · have hfate : fate r policy t source = .kept := by rw [fate, if_pos hkept]
    obtain ⟨htree, houtcome⟩ := processUnit_of_kept hkept false
    rw [htree, houtcome]
    refine ⟨by rw [hfate]; rfl, .of_made (by simp [hfate]) ?_⟩
    rw [reachOf, hfate]
    exact hroot
  · rcases hread : t.readText source with cause | text
    · have hfate : fate r policy t source = .unread cause := by rw [fate, if_neg hkept, hread]
      obtain ⟨htree, houtcome⟩ := processUnit_of_unread hkept hread false
      rw [htree, houtcome]
      refine ⟨by rw [hfate]; rfl, .of_made (by simp [hfate]) ?_⟩
      rw [reachOf, hfate]
      exact hroot
    · obtain ⟨doc, hdoc, -, htree, houtcome⟩ := processUnit_of_read hkept hread
      have hwrite := @writeDocument_site t site hlink hclosed hfree doc
      have hfate : fate r policy t source
          = match t.obstacle (directoryOf r source) with
            | some cause => .blocked cause
            | none =>
              match t.refusal (targetOf r source) with
              | some cause => .refused cause
              | none => .written (documentOf r source text) := by
        rw [fate, if_neg hkept, hread]
      have hdirectory := directoryOf_site hsite
      rw [← hsite, ← hdirectory] at hwrite
      rw [houtcome, htree]
      rcases hobstacle : t.obstacle (directoryOf r source) with - | cause
      · rw [hobstacle] at hwrite hfate
        rcases hrefusal : t.refusal (targetOf r source) with - | cause
        · rw [hrefusal] at hwrite hfate
          obtain ⟨hok, t₁, hmade, hview⟩ := hwrite
          have hreach : reachOf r policy t source = t.reach (directoryOf r source) := by
            rw [reachOf, hfate]
          have hplace : (targetOf r source).place = site.target.names := by
            rw [hsite, place_path]
          refine ⟨by rw [hok, hfate]; rfl, ?_, ?_, ?_⟩
          · intro contents hcontents
            obtain rfl := Fate.written.inj (hfate.symm.trans hcontents)
            rw [hplace, hview, if_pos rfl, hdoc]
          · intro q hq
            rw [hview, if_neg (hplace ▸ hq _ hfate), hmade.view, hreach]
          · -- the test is below its directories, so it is none of them
            intro q hq
            rw [hview, if_neg (site.ne_target (hq.trans (reachOf_isPrefix hsite))),
              hmade.way q (hreach ▸ hq)]
        · rw [hrefusal] at hwrite hfate
          refine ⟨by rw [hwrite.1, hfate]; rfl, .of_made (by simp [hfate]) ?_⟩
          rw [reachOf, hfate]
          exact hwrite.2
      · rw [hobstacle] at hwrite hfate
        refine ⟨by rw [hwrite.1, hfate]; rfl, .of_made (by simp [hfate]) ?_⟩
        rw [reachOf, hfate]
        exact hwrite.2

/-! ### What is left -/

/-- An entry that a source leaves is the test, a directory where nothing stood, or as it was. -/
theorem Leaves.cases (h : Leaves r policy t source t') (q : Place) :
    (∃ contents, fate r policy t source = .written contents ∧ q = (targetOf r source).place
        ∧ t'.get? q = some (.file contents))
      ∨ t.get? q = none ∧ q <+: reachOf r policy t source ∧ t'.get? q = some .directory
      ∨ t'.get? q = t.get? q := by
  by_cases hwritten : ∃ contents, fate r policy t source = .written contents
      ∧ q = (targetOf r source).place
  · obtain ⟨contents, hfate, rfl⟩ := hwritten
    exact .inl ⟨contents, hfate, rfl, h.written contents hfate⟩
  · have hview := h.others q fun contents hfate hq => hwritten ⟨contents, hfate, hq⟩
    by_cases hmade : t.get? q = none ∧ q <+: reachOf r policy t source
    · rw [if_pos hmade] at hview
      exact .inr (.inl ⟨hmade.1, hmade.2, hview⟩)
    · rw [if_neg hmade] at hview
      exact .inr (.inr hview)

end Process

end Scaffold

/-
Scaffold/Proofs/Settings/Location.lean

Only the document that is chosen matters.

A location of a project is silent when there is no file, or when the document
there has no section for settings; the search goes on behind it, and otherwise
it ends there, with settings or with what is wrong (`discoverIn_cons`).  So two
searches come to the same if their locations are silent up to one where both
find the same, and it is not silent, or nothing is behind it
(`discoverIn_congr`).

The locations of a project are the three of `settingsLocations`, of which only
the last can be silent with a file in it.  `SameChoice` lists what two trees have
to share so that a project in the one is set up as in the other, and
`Chosen` what the document that is chosen says: its error is that of the run,
and its settings are the only ones that are laid under those from the command
line.  What is behind it, and whether it could be read, does not come in.  A
document that is given is read where its path leads from the working directory,
so the root of the project has no part in it at all.
-/
import Scaffold.Proofs.FileTree.Lookup
import Scaffold.Settings.Location

namespace Scaffold

open FileTree

/-! ### Documents -/

namespace FileTree

/-- There is a file with the same contents in both trees. -/
def SameFile (t t' : FileTree) (p : Path) : Prop :=
  ∃ contents, t.entryAt? p = some (.file contents) ∧ t'.entryAt? p = some (.file contents)

/-- There is a file in neither tree. -/
def NeitherFile (t t' : FileTree) (p : Path) : Prop := t.isFile p = false ∧ t'.isFile p = false

/-- There is a file that is valid JSON. -/
def HoldsJson (t : FileTree) (p : Path) (v : Json) : Prop :=
  ∃ text, t.readText p = .ok text ∧ Json.parse text = some v

variable {t t' : FileTree} {p : Path}

theorem isFile_of_entryAt? {contents : ByteArray} (h : t.entryAt? p = some (.file contents)) :
    t.isFile p = true := by
  rw [isFile, h]
  rfl

/-- What is read from a file depends on its contents only. -/
theorem readText_of_file {contents : ByteArray} (h : t.entryAt? p = some (.file contents)) :
    t.readText p = (String.fromUTF8? contents).elim (.error .notText) .ok := by
  rw [entryAt?] at h
  split at h
  · next place e hloc =>
    obtain rfl := Option.some.inj h
    rw [readText, hloc]
    rcases htext : String.fromUTF8? contents <;> simp only [htext] <;> rfl
  · cases h

theorem SameFile.readText_eq (h : SameFile t t' p) : t.readText p = t'.readText p := by
  obtain ⟨contents, hfile, hfile'⟩ := h
  rw [readText_of_file hfile, readText_of_file hfile']

theorem SameFile.isFile_left (h : SameFile t t' p) : t.isFile p = true := by
  obtain ⟨contents, hfile, -⟩ := h
  exact isFile_of_entryAt? hfile

theorem SameFile.isFile_right (h : SameFile t t' p) : t'.isFile p = true := by
  obtain ⟨contents, -, hfile⟩ := h
  exact isFile_of_entryAt? hfile

theorem HoldsJson.isFile {v : Json} (h : t.HoldsJson p v) : t.isFile p = true := by
  obtain ⟨text, hread, -⟩ := h
  obtain ⟨contents, hfile, -⟩ := readText_eq_ok hread
  exact isFile_of_entryAt? hfile

theorem HoldsJson.readDocument_eq {v : Json} (h : t.HoldsJson p v) (shown : Path) :
    readDocument t p shown = .ok v := by
  obtain ⟨text, hread, hparse⟩ := h
  rw [readDocument, hread]
  simp only [hparse]

end FileTree

section Documents

variable {t t' : FileTree} {p shown : Path}

theorem readDocument_congr (h : t.readText p = t'.readText p) :
    readDocument t p shown = readDocument t' p shown := by
  rw [readDocument, readDocument, h]

theorem loadDocument_congr (h : t.readText p = t'.readText p) :
    loadDocument t p shown = loadDocument t' p shown := by
  rw [loadDocument, loadDocument, readDocument_congr h]

end Documents

/-! ### The search -/

/-- The document of a name in a project. -/
def documentIn (root : Path) (name : String) : Path := root.join (Path.ofString name)

/-- Where that document is, for a program that runs in `here`. -/
def fileIn (here root : Path) (name : String) : Path := here.join (documentIn root name)

/-- What of a document is settings: a section of it, or all of it without a key. -/
def sectionOf (key : Option String) (document : Json) : Option Json :=
  match key with
  | none => some document
  | some key => document.member? key

/-- What a location holds: settings, nothing if it is silent, or the reason it cannot be read. -/
def settingsAt (t : FileTree) (here root : Path) (l : String × Option String) :
    Except Failure (Option Json) :=
  if t.isFile (fileIn here root l.1) then
    (readDocument t (fileIn here root l.1) (documentIn root l.1)).map (sectionOf l.2)
  else .ok none

/-- What the search comes to at a location that is not silent. -/
def verdict (p : Path) (v : Json) : Except Failure (Option (Settings × Path)) :=
  (checkedSettings v p).map fun s => some (s, p)

section Search

variable {t t' : FileTree} {here root : Path} {name : String} {key : Option String}
  {l : String × Option String} {before after ls : List (String × Option String)}

theorem settingsAt_of_file (h : t.isFile (fileIn here root name) = true) :
    settingsAt t here root (name, key)
      = (readDocument t (fileIn here root name) (documentIn root name)).map (sectionOf key) := by
  rw [settingsAt, if_pos h]

theorem settingsAt_of_not_file (h : t.isFile (fileIn here root name) = false) :
    settingsAt t here root (name, key) = .ok none := by
  rw [settingsAt, h, if_neg Bool.false_ne_true]

/-- One step of the search. -/
theorem discoverIn_cons (t : FileTree) (here root : Path) (l : String × Option String)
    (ls : List (String × Option String)) :
    discoverIn t here root (l :: ls) = settingsAt t here root l >>= fun found =>
      found.elim (discoverIn t here root ls) (verdict (documentIn root l.1)) := by
  obtain ⟨name, key⟩ := l
  have hdocument : root.join (Path.ofString name) = documentIn root name := rfl
  have hfile : here.join (documentIn root name) = fileIn here root name := rfl
  simp only [discoverIn, hdocument, hfile]
  cases hfile : t.isFile (fileIn here root name) with
  | false =>
    rw [settingsAt_of_not_file hfile, if_neg Bool.false_ne_true]
    rfl
  | true =>
    rw [settingsAt_of_file hfile, if_pos rfl]
    rcases readDocument t (fileIn here root name) (documentIn root name) with e | document
    · rfl
    · rcases key with - | key
      · rfl
      · simp only [sectionOf, Except.map, bind, Except.bind]
        rcases document.member? key <;> rfl

/-- The search goes on behind silent locations. -/
theorem discoverIn_append_of_silent (h : ∀ m ∈ before, settingsAt t here root m = .ok none) :
    discoverIn t here root (before ++ ls) = discoverIn t here root ls := by
  induction before with
  | nil => rfl
  | cons m before ih =>
    obtain ⟨hm, hbefore⟩ := List.forall_mem_cons.mp h
    rw [List.cons_append, discoverIn_cons, hm]
    exact ih hbefore

/-- **The search ends at the first location that is not silent.** -/
theorem discoverIn_congr (h : ∀ m ∈ before, settingsAt t here root m = .ok none)
    (h' : ∀ m ∈ before, settingsAt t' here root m = .ok none)
    (hsame : settingsAt t here root l = settingsAt t' here root l)
    (hend : settingsAt t here root l ≠ .ok none ∨ after = []) :
    discoverIn t here root (before ++ l :: after)
      = discoverIn t' here root (before ++ l :: after) := by
  rw [discoverIn_append_of_silent h, discoverIn_append_of_silent h', discoverIn_cons,
    discoverIn_cons, ← hsame]
  rcases hl : settingsAt t here root l with e | - | v
  · rfl
  · obtain rfl := hend.resolve_left (not_not_intro hl)
    rfl
  · rfl

end Search

/-! ### Settings of a project -/

/-- What two trees have to share where the settings of a project are looked for: in a given
document, or in its locations. -/
inductive SameChoice (t t' : FileTree) (here root : Path) : Option Path → Prop
  | given {p : Path} (read : t.readText (here.join p) = t'.readText (here.join p)) :
    SameChoice t t' here root (some p)
  | first (same : SameFile t t' (fileIn here root ".testsmithrc.json")) :
    SameChoice t t' here root none
  | second (noFirst : NeitherFile t t' (fileIn here root ".testsmithrc.json"))
    (same : SameFile t t' (fileIn here root "testsmith.config.json")) :
    SameChoice t t' here root none
  | third (noFirst : NeitherFile t t' (fileIn here root ".testsmithrc.json"))
    (noSecond : NeitherFile t t' (fileIn here root "testsmith.config.json"))
    {v v' : Json} (holds : t.HoldsJson (fileIn here root "package.json") v)
    (holds' : t'.HoldsJson (fileIn here root "package.json") v')
    (same : v.member? "testsmith" = v'.member? "testsmith") :
    SameChoice t t' here root none

/-- The document whose settings count, and what they come to: the given document; or the first
location with a file in it, if settings are the whole of that document, if it cannot be read, or if
it has the section. -/
inductive Chosen (t : FileTree) (here root : Path) :
    Option Path → Path → Except Failure Settings → Prop
  | given (p : Path) : Chosen t here root (some p) p (loadDocument t (here.join p) p)
  | whole {before after : List (String × Option String)} {name : String}
    (listed : settingsLocations = before ++ (name, none) :: after)
    (noOther : ∀ m ∈ before, t.isFile (fileIn here root m.1) = false)
    (isFile : t.isFile (fileIn here root name) = true) :
    Chosen t here root none (documentIn root name)
      (loadDocument t (fileIn here root name) (documentIn root name))
  | unreadable {before after : List (String × Option String)} {name key : String} {e : Failure}
    (listed : settingsLocations = before ++ (name, some key) :: after)
    (noOther : ∀ m ∈ before, t.isFile (fileIn here root m.1) = false)
    (isFile : t.isFile (fileIn here root name) = true)
    (read : readDocument t (fileIn here root name) (documentIn root name) = .error e) :
    Chosen t here root none (documentIn root name) (.error e)
  | part {before after : List (String × Option String)} {name key : String} {document v : Json}
    (listed : settingsLocations = before ++ (name, some key) :: after)
    (noOther : ∀ m ∈ before, t.isFile (fileIn here root m.1) = false)
    (holds : t.HoldsJson (fileIn here root name) document)
    (hasSection : document.member? key = some v) :
    Chosen t here root none (documentIn root name) (checkedSettings v (documentIn root name))

section Project

variable {t t' : FileTree} {here root p : Path} {name : String} {key : Option String}
  {before after : List (String × Option String)}

/-- A whole document is never silent. -/
theorem settingsAt_ne_silent (h : t.isFile (fileIn here root name) = true) :
    settingsAt t here root (name, none) ≠ .ok none := by
  rw [settingsAt_of_file h]
  rcases readDocument t (fileIn here root name) (documentIn root name) <;> nofun

theorem settingsAt_of_holdsJson {v : Json} (h : t.HoldsJson (fileIn here root name) v) :
    settingsAt t here root (name, key) = .ok (sectionOf key v) := by
  rw [settingsAt_of_file h.isFile, h.readDocument_eq]
  rfl

theorem settingsAt_of_sameFile (h : SameFile t t' (fileIn here root name)) :
    settingsAt t here root (name, key) = settingsAt t' here root (name, key) := by
  rw [settingsAt_of_file h.isFile_left, settingsAt_of_file h.isFile_right,
    readDocument_congr h.readText_eq]

theorem discoverSettings_congr (listed : settingsLocations = before ++ (name, key) :: after)
    (hneither : ∀ m ∈ before, NeitherFile t t' (fileIn here root m.1))
    (hsame : settingsAt t here root (name, key) = settingsAt t' here root (name, key))
    (hend : settingsAt t here root (name, key) ≠ .ok none ∨ after = []) :
    discoverSettings t root here = discoverSettings t' root here := by
  rw [discoverSettings, discoverSettings, listed]
  exact discoverIn_congr (fun m hm => settingsAt_of_not_file (hneither m hm).1)
    (fun m hm => settingsAt_of_not_file (hneither m hm).2) hsame hend

/-- The locations of a project are searched to the same end. -/
theorem SameChoice.discoverSettings_eq (h : SameChoice t t' here root none) :
    discoverSettings t root here = discoverSettings t' root here := by
  cases h with
  | first same =>
    have listed : settingsLocations = [] ++ (".testsmithrc.json", none) ::
      [("testsmith.config.json", none), ("package.json", some "testsmith")] := rfl
    exact discoverSettings_congr listed (by simp) (settingsAt_of_sameFile same)
      (.inl (settingsAt_ne_silent same.isFile_left))
  | second noFirst same =>
    have listed : settingsLocations = [(".testsmithrc.json", none)]
      ++ ("testsmith.config.json", none) :: [("package.json", some "testsmith")] := rfl
    exact discoverSettings_congr listed (List.forall_mem_singleton.mpr noFirst)
      (settingsAt_of_sameFile same) (.inl (settingsAt_ne_silent same.isFile_left))
  | third noFirst noSecond holds holds' same =>
    have listed : settingsLocations = [(".testsmithrc.json", none), ("testsmith.config.json", none)]
      ++ ("package.json", some "testsmith") :: [] := rfl
    -- without the section both are silent there, and nothing is behind it
    refine discoverSettings_congr listed
      (List.forall_mem_cons.mpr ⟨noFirst, List.forall_mem_singleton.mpr noSecond⟩) ?_ (.inr rfl)
    rw [settingsAt_of_holdsJson holds, settingsAt_of_holdsJson holds']
    exact congrArg Except.ok same

/-- **The settings are loaded from the document that is chosen, and from nothing else.** -/
theorem SameChoice.loadSettings_eq {document : Option Path}
    (h : SameChoice t t' here root document) :
    loadSettings t here root document = loadSettings t' here root document := by
  cases document with
  | none => rw [loadSettings, loadSettings, h.discoverSettings_eq]
  | some p =>
    cases h with
    | given read => rw [loadSettings, loadSettings, loadDocument_congr read]

section Found

variable (listed : settingsLocations = before ++ (name, key) :: after)
  (noOther : ∀ m ∈ before, t.isFile (fileIn here root m.1) = false)

include listed noOther

theorem discoverSettings_eq :
    discoverSettings t root here = discoverIn t here root ((name, key) :: after) := by
  rw [discoverSettings, listed]
  exact discoverIn_append_of_silent fun m hm => settingsAt_of_not_file (noOther m hm)

theorem loadSettings_of_unread {e : Failure} (h : settingsAt t here root (name, key) = .error e) :
    loadSettings t here root none = .error e := by
  rw [loadSettings, discoverSettings_eq listed noOther, discoverIn_cons, h]
  rfl

theorem loadSettings_of_found {v : Json} (h : settingsAt t here root (name, key) = .ok (some v)) :
    loadSettings t here root none = (checkedSettings v (documentIn root name)).map
      fun s => (s, some (documentIn root name)) := by
  have hverdict : discoverSettings t root here = verdict (documentIn root name) v := by
    rw [discoverSettings_eq listed noOther, discoverIn_cons, h]
    rfl
  rw [loadSettings, hverdict, verdict]
  rcases checkedSettings v (documentIn root name) <;> rfl

end Found

theorem Chosen.loadSettings_eq {document : Option Path} {chosen : Except Failure Settings}
    (h : Chosen t here root document p chosen) :
    loadSettings t here root document = chosen.map fun s => (s, some p) := by
  cases h with
  | given => rw [loadSettings]
  | @whole before after name listed noOther isFile =>
    have hsettings : settingsAt t here root (name, none)
        = (readDocument t (fileIn here root name) (documentIn root name)).map some :=
      settingsAt_of_file isFile
    rw [loadDocument]
    rcases hread : readDocument t (fileIn here root name) (documentIn root name) with e | v
    · rw [hread] at hsettings
      exact loadSettings_of_unread listed noOther hsettings
    · rw [hread] at hsettings
      exact loadSettings_of_found listed noOther hsettings
  | unreadable listed noOther isFile read =>
    refine loadSettings_of_unread listed noOther ?_
    rw [settingsAt_of_file isFile, read]
    rfl
  | part listed noOther holds hasSection =>
    refine loadSettings_of_found listed noOther ?_
    rw [settingsAt_of_holdsJson holds, sectionOf, hasSection]

end Project

/-- **Only the document that is chosen matters**, wherever the program runs.  A project is set up in
the same way in every two trees that share it; and its error is that of the run, as its settings are
the only ones laid under those from the command line, whatever the documents behind it are. -/
theorem loadAndResolve_of_chosen (here root : Path) (document : Option Path) (upper : Settings) :
    (∀ t t' : FileTree, SameChoice t t' here root document →
      loadAndResolve t root document upper here = loadAndResolve t' root document upper here)
    ∧ (∀ (t : FileTree) (p : Path) (chosen : Except Failure Settings),
      Chosen t here root document p chosen →
        (∀ e, chosen = .error e → loadAndResolve t root document upper here = .error e)
        ∧ (∀ s, chosen = .ok s →
          loadAndResolve t root document upper here = resolveLoaded root upper (s, some p))) := by
  refine ⟨fun t t' h => ?_, fun t p chosen h => ⟨?_, ?_⟩⟩
  · rw [loadAndResolve, loadAndResolve, h.loadSettings_eq]
  · rintro e rfl
    rw [loadAndResolve, h.loadSettings_eq]
    rfl
  · rintro s rfl
    rw [loadAndResolve, h.loadSettings_eq]
    rfl

/-- A project in the root directory with settings that name an unknown framework, and whatever else
stands in the second location. -/
def projectBeside (second : String) : FileTree :=
  ⟨[([".testsmithrc.json".toList], .file "\x7b\"framework\": \"qunit\"\x7d".toUTF8),
    (["testsmith.config.json".toList], .file second.toUTF8)],
    (by decide : [[".testsmithrc.json".toList], ["testsmith.config.json".toList]].Nodup)⟩

/-- Valid settings behind the invalid ones are not looked at, nor is what is no JSON; and a document
that is given is read where the program runs, not in the root of the project. -/
theorem loadAndResolve_of_chosen_projectBeside :
    loadAndResolve (projectBeside "[]") (.ofString "/") none .unset (.ofString "/work")
        = loadAndResolve (projectBeside "[") (.ofString "/") none .unset (.ofString "/work")
      ∧ loadAndResolve (projectBeside "[]") (.ofString "/") none .unset (.ofString "/work")
        = .error (.invalidDocument (.ofString "/.testsmithrc.json")
            (.unknownFramework "qunit"))
      ∧ loadAndResolve (projectBeside "[]") (.ofString "/project")
          (some (.ofString ".testsmithrc.json")) .unset (.ofString "/")
        = .error (.invalidDocument (.ofString ".testsmithrc.json")
            (.unknownFramework "qunit")) := by
  obtain ⟨hsame, hchosen⟩ :=
    loadAndResolve_of_chosen (.ofString "/work") (.ofString "/") none .unset
  obtain ⟨-, hgiven⟩ := loadAndResolve_of_chosen (.ofString "/") (.ofString "/project")
    (some (.ofString ".testsmithrc.json")) .unset
  have hfile : ∀ second, (projectBeside second).entryAt? (fileIn (.ofString "/work")
      (.ofString "/") ".testsmithrc.json")
        = some (.file "\x7b\"framework\": \"qunit\"\x7d".toUTF8) :=
    fun _ => rfl
  have hload : ∀ shown, loadDocument (projectBeside "[]") (.ofString "/.testsmithrc.json") shown
      = .error (.invalidDocument shown (.unknownFramework "qunit")) :=
    fun _ => rfl
  have listed : settingsLocations = [] ++ (".testsmithrc.json", none) ::
    [("testsmith.config.json", none), ("package.json", some "testsmith")] := rfl
  have hwhole : Chosen (projectBeside "[]") (.ofString "/work") (.ofString "/") none _ _ :=
    .whole listed (by simp) (isFile_of_entryAt? (hfile _))
  exact ⟨hsame _ _ (.first ⟨_, hfile _, hfile _⟩), (hchosen _ _ _ hwhole).1 _ (hload _),
    (hgiven _ _ _ (.given _)).1 _ (hload _)⟩

end Scaffold

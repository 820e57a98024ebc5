/-
Scaffold/Proofs/Settings/Valid.lean

Which settings are valid, and what is wrong with others.

To validate settings is to choose their framework and to compile their patterns,
without keeping any of it (`Settings.validate_eq`).  So the two ways from
patterns to globs, that of validation and that of `Settings.resolve`, are one,
and what is known of `chooseFramework` and `compileAll` decides both:

* settings are valid if they name no unknown framework and each of their
  patterns compiles (`Settings.validate_eq_ok`);
* otherwise the error is the first thing that is wrong (`Settings.Fault`);
* invalid settings are resolved to the error of their validation, and valid ones
  are resolved, unless globs that each compile cannot be put together
  (`Settings.exists_resolve_iff`).

The last is left to the globs: `Assembles` says of patterns that it does not
happen.
-/
import Mathlib.Data.List.Forall2
import Scaffold.Proofs.Run.Sources

namespace Scaffold

/-! ### Checks in a row -/

section Checks

variable {ε α β : Type} {x : Except ε α} {f : α → Except ε β}

theorem bind_eq_ok {b : β} : x >>= f = .ok b ↔ ∃ a, x = .ok a ∧ f a = .ok b := by
  cases x <;> simp [bind, Except.bind]

/-- The first check that fails decides the error. -/
theorem bind_eq_error {e : ε} :
    x >>= f = .error e ↔ x = .error e ∨ ∃ a, x = .ok a ∧ f a = .error e := by
  cases x <;> simp [bind, Except.bind]

end Checks

/-! ### Frameworks -/

namespace Framework

theorem ofId?_eq_some {name : String} {f : Framework} : ofId? name = some f ↔ f.id = name := by
  constructor
  · intro h
    exact eq_of_beq (@List.find?_some _ (fun f : Framework => f.id == name) _ _ h)
  · rintro rfl
    exact ofId?_id f

theorem ofId?_eq_none {name : String} : ofId? name = none ↔ ∀ f : Framework, f.id ≠ name := by
  rw [Option.eq_none_iff_forall_ne_some]
  exact forall_congr' fun f => not_congr ofId?_eq_some

end Framework

section Frameworks

variable {named : Option String}

theorem chooseFramework_eq_ok {f : Framework} :
    chooseFramework named = .ok f ↔ f.id = named.getD "jest" := by
  rcases named with - | name
  · cases f <;> decide
  · rw [Option.getD_some, ← Framework.ofId?_eq_some, chooseFramework]
    rcases Framework.ofId? name with - | f' <;> simp

theorem chooseFramework_eq_error {e : SettingsError} :
    chooseFramework named = .error e ↔ ∃ name, named = some name ∧ (∀ f : Framework, f.id ≠ name)
      ∧ e = .unknownFramework name := by
  rcases named with - | name
  · exact ⟨nofun, nofun⟩
  · simp only [Option.some.injEq, exists_eq_left', ← Framework.ofId?_eq_none, chooseFramework]
    rcases Framework.ofId? name with - | f' <;> simp [eq_comm]

end Frameworks

/-! ### Patterns -/

/-- A pattern is that of a glob. -/
def Compiles (pattern : String) : Prop := ∃ g, Glob.compile pattern = .ok g

/-- Globs are those of patterns, one by one. -/
def Compiled (patterns : List String) (gs : List Glob) : Prop :=
  List.Forall₂ (fun p g => Glob.compile p = .ok g) patterns gs

/-- Globs of these patterns can be put together, if each of them compiles. -/
def Assembles (patterns : List String) : Prop :=
  ∀ gs, Compiled patterns gs → ∃ sel, Selection.ofGlobs gs = .ok sel

section Patterns

variable {use : PatternUse} {pattern : String} {patterns : List String}

theorem compileFor_eq_ok {g : Glob} :
    compileFor use pattern = .ok g ↔ Glob.compile pattern = .ok g := by
  rw [compileFor]
  rcases Glob.compile pattern <;> simp

theorem compileFor_eq_error {e : SettingsError} : compileFor use pattern = .error e
    ↔ ∃ cause, Glob.compile pattern = .error cause ∧ e = .invalidPattern use pattern cause := by
  rw [compileFor]
  rcases Glob.compile pattern <;> simp [eq_comm]

theorem compileAll_eq_ok {gs : List Glob} :
    compileAll use patterns = .ok gs ↔ Compiled patterns gs := by
  induction patterns generalizing gs with
  | nil => simp [compileAll, Compiled, eq_comm]
  | cons p ps ih =>
    rw [compileAll_cons, Compiled, List.forall₂_cons_left_iff]
    simp only [compileFor_eq_ok, ih]
    rfl

/-- The error of several patterns is that of the first that does not compile. -/
theorem compileAll_eq_error {e : SettingsError} : compileAll use patterns = .error e
    ↔ ∃ before p after cause, patterns = before ++ p :: after ∧ (∀ q ∈ before, Compiles q)
      ∧ Glob.compile p = .error cause ∧ e = .invalidPattern use p cause := by
  induction patterns with
  | nil => simp [compileAll]
  | cons p ps ih =>
    have hcons : compileAll use (p :: ps)
        = (compileFor use p >>= fun g => (compileAll use ps).map (g :: ·)) := by
      rw [compileAll]
      rcases compileFor use p <;> rfl
    have hmap : ∀ g, (compileAll use ps).map (g :: ·) = .error e
        ↔ compileAll use ps = .error e := by
      intro g
      rcases compileAll use ps <;> simp [Except.map]
    rw [hcons, bind_eq_error]
    simp only [hmap, ih, compileFor_eq_error, compileFor_eq_ok]
    constructor
    · rintro (⟨cause, hp, rfl⟩ | ⟨g, hg, before, q, after, cause, rfl, hbefore, hq, rfl⟩)
      · exact ⟨[], p, ps, cause, rfl, by simp, hp, rfl⟩
      · exact ⟨p :: before, q, after, cause, rfl, List.forall_mem_cons.mpr ⟨⟨g, hg⟩, hbefore⟩, hq,
          rfl⟩
    · rintro ⟨before, q, after, cause, hsplit, hbefore, hq, rfl⟩
      rcases before with - | ⟨b, before⟩
      · -- the first pattern does not compile
        obtain ⟨rfl, rfl⟩ := List.cons.inj hsplit
        exact .inl ⟨cause, hq, rfl⟩
      · -- a later one does not
        obtain ⟨rfl, rfl⟩ := List.cons.inj hsplit
        obtain ⟨⟨g, hg⟩, hbefore⟩ := List.forall_mem_cons.mp hbefore
        exact .inr ⟨g, hg, before, q, after, cause, rfl, hbefore, hq, rfl⟩

theorem exists_compiled_iff : (∃ gs, Compiled patterns gs) ↔ ∀ p ∈ patterns, Compiles p := by
  induction patterns with
  | nil => exact ⟨fun _ => by simp, fun _ => ⟨[], .nil⟩⟩
  | cons p ps ih =>
    rw [List.forall_mem_cons, ← ih]
    constructor
    · rintro ⟨gs, h⟩
      cases h with
      | cons hp hps => exact ⟨⟨_, hp⟩, _, hps⟩
    · rintro ⟨⟨g, hg⟩, gs, hgs⟩
      exact ⟨g :: gs, .cons hg hgs⟩

/-- What patterns select with: the globs they compile to, put together. -/
theorem select_eq_ok_iff {sel : Selection} : select use patterns = .ok sel
    ↔ Compiled patterns sel.globs ∧ Selection.ofGlobs sel.globs = .ok sel := by
  simp only [select_eq_ok, compileAll_eq_ok]
  constructor
  · rintro ⟨gs, hgs, hsel⟩
    obtain ⟨-, rfl⟩ := ofGlobs_eq_ok.mp hsel
    exact ⟨hgs, hsel⟩
  · rintro ⟨hgs, hsel⟩
    exact ⟨sel.globs, hgs, hsel⟩

theorem exists_select (h : Assembles patterns) :
    (∃ sel, select use patterns = .ok sel) ↔ ∀ p ∈ patterns, Compiles p := by
  rw [← exists_compiled_iff]
  constructor
  · rintro ⟨sel, hsel⟩
    exact ⟨sel.globs, (select_eq_ok_iff.mp hsel).1⟩
  · rintro ⟨gs, hgs⟩
    obtain ⟨sel, hsel⟩ := h gs hgs
    exact ⟨sel, select_eq_ok.mpr ⟨gs, compileAll_eq_ok.mpr hgs, hsel⟩⟩

/-- Patterns that a selection is made of can be put together. -/
theorem assembles_of_select (h : (select use patterns).toOption.isSome = true) :
    Assembles patterns := by
  intro gs hgs
  rcases hselect : select use patterns with e | sel
  · rw [hselect] at h
    cases h
  · obtain ⟨gs', hgs', hsel⟩ := select_eq_ok.mp hselect
    rw [compileAll_eq_ok.mpr hgs] at hgs'
    obtain rfl := Except.ok.inj hgs'
    exact ⟨sel, hsel⟩

/-- A path is selected if one of the patterns matches it. -/
theorem accepts_select {sel : Selection} (h : select use patterns = .ok sel) (path : List Char) :
    sel.accepts path = true
      ↔ ∃ p ∈ patterns, ∃ g, Glob.compile p = .ok g ∧ g.accepts path = true := by
  obtain ⟨gs⟩ := sel
  have hcompiled : Compiled patterns gs := (select_eq_ok_iff.mp h).1
  rw [Selection.accepts, List.any_eq_true]
  show (∃ g ∈ gs, g.accepts path = true) ↔ _
  clear h
  induction hcompiled with
  | nil => simp
  | @cons p g ps gs hp hps ih =>
    rw [List.exists_mem_cons_iff, List.exists_mem_cons_iff, ih]
    simp [hp]

/-- The selection of a single pattern is that of its glob. -/
theorem accepts_select_singleton {sel : Selection} (h : select use [pattern] = .ok sel) :
    ∃ g, Glob.compile pattern = .ok g ∧ ∀ path, sel.accepts path = g.accepts path := by
  have hcompiled := (select_eq_ok_iff.mp h).1
  obtain ⟨g, hg⟩ := exists_compiled_iff.mp ⟨_, hcompiled⟩ pattern List.mem_cons_self
  refine ⟨g, hg, fun path => Bool.eq_iff_iff.mpr ?_⟩
  rw [accepts_select h]
  simp [hg]

end Patterns

/-! ### Validation -/

namespace Settings

/-- Settings with nothing wrong. -/
structure IsValid (s : Settings) : Prop where
  framework : ∀ name, s.framework = some name → ∃ f : Framework, f.id = name
  pattern : ∀ p, s.pattern = some p → Compiles p
  exclude : ∀ p ∈ s.exclude, Compiles p

/-- The first thing that is wrong with settings: the framework is looked at before the include
pattern, and that before the exclude patterns from the front. -/
inductive Fault (s : Settings) : SettingsError → Prop
  | framework {name : String} (named : s.framework = some name)
    (unknown : ∀ f : Framework, f.id ≠ name) : Fault s (.unknownFramework name)
  | pattern {p : String} {cause : GlobError}
    (known : ∀ name, s.framework = some name → ∃ f : Framework, f.id = name)
    (set : s.pattern = some p) (bad : Glob.compile p = .error cause) :
    Fault s (.invalidPattern .include p cause)
  | exclude {before after : List String} {p : String} {cause : GlobError}
    (known : ∀ name, s.framework = some name → ∃ f : Framework, f.id = name)
    (compiles : ∀ p, s.pattern = some p → Compiles p)
    (listed : s.exclude = before ++ p :: after) (first : ∀ q ∈ before, Compiles q)
    (bad : Glob.compile p = .error cause) : Fault s (.invalidPattern .exclude p cause)

variable {s : Settings} {base : Path}

theorem checkAll_eq (ps : List String) :
    validate.checkAll ps = compileAll .exclude ps >>= fun _ => .ok () := by
  induction ps with
  | nil => rfl
  | cons p ps ih =>
    rw [validate.checkAll, compileAll]
    rcases compileFor .exclude p with e | g
    · rfl
    · show validate.checkAll ps = _
      rw [ih]
      rcases compileAll .exclude ps <;> rfl

/-- **To validate is to choose and to compile.** -/
theorem validate_eq (s : Settings) :
    s.validate = chooseFramework s.framework >>= fun _ =>
      compileAll .include s.pattern.toList >>= fun _ =>
        compileAll .exclude s.exclude >>= fun _ => .ok () := by
  rw [← checkAll_eq]
  have hpattern : compileAll .include s.pattern.toList >>= (fun _ => validate.checkAll s.exclude)
      = s.pattern.elim (validate.checkAll s.exclude) fun p =>
          compileFor .include p >>= fun _ => validate.checkAll s.exclude := by
    rcases s.pattern with - | p
    · rfl
    · rw [Option.toList_some, compileAll, compileAll]
      show _ = compileFor .include p >>= fun _ => validate.checkAll s.exclude
      rcases compileFor .include p <;> rfl
  rw [hpattern]
  rcases s with ⟨src, output, pattern, framework, overwrite, onlyMissing, exclude⟩
  rcases framework with - | name
  · rcases pattern <;> rfl
  · simp only [validate, chooseFramework]
    rcases Framework.ofId? name <;> rcases pattern <;> rfl

theorem exists_chooseFramework {named : Option String} :
    (∃ f, chooseFramework named = .ok f)
      ↔ ∀ name, named = some name → ∃ f : Framework, f.id = name := by
  simp only [chooseFramework_eq_ok]
  rcases named with - | name
  · exact ⟨fun _ => nofun, fun _ => ⟨.jest, rfl⟩⟩
  · simp

theorem exists_compileAll {use : PatternUse} {patterns : List String} :
    (∃ gs, compileAll use patterns = .ok gs) ↔ ∀ p ∈ patterns, Compiles p := by
  simp only [compileAll_eq_ok, exists_compiled_iff]

theorem forall_mem_toList_iff {P : String → Prop} {pattern : Option String} :
    (∀ p ∈ pattern.toList, P p) ↔ ∀ p, pattern = some p → P p := by
  simp only [Option.mem_toList]

/-- **Settings are valid if nothing is wrong with them.** -/
theorem validate_eq_ok : s.validate = .ok () ↔ s.IsValid := by
  simp only [validate_eq, bind_eq_ok, and_true, exists_and_right, exists_chooseFramework,
    exists_compileAll, forall_mem_toList_iff]
  exact ⟨fun ⟨hframework, hpattern, hexclude⟩ => ⟨hframework, hpattern, hexclude⟩,
    fun h => ⟨h.framework, h.pattern, h.exclude⟩⟩

/-- **Otherwise the error is the first thing that is wrong.** -/
theorem validate_eq_error {e : SettingsError} : s.validate = .error e ↔ s.Fault e := by
  simp only [validate_eq, bind_eq_error, exists_and_right, exists_chooseFramework,
    exists_compileAll, forall_mem_toList_iff, chooseFramework_eq_error, compileAll_eq_error,
    reduceCtorEq, and_false, exists_false, or_false]
  constructor
  · rintro (⟨name, named, unknown, rfl⟩ | ⟨known, ⟨before, p, after, cause, hset, -, bad, rfl⟩
      | ⟨compiles, before, p, after, cause, listed, first, bad, rfl⟩⟩)
    · exact .framework named unknown
    · have hmem : p ∈ s.pattern.toList := hset ▸ List.mem_append_right before List.mem_cons_self
      exact .pattern known (Option.mem_toList.mp hmem) bad
    · exact .exclude known compiles listed first bad
  · rintro (⟨named, unknown⟩ | ⟨known, set, bad⟩ | ⟨known, compiles, listed, first, bad⟩)
    · exact .inl ⟨_, named, unknown, rfl⟩
    · exact .inr ⟨known, .inl ⟨[], _, [], _, by rw [set]; rfl, by simp, bad, rfl⟩⟩
    · exact .inr ⟨known, .inr ⟨compiles, _, _, _, _, listed, first, bad, rfl⟩⟩

/-! ### Resolution -/

/-- Globs of the patterns of settings can be put together, if each of them compiles. -/
structure Assembles (s : Settings) : Prop where
  pattern : Scaffold.Assembles s.pattern.toList
  exclude : Scaffold.Assembles s.exclude

/-- **Invalid settings are resolved to the error of their validation.** -/
theorem resolve_of_error {e : SettingsError} (h : s.validate = .error e) :
    s.resolve base = .error e := by
  rw [resolve, h]
  rfl

/-- What is put together where settings are resolved. -/
theorem resolve_eq_ok {r : Resolved} : s.resolve base = .ok r
    ↔ s.validate = .ok () ∧ ∃ included, s.inclusion = .ok included
      ∧ ∃ excluded, select .exclude s.exclude = .ok excluded
      ∧ ∃ framework, chooseFramework s.framework = .ok framework
      ∧ r = ⟨base.join (.ofString (s.src.getD "src")), base.join (.ofString (s.output.getD "test")),
        included, excluded, framework, s.overwrite.getD false, s.onlyMissing.getD true, none⟩ := by
  have hunit : ∀ {P : Unit → Prop}, (∃ u, P u) ↔ P () := ⟨fun ⟨(), h⟩ => h, fun h => ⟨(), h⟩⟩
  rw [resolve]
  simp only [bind_eq_ok, hunit, pure, Except.pure, Except.ok.injEq, defaultSrc, defaultOutput,
    @eq_comm _ _ r]

theorem inclusion_eq_ok {included : Option Selection} : s.inclusion = .ok included
    ↔ (s.pattern = none ∧ included = none)
      ∨ ∃ p sel, s.pattern = some p ∧ select .include [p] = .ok sel ∧ included = some sel := by
  rw [inclusion]
  rcases s.pattern with - | p
  · simp [pure, Except.pure, eq_comm]
  · rcases hsel : select .include [p] with e | sel
    · simp [hsel, Functor.map, Except.map]
    · simp [hsel, Functor.map, Except.map, eq_comm]

/-- An include pattern that compiles is put together. -/
theorem exists_inclusion (h : Scaffold.Assembles s.pattern.toList)
    (hpattern : ∀ p, s.pattern = some p → Compiles p) :
    ∃ included, s.inclusion = .ok included := by
  rcases hp : s.pattern with - | p
  · exact ⟨none, inclusion_eq_ok.mpr (.inl ⟨hp, rfl⟩)⟩
  · rw [hp, Option.toList_some] at h
    have hcompiles : ∀ q ∈ [p], Compiles q := List.forall_mem_singleton.mpr (hpattern p hp)
    obtain ⟨sel, hsel⟩ := (exists_select h).mpr hcompiles
    exact ⟨some sel, inclusion_eq_ok.mpr (.inr ⟨p, sel, hp, hsel, rfl⟩)⟩

/-- **Settings are resolved exactly if they are valid**, unless globs cannot be put together. -/
theorem exists_resolve_iff (h : s.Assembles) (base : Path) :
    (∃ r, s.resolve base = .ok r) ↔ s.validate = .ok () := by
  constructor
  · rintro ⟨r, hr⟩
    exact (resolve_eq_ok.mp hr).1
  · intro hvalid
    have hs := validate_eq_ok.mp hvalid
    obtain ⟨included, hincluded⟩ := exists_inclusion h.pattern hs.pattern
    obtain ⟨excluded, hexcluded⟩ := (exists_select h.exclude).mpr hs.exclude
    obtain ⟨framework, hframework⟩ := exists_chooseFramework.mpr hs.framework
    exact ⟨_, resolve_eq_ok.mpr ⟨hvalid, included, hincluded, excluded, hexcluded, framework,
      hframework, rfl⟩⟩

end Settings

end Scaffold

/-
Scaffold/Proofs/Settings/Layers.lean

Layers of settings.

Layers form a monoid: of layers in a row it does not matter which neighbours are
merged first, and the layer that sets nothing adds nothing (`merge_assoc`,
`unset_merge`, `merge_unset`).  What is valid stays so where it is merged
(`IsValid.merge`).

So merged settings are decided by their layers in a row (`Layered`).  A value is
that of the last layer that sets it (`lastSet`), which is one law for all values
(`Layered.value_eq`), and the exclude patterns are those of all layers.  What is
resolved then comes from the layers, or from defaults (`Resolved.ComesFrom`).
-/
import Scaffold.Proofs.Settings.Valid

namespace Scaffold

namespace Settings

variable {s a b : Settings} {layers : List Settings}

/-! ### The monoid of layers -/

theorem merge_assoc (a b c : Settings) : (a.merge b).merge c = a.merge (b.merge c) := by
  have hor : ∀ {α : Type} (x y z : Option α), (z <|> (y <|> x)) = ((z <|> y) <|> x) :=
    fun x y z => by cases z <;> rfl
  simp only [merge, hor, List.append_assoc]

theorem unset_merge (a : Settings) : unset.merge a = a := by
  have hnone : ∀ {α : Type} (x : Option α), (x <|> none) = x := fun x => by cases x <;> rfl
  simp only [merge, unset, hnone, List.nil_append]

theorem merge_unset (a : Settings) : a.merge unset = a := by
  show Settings.mk a.src a.output a.pattern a.framework a.overwrite a.onlyMissing (a.exclude ++ [])
    = a
  rw [List.append_nil]

/-- A merged value is set in one of the two layers. -/
theorem eq_some_of_merged {α : Type} {lower upper : Option α} {v : α}
    (h : (upper <|> lower) = some v) : lower = some v ∨ upper = some v := by
  rcases (Option.orElse_eq_some upper lower v).mp h with h | ⟨-, h⟩
  · exact .inr h
  · exact .inl h

/-- **What is valid stays so where it is merged.** -/
theorem IsValid.merge (ha : a.IsValid) (hb : b.IsValid) : (a.merge b).IsValid where
  framework name h := (eq_some_of_merged h).elim (ha.framework name) (hb.framework name)
  pattern p h := (eq_some_of_merged h).elim (ha.pattern p) (hb.pattern p)
  exclude := List.forall_mem_append.mpr ⟨ha.exclude, hb.exclude⟩

/-! ### Layers in a row -/

/-- Settings that layers in a row, the lowest first, come to, whichever neighbours are merged
first. -/
inductive Layered : List Settings → Settings → Prop
  | unset : Layered [] unset
  | layer (s : Settings) : Layered [s] s
  | merge {lower upper : List Settings} {a b : Settings} (ha : Layered lower a)
    (hb : Layered upper b) : Layered (lower ++ upper) (a.merge b)

/-- The value of the last layer that sets it. -/
def lastSet {α : Type} (value : Settings → Option α) (layers : List Settings) : Option α :=
  (layers.filterMap value).getLast?

/-- A value that the upper of two layers decides where it sets it, and else the lower one. -/
structure IsLaidOver {α : Type} (value : Settings → Option α) : Prop where
  unset : value unset = none
  merge : ∀ a b : Settings, value (a.merge b) = (value b <|> value a)

/-- **A value is that of the last layer that sets it.** -/
theorem Layered.value_eq {α : Type} {value : Settings → Option α} (h : Layered layers s)
    (hvalue : IsLaidOver value) : value s = lastSet value layers := by
  induction h with
  | unset => exact hvalue.unset
  | layer s =>
    rw [lastSet, List.filterMap_cons]
    cases value s <;> rfl
  | merge _ _ iha ihb =>
    rw [hvalue.merge, iha, ihb, lastSet, lastSet, lastSet, List.filterMap_append,
      List.getLast?_append]
    exact Option.orElse_eq_or

theorem Layered.exclude_eq (h : Layered layers s) : s.exclude = layers.flatMap exclude := by
  induction h with
  | unset => rfl
  | layer s => rw [List.flatMap_singleton]
  | merge _ _ iha ihb => rw [Settings.merge, iha, ihb, List.flatMap_append]

end Settings

open Settings

/-! ### Resolution -/

/-- How resolved settings come from layers and a base directory. -/
structure Resolved.ComesFrom (r : Resolved) (layers : List Settings) (base : Path) : Prop where
  srcRoot : r.srcRoot = base.join (.ofString ((lastSet src layers).getD "src"))
  outputRoot : r.outputRoot = base.join (.ofString ((lastSet output layers).getD "test"))
  framework : r.framework.id = (lastSet Settings.framework layers).getD "jest"
  overwrite : r.overwrite = (lastSet Settings.overwrite layers).getD false
  onlyMissing : r.onlyMissing = (lastSet Settings.onlyMissing layers).getD true
  /-- Without an include pattern there is no selection of what to include. -/
  included_none : lastSet pattern layers = none → r.included = none
  included_some : ∀ p, lastSet pattern layers = some p → ∃ sel g, r.included = some sel
    ∧ Glob.compile p = .ok g ∧ ∀ path, sel.accepts path = g.accepts path
  /-- Every layer excludes what its patterns match. -/
  excluded : ∀ path, r.excluded.accepts path = true ↔ ∃ layer ∈ layers, ∃ p ∈ layer.exclude,
    ∃ g, Glob.compile p = .ok g ∧ g.accepts path = true
  configPath : r.configPath = none

section Resolution

variable {s : Settings} {layers : List Settings} {base : Path} {r : Resolved}

/-- **Resolved settings come from their layers.** -/
theorem Settings.Layered.comesFrom (h : Layered layers s) (hr : s.resolve base = .ok r) :
    r.ComesFrom layers base := by
  obtain ⟨-, included, hincluded, excluded, hexcluded, framework, hframework, rfl⟩ :=
    resolve_eq_ok.mp hr
  have hpattern : s.pattern = lastSet pattern layers := h.value_eq ⟨rfl, fun _ _ => rfl⟩
  constructor
  case srcRoot => rw [← h.value_eq ⟨rfl, fun _ _ => rfl⟩]
  case outputRoot => rw [← h.value_eq ⟨rfl, fun _ _ => rfl⟩]
  case framework =>
    rw [← h.value_eq ⟨rfl, fun _ _ => rfl⟩]
    exact chooseFramework_eq_ok.mp hframework
  case overwrite => rw [← h.value_eq ⟨rfl, fun _ _ => rfl⟩]
  case onlyMissing => rw [← h.value_eq ⟨rfl, fun _ _ => rfl⟩]
  case included_none =>
    intro hnone
    -- a pattern that is not set selects nothing
    rcases inclusion_eq_ok.mp hincluded with ⟨-, rfl⟩ | ⟨p, sel, hp, -, -⟩
    · rfl
    · rw [hpattern, hnone] at hp
      cases hp
  case included_some =>
    intro p hp
    rw [← hpattern] at hp
    rcases inclusion_eq_ok.mp hincluded with ⟨hnone, -⟩ | ⟨p', sel, hp', hsel, rfl⟩
    · rw [hnone] at hp
      cases hp
    · obtain rfl := Option.some.inj (hp'.symm.trans hp)
      obtain ⟨g, hg, haccepts⟩ := accepts_select_singleton hsel
      exact ⟨sel, g, rfl, hg, haccepts⟩
  case excluded =>
    intro path
    rw [accepts_select hexcluded, h.exclude_eq]
    simp only [List.mem_flatMap]
    constructor
    -- the exclude patterns of the layers add up
    · rintro ⟨p, ⟨layer, hlayer, hp⟩, hmatch⟩
      exact ⟨layer, hlayer, p, hp, hmatch⟩
    · rintro ⟨layer, hlayer, p, hp, hmatch⟩
      exact ⟨p, ⟨layer, hlayer, hp⟩, hmatch⟩
  case configPath => rfl

end Resolution

/-- **Layering is a monoid that keeps settings valid, and resolution follows the layers.** -/
theorem Settings.layering_laws :
    (∀ a b c : Settings, (a.merge b).merge c = a.merge (b.merge c))
    ∧ (∀ a : Settings, unset.merge a = a ∧ a.merge unset = a)
    ∧ (∀ a b : Settings, a.validate = .ok () → b.validate = .ok () →
        (a.merge b).validate = .ok ())
    ∧ ∀ (s : Settings) (base : Path),
      (∀ e, s.validate = .error e ↔ s.Fault e)
      ∧ (∀ e, s.validate = .error e → s.resolve base = .error e)
      ∧ (s.Assembles → ((∃ r, s.resolve base = .ok r) ↔ s.validate = .ok ()))
      ∧ ∀ layers r, Layered layers s → s.resolve base = .ok r → r.ComesFrom layers base := by
  refine ⟨merge_assoc, fun a => ⟨unset_merge a, merge_unset a⟩, fun a b ha hb => ?_,
    fun s base => ⟨fun e => validate_eq_error, fun e => resolve_of_error,
      fun h => exists_resolve_iff h base, fun layers r => Layered.comesFrom⟩⟩
  exact validate_eq_ok.mpr ((validate_eq_ok.mp ha).merge (validate_eq_ok.mp hb))

/-- Settings as in a document. -/
def documentLayer : Settings :=
  ⟨some "lib", none, none, some "mocha", some true, none, ["*.js"]⟩

/-- Settings as from a command line. -/
def commandLayer : Settings :=
  ⟨some "app", none, some "**/*.ts", none, none, none, ["lib/**"]⟩

/-- The settings of a command line laid over those of a document: both are valid, and what is
resolved has a value from each, and a default. -/
theorem layering_laws_of_two_layers :
    (documentLayer.merge commandLayer).validate = .ok ()
      ∧ ∃ r, (documentLayer.merge commandLayer).resolve (.ofString "/p") = .ok r
        ∧ r.ComesFrom [documentLayer, commandLayer] (.ofString "/p")
        ∧ r.srcRoot = .ofString "/p/app" ∧ r.outputRoot = .ofString "/p/test"
        ∧ r.framework.id = "mocha" := by
  obtain ⟨-, -, hmerge, hresolve⟩ := Settings.layering_laws
  have hvalid : (documentLayer.merge commandLayer).validate = .ok () :=
    hmerge documentLayer commandLayer (by decide +kernel) (by decide +kernel)
  obtain ⟨-, -, hexists, hfrom⟩ := hresolve (documentLayer.merge commandLayer) (.ofString "/p")
  have hassembles : (documentLayer.merge commandLayer).Assembles :=
    ⟨@assembles_of_select .include _ (by decide +kernel),
      @assembles_of_select .exclude _ (by decide +kernel)⟩
  have hlayered : Layered [documentLayer, commandLayer] (documentLayer.merge commandLayer) :=
    .merge (.layer documentLayer) (.layer commandLayer)
  obtain ⟨r, hr⟩ := (hexists hassembles).mpr hvalid
  have hcomes := hfrom _ r hlayered hr
  exact ⟨hvalid, r, hr, hcomes, hcomes.srcRoot, hcomes.outputRoot, hcomes.framework⟩

end Scaffold

/-
Scaffold/Proofs/CommandLine/Arguments.lean

What the options say about the arguments they were read from.

A reader goes through the arguments from left to right (`Reads`), and every
argument is an option by itself or the value of the one before it.  A value
never looks like an option, so no option can hide in one: an option is given
exactly where it is written.

* `Gives` — the arguments give an option a value;
* `value?_iff_gives` — the value of an option is the one that is given;
* `has_iff_mem` — a switch is set when it is among the arguments.
-/
import Mathlib.Data.List.TakeDrop
import Mathlib.Data.List.TakeWhile
import Scaffold.CommandLine.Options

namespace Scaffold

namespace Options

/-! ### One argument -/

/-- An argument is cut at its first equals sign, if it has one. -/
theorem splitArgument_cases (a : String) :
    splitArgument a = (a, none) ∨ ∃ n x, splitArgument a = (n, some x) ∧ a = n ++ "=" ++ x := by
  have parts : a.toList.takeWhile (· != '=') ++ a.toList.dropWhile (· != '=') = a.toList :=
    List.takeWhile_append_dropWhile
  rw [splitArgument, List.span_eq_takeWhile_dropWhile]
  cases hrest : a.toList.dropWhile (· != '=') with
  | nil =>
    rw [hrest, List.append_nil] at parts
    left
    simp [parts]
  | cons c cs =>
    have hc : c = '=' := by
      have := List.head_dropWhile_not (p := (· != '=')) (l := a.toList) (by simp [hrest])
      simpa [hrest] using this
    right
    refine ⟨_, _, rfl, String.toList_inj.mp ?_⟩
    rw [hrest, hc] at parts
    simpa using parts.symm

theorem splitArgument_plain {n : String} (h : '=' ∉ n.toList) : splitArgument n = (n, none) := by
  have run : ∀ c ∈ n.toList, (c != '=') = true := by
    intro c hc
    simpa using fun heq : c = '=' => h (heq ▸ hc)
  rw [splitArgument, List.span_eq_takeWhile_dropWhile, List.takeWhile_eq_self_iff.mpr run,
    List.dropWhile_eq_nil_iff.mpr run]
  simp

theorem splitArgument_assigned {n : String} (h : '=' ∉ n.toList) (x : String) :
    splitArgument (n ++ "=" ++ x) = (n, some x) := by
  have run : ∀ c ∈ n.toList, (c != '=') = true := by
    intro c hc
    simpa using fun heq : c = '=' => h (heq ▸ hc)
  have chars : (n ++ "=" ++ x).toList = n.toList ++ '=' :: x.toList := by simp
  rw [splitArgument, chars, List.span_eq_takeWhile_dropWhile, List.takeWhile_append_of_pos run,
    List.dropWhile_append_of_pos run]
  simp

theorem equals_not_mem_name (v : ValueOption) : '=' ∉ v.name.toList := by
  cases v <;> decide

/-- An option without an equals sign takes the next argument. -/
theorem classify_name (v : ValueOption) : classify v.name = .valued v none := by
  rw [classify, splitArgument_plain (equals_not_mem_name v)]
  cases v <;> rfl

/-- An option with one takes what follows it. -/
theorem classify_assigned (v : ValueOption) (x : String) :
    classify (v.name ++ "=" ++ x) = .valued v (some x) := by
  have split := splitArgument_assigned (equals_not_mem_name v) x
  have hne : v.name ++ "=" ++ x ≠ "--" := by
    intro h
    rw [h, splitArgument_plain (by decide)] at split
    exact Option.some_ne_none _ (Prod.mk.inj split).2.symm
  rw [classify, split]
  simp only [hne, ↓reduceIte]
  cases v <;> rfl

theorem classify_switch {s : Switch} {a : String} (h : a ∈ s.names) : classify a = .switch s := by
  have plain : '=' ∉ a.toList := by
    cases s <;> revert a <;> decide
  rw [classify, splitArgument_plain plain]
  cases s <;> simp only [Switch.names, List.mem_cons, List.not_mem_nil, or_false] at h
  case verbose => rcases h with rfl | rfl <;> rfl
  all_goals
    subst h
    rfl

/-- How an argument is written that is read as `x`. -/
def Argument.WrittenAs (a : String) : Argument → Prop
  | .finish => a = "--"
  | .valued v none => a = v.name
  | .valued v (some value) => a = v.name ++ "=" ++ value
  | .switch s => a ∈ s.names
  | .onlyMissing _ => True
  | .wrong _ => True

theorem classify_writtenAs (a : String) : (classify a).WrittenAs a := by
  have named {n : String} {v : ValueOption}
      (h : ValueOption.all.find? (fun v => v.name == n) = some v) : v.name = n := by
    simpa using List.find?_some h
  have switched {n : String} {s : Switch}
      (h : Switch.all.find? (fun s => s.names.contains n) = some s) : n ∈ s.names := by
    simpa using List.find?_some h
  rw [classify]
  rcases splitArgument_cases a with hsplit | ⟨n, x, hsplit, ha⟩
  · -- no equals sign: a switch, an option that awaits its value, or neither
    rw [hsplit]
    simp only [Option.isSome_none, Bool.false_eq_true, ↓reduceIte]
    split_ifs with hend honly
    · exact hend
    · trivial
    · split
      next v hv => exact (named hv).symm
      next =>
        split
        next s hs => exact switched hs
        next => trivial
  · -- cut at an equals sign: an option with its value
    rw [hsplit]
    simp only [Option.isSome_some, ↓reduceIte]
    split_ifs with hend honly
    · exact hend
    · trivial
    · split
      next v hv =>
        rw [Argument.WrittenAs, named hv]
        exact ha
      next => split <;> trivial

/-- What begins with a dash and goes on is no value. -/
theorem canBeValue_of_dash {a : String} {c : Char} {cs : List Char} (h : a.toList = '-' :: c :: cs) :
    canBeValue a = false := by
  have hne : a ≠ "-" := by
    rintro rfl
    simp at h
  simp [canBeValue, hne, h]

/-- So a value is no option that takes one. -/
theorem ne_valued_of_canBeValue {a : String} (h : canBeValue a) (v : ValueOption)
    (value : Option String) : classify a ≠ .valued v value := by
  intro heq
  have written := classify_writtenAs a
  rw [heq] at written
  obtain ⟨c, cs, hname⟩ : ∃ c cs, v.name.toList = '-' :: c :: cs := by
    cases v <;> exact ⟨_, _, rfl⟩
  have dashes : ∃ c cs, a.toList = '-' :: c :: cs := by
    cases value with
    | none =>
      obtain rfl : a = v.name := written
      exact ⟨c, cs, hname⟩
    | some x =>
      obtain rfl : a = v.name ++ "=" ++ x := written
      exact ⟨c, cs ++ '=' :: x.toList, by simp [hname]⟩
  obtain ⟨c, cs, hchars⟩ := dashes
  exact Bool.false_ne_true ((canBeValue_of_dash hchars).symm.trans h)

/-- Nor is it a switch. -/
theorem not_mem_names_of_canBeValue {a : String} (h : canBeValue a) (s : Switch) :
    a ∉ s.names := by
  intro hmem
  have hfalse : ∀ n ∈ s.names, canBeValue n = false := by
    cases s <;> decide
  exact Bool.false_ne_true ((hfalse a hmem).symm.trans h)

/-! ### Arguments -/

/-- Some arguments are read on top of options, with an option that may wait for its value. -/
inductive Reads : Option ValueOption → Options → List String → Options → Prop
  | done {o : Options} : Reads none o [] o
  | finish {o : Options} {a : String} (h : classify a = .finish) : Reads none o [a] o
  | value {v : ValueOption} {o o₁ o' : Options} {a : String} {rest : List String}
    (ha : canBeValue a) (h : o.setValue v a = .ok o₁) (hrest : Reads none o₁ rest o') :
    Reads (some v) o (a :: rest) o'
  | waiting {v : ValueOption} {o o' : Options} {a : String} {rest : List String}
    (ha : classify a = .valued v none) (hrest : Reads (some v) o rest o') :
    Reads none o (a :: rest) o'
  | assigned {v : ValueOption} {x : String} {o o₁ o' : Options} {a : String} {rest : List String}
    (ha : classify a = .valued v (some x)) (h : o.setValue v x = .ok o₁)
    (hrest : Reads none o₁ rest o') : Reads none o (a :: rest) o'
  | onlyMissing {value : Option String} {o o₁ o' : Options} {a : String} {rest : List String}
    (ha : classify a = .onlyMissing value) (h : o.setOnlyMissing value = .ok o₁)
    (hrest : Reads none o₁ rest o') : Reads none o (a :: rest) o'
  | switch {s : Switch} {o o₁ o' : Options} {a : String} {rest : List String}
    (ha : classify a = .switch s) (h : o.setSwitch s a = .ok o₁)
    (hrest : Reads none o₁ rest o') : Reads none o (a :: rest) o'

theorem reads_of_parseFrom {pending : Option ValueOption} {o o' : Options} {args : List String}
    (h : parseFrom pending o args = .ok o') : Reads pending o args o' := by
  induction args generalizing pending o with
  | nil =>
    cases pending with
    | none =>
      obtain rfl : o = o' := by simpa [parseFrom] using h
      exact .done
    | some v => simp [parseFrom] at h
  | cons a rest ih =>
    have after {r : Except UsageError Options}
        (h : (r >>= fun o₁ => parseFrom none o₁ rest) = .ok o') :
        ∃ o₁, r = .ok o₁ ∧ Reads none o₁ rest o' := by
      cases r with
      | error e => cases h
      | ok o₁ => exact ⟨o₁, rfl, ih h⟩
    cases pending with
    | some v =>
      rw [parseFrom] at h
      split_ifs at h with ha
      obtain ⟨o₁, hset, hrest⟩ := after h
      exact .value ha hset hrest
    | none =>
      rw [parseFrom.eq_def] at h
      simp only at h
      cases ha : classify a with
      | finish =>
        simp only [ha] at h
        cases rest with
        | nil =>
          obtain rfl : o = o' := by simpa using h
          exact .finish ha
        | cons extra rest => cases h
      | valued v value =>
        simp only [ha] at h
        cases value with
        | none => exact .waiting ha (ih h)
        | some x =>
          obtain ⟨o₁, hset, hrest⟩ := after h
          exact .assigned ha hset hrest
      | onlyMissing value =>
        simp only [ha] at h
        obtain ⟨o₁, hset, hrest⟩ := after h
        exact .onlyMissing ha hset hrest
      | switch s =>
        simp only [ha] at h
        obtain ⟨o₁, hset, hrest⟩ := after h
        exact .switch ha hset hrest
      | wrong e =>
        simp only [ha] at h
        cases h

/-! ### One option -/

variable {o o' : Options} {u v : ValueOption} {x y : String}

theorem setValue_ok (h : o.setValue v x = .ok o') :
    o.value? v = none ∧ o' = { o with values := (v, x) :: o.values } := by
  rw [setValue] at h
  split_ifs at h with hset hempty
  exact ⟨by simpa using hset, (Except.ok.inj h).symm⟩

/-- A value is set where there was none, and the others stay. -/
theorem value?_of_setValue (h : o.setValue v x = .ok o') :
    o'.value? u = some y ↔ o.value? u = some y ∨ v = u ∧ x = y := by
  obtain ⟨free, rfl⟩ := setValue_ok h
  by_cases huv : v = u
  · subst huv
    rw [free]
    simp [value?]
  · simp [value?, huv]

theorem switches_of_setValue (h : o.setValue v x = .ok o') : o'.switches = o.switches := by
  rw [(setValue_ok h).2]

theorem setOnlyMissing_ok {value : Option String} (h : o.setOnlyMissing value = .ok o') :
    o'.values = o.values ∧ o'.switches = o.switches := by
  rw [setOnlyMissing.eq_def] at h
  split_ifs at h
  split at h <;> cases h <;> exact ⟨rfl, rfl⟩

theorem setSwitch_ok {s : Switch} {a : String} (h : o.setSwitch s a = .ok o') :
    o'.values = o.values ∧ o'.switches = s :: o.switches := by
  rw [setSwitch] at h
  split_ifs at h
  cases h
  exact ⟨rfl, rfl⟩

theorem has_iff_mem_switches {s : Switch} : o.has s ↔ s ∈ o.switches := List.contains_iff_mem

/-! ### All arguments -/

/-- The arguments give an option a value: after an equals sign, or as the next argument. -/
def Gives (args : List String) (v : ValueOption) (x : String) : Prop :=
  v.name ++ "=" ++ x ∈ args ∨ [v.name, x] <:+: args

theorem gives_nil : ¬ Gives [] v x := by simp [Gives]

/-- Whether a value is given by the first argument is told by what that is. -/
theorem gives_cons {a : String} {rest : List String} :
    Gives (a :: rest) v x ↔ classify a = .valued v (some x)
      ∨ (classify a = .valued v none ∧ rest.head? = some x) ∨ Gives rest v x := by
  have assigned : v.name ++ "=" ++ x = a ↔ classify a = .valued v (some x) := by
    refine ⟨fun h => h ▸ classify_assigned v x, fun h => ?_⟩
    have written := classify_writtenAs a
    rw [h] at written
    exact written.symm
  have plain : v.name = a ↔ classify a = .valued v none := by
    refine ⟨fun h => h ▸ classify_name v, fun h => ?_⟩
    have written := classify_writtenAs a
    rw [h] at written
    exact written.symm
  have next : [v.name, x] <+: a :: rest ↔ v.name = a ∧ rest.head? = some x := by
    rw [List.cons_prefix_cons]
    cases rest <;> simp [eq_comm]
  rw [Gives, Gives, List.mem_cons, List.infix_cons_iff, next, assigned, plain]
  tauto

/-- An argument that is no option of this name gives it nothing. -/
theorem gives_cons_of_ne {a : String} {rest : List String}
    (h : ∀ value, classify a ≠ .valued v value) : Gives (a :: rest) v x ↔ Gives rest v x := by
  rw [gives_cons]
  simp [h]

/-- **A value is the one that was set before, or is given by the arguments.** -/
theorem Reads.value?_iff {pending : Option ValueOption} {args : List String}
    (h : Reads pending o args o') :
    o'.value? u = some x
      ↔ o.value? u = some x ∨ (pending = some u ∧ args.head? = some x) ∨ Gives args u x := by
  induction h with
  | done => simp [gives_nil]
  | finish ha => simp [gives_cons, gives_nil, ha]
  | value ha hset hrest ih =>
    rw [ih, gives_cons_of_ne (ne_valued_of_canBeValue ha u), value?_of_setValue hset]
    simp [or_assoc]
  | waiting ha hrest ih =>
    rw [ih, gives_cons, ha]
    simp
  | assigned ha hset hrest ih =>
    rw [ih, gives_cons, ha, value?_of_setValue hset]
    simp [or_assoc]
  | onlyMissing ha hset hrest ih =>
    rw [ih, gives_cons_of_ne (by simp [ha]), value?, (setOnlyMissing_ok hset).1]
    simp [value?]
  | switch ha hset hrest ih =>
    rw [ih, gives_cons_of_ne (by simp [ha]), value?, (setSwitch_ok hset).1]
    simp [value?]

theorem mem_names_iff {a : String} {s : Switch} : a ∈ s.names ↔ classify a = .switch s := by
  refine ⟨classify_switch, fun h => ?_⟩
  have written := classify_writtenAs a
  rw [h] at written
  exact written

/-- **A switch is set when it was before, or is among the arguments.** -/
theorem Reads.has_iff {s : Switch} {pending : Option ValueOption} {args : List String}
    (h : Reads pending o args o') :
    o'.has s ↔ o.has s ∨ ∃ a ∈ args, a ∈ s.names := by
  simp only [has_iff_mem_switches]
  induction h with
  | done => simp
  | finish ha => simp [mem_names_iff, ha]
  | value ha hset hrest ih =>
    rw [ih, switches_of_setValue hset]
    simp [not_mem_names_of_canBeValue ha]
  | waiting ha hrest ih =>
    rw [ih]
    simp [mem_names_iff, ha]
  | assigned ha hset hrest ih =>
    rw [ih, switches_of_setValue hset]
    simp [mem_names_iff, ha]
  | onlyMissing ha hset hrest ih =>
    rw [ih, (setOnlyMissing_ok hset).2]
    simp [mem_names_iff, ha]
  | switch ha hset hrest ih =>
    rw [ih, (setSwitch_ok hset).2]
    simp only [List.mem_cons, mem_names_iff, exists_eq_or_imp, ha, Argument.switch.injEq]
    rw [eq_comm, or_assoc, or_left_comm]

/-! ### The options of some arguments -/

variable {args : List String}

/-- **An option has the value the arguments give it.** -/
theorem value?_iff_gives (h : parse args = .ok o) : o.value? v = some x ↔ Gives args v x := by
  rw [(reads_of_parseFrom h).value?_iff]
  simp [empty, value?]

/-- Without a value, none is given. -/
theorem value?_eq_none_iff (h : parse args = .ok o) : o.value? v = none ↔ ∀ x, ¬ Gives args v x := by
  rw [Option.eq_none_iff_forall_ne_some]
  simp only [ne_eq, value?_iff_gives h]

/-- **A switch is set when one of its names is among the arguments.** -/
theorem has_iff_mem (h : parse args = .ok o) {s : Switch} :
    o.has s ↔ ∃ a ∈ args, a ∈ s.names := by
  rw [(reads_of_parseFrom h).has_iff]
  simp [empty, has]

end Options

end Scaffold

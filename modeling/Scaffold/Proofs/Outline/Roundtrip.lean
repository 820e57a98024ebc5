/-
Scaffold/Proofs/Outline/Roundtrip.lean

An outline is determined by the text it is printed as.

The members of an outline are looked up by name (`Outline.ofJson?`), so it does
not matter in which order a reader hands them over; an outline nests six deep
and its members have names of their own, so its text is read as a value.  Only
an offset that no machine integer holds would be read as something else.

* `Outline.ofJson?` — the outline a JSON value describes;
* `Outline.parse_toJson_pretty` — the printed text of an outline reads back as it.
-/
import Scaffold.Outline.Basic
import Scaffold.Proofs.Json.Roundtrip

namespace Scaffold

/-! ### Reading -/

namespace Json

/-- A text. -/
def asString? : Json → Option String
  | .string s => some s
  | _ => none

/-- A truth value. -/
def asBool? : Json → Option Bool
  | .bool b => some b
  | _ => none

/-- A count. -/
def asNat? : Json → Option Nat
  | .int n => if 0 ≤ n then some n.toNat else none
  | _ => none

/-- The items of an array, each read by `read`. -/
def asList? {α : Type} (read : Json → Option α) : Json → Option (List α)
  | .array items => items.mapM read
  | _ => none

/-- What `read` makes of the value under a key. -/
def field? {α : Type} (key : String) (read : Json → Option α) (v : Json) : Option α :=
  (v.member? key).bind read

end Json

open Json

/-- The function a JSON value describes. -/
def FunctionItem.ofJson? (v : Json) : Option FunctionItem := do
  let name ← v.field? "name" asString?
  let parameters ← v.field? "raw_params" (asList? asString?)
  let isAsync ← v.field? "is_async" asBool?
  let offset ← v.field? "offset" asNat?
  some { name, parameters, isAsync, offset }

/-- The method a JSON value describes. -/
def MethodItem.ofJson? (v : Json) : Option MethodItem := do
  let name ← v.field? "name" asString?
  let parameters ← v.field? "raw_params" (asList? asString?)
  let isAsync ← v.field? "is_async" asBool?
  some { name, parameters, isAsync }

/-- The class a JSON value describes. -/
def ClassItem.ofJson? (v : Json) : Option ClassItem := do
  let name ← v.field? "name" asString?
  let methods ← v.field? "methods" (asList? MethodItem.ofJson?)
  let offset ← v.field? "offset" asNat?
  some { name, methods, offset }

/-- The export a JSON value describes. -/
def ExportItem.ofJson? (v : Json) : Option ExportItem := do
  let name ← v.field? "name" asString?
  let isDefault ← v.field? "is_default" asBool?
  let offset ← v.field? "offset" asNat?
  some { name, isDefault, offset }

/-- The outline a JSON value describes. -/
def Outline.ofJson? (v : Json) : Option Outline := do
  let functions ← v.field? "functions" (asList? FunctionItem.ofJson?)
  let classes ← v.field? "classes" (asList? ClassItem.ofJson?)
  let exports ← v.field? "exports" (asList? ExportItem.ofJson?)
  some { functions, classes, exports }

/-! ### Members in key order -/

section KeyOrder

variable {α : Type} {read : Json → Option α}

/-- A member is looked up in key order as it is without. -/
theorem field?_sortKeys (key : String) (members : List (String × Json)) :
    field? key read (sortKeys (.object members))
      = (member? key (.object members)).bind fun v => read v.sortKeys := by
  rw [field?, member?_sortKeys, Option.bind_map]
  rfl

theorem asString?_sortKeys (s : String) : asString? (sortKeys (.string s)) = some s := rfl

theorem asBool?_sortKeys (b : Bool) : asBool? (sortKeys (.bool b)) = some b := rfl

theorem asNat?_sortKeys (n : Nat) : asNat? (sortKeys (.nat n)) = some n := by
  simp [Json.nat, sortKeys, asNat?]

/-- Items that are read in key order are read as a list. -/
theorem asList?_sortKeys {toJson : α → Json} (h : ∀ a, read (toJson a).sortKeys = some a)
    (as : List α) : asList? read (sortKeys (.array (as.map toJson))) = some as := by
  rw [sortKeys, asList?]
  induction as with
  | nil => rfl
  | cons a as ih => rw [List.map_cons, sortItems, List.mapM_cons, h, ih]; rfl

theorem asStrings?_sortKeys (ss : List String) :
    asList? asString? (sortKeys (.strings ss)) = some ss :=
  asList?_sortKeys asString?_sortKeys ss

end KeyOrder

theorem FunctionItem.ofJson?_sortKeys (f : FunctionItem) : ofJson? f.toJson.sortKeys = some f := by
  simp only [ofJson?, toJson, field?_sortKeys, member?_cons, String.reduceEq, ↓reduceIte,
    Option.bind_some, asString?_sortKeys, asStrings?_sortKeys, asBool?_sortKeys, asNat?_sortKeys,
    Option.bind_eq_bind]

theorem MethodItem.ofJson?_sortKeys (m : MethodItem) : ofJson? m.toJson.sortKeys = some m := by
  simp only [ofJson?, toJson, field?_sortKeys, member?_cons, String.reduceEq, ↓reduceIte,
    Option.bind_some, asString?_sortKeys, asStrings?_sortKeys, asBool?_sortKeys,
    Option.bind_eq_bind]

theorem ClassItem.ofJson?_sortKeys (c : ClassItem) : ofJson? c.toJson.sortKeys = some c := by
  simp only [ofJson?, toJson, field?_sortKeys, member?_cons, String.reduceEq, ↓reduceIte,
    Option.bind_some, asString?_sortKeys, asList?_sortKeys MethodItem.ofJson?_sortKeys,
    asNat?_sortKeys, Option.bind_eq_bind]

theorem ExportItem.ofJson?_sortKeys (e : ExportItem) : ofJson? e.toJson.sortKeys = some e := by
  simp only [ofJson?, toJson, field?_sortKeys, member?_cons, String.reduceEq, ↓reduceIte,
    Option.bind_some, asString?_sortKeys, asBool?_sortKeys, asNat?_sortKeys, Option.bind_eq_bind]

theorem Outline.ofJson?_sortKeys (o : Outline) : ofJson? o.toJson.sortKeys = some o := by
  simp only [ofJson?, toJson, field?_sortKeys, member?_cons, String.reduceEq, ↓reduceIte,
    Option.bind_some, asList?_sortKeys FunctionItem.ofJson?_sortKeys,
    asList?_sortKeys ClassItem.ofJson?_sortKeys, asList?_sortKeys ExportItem.ofJson?_sortKeys,
    Option.bind_eq_bind]

/-! ### Outlines as plain values -/

section Plain

variable {depth : Nat}

theorem plain_strings (ss : List String) : Plain (depth + 1) (.strings ss) := by
  refine .array fun v hv => ?_
  obtain ⟨s, -, rfl⟩ := List.mem_map.mp hv
  exact .string s

/-- An offset is plain when a machine integer holds it. -/
theorem plain_nat {n : Nat} (h : n < 2 ^ 64) : Plain depth (.nat n) :=
  .int (fitsMachine_nat (Nat.le_sub_one_of_lt h))

/-- The items of an array are plain one by one. -/
theorem plain_array_map {α : Type} {toJson : α → Json} {as : List α}
    (h : ∀ a ∈ as, Plain depth (toJson a)) : Plain (depth + 1) (.array (as.map toJson)) := by
  refine .array fun v hv => ?_
  obtain ⟨a, ha, rfl⟩ := List.mem_map.mp hv
  exact h a ha

theorem FunctionItem.plain_toJson {f : FunctionItem} (h : f.offset < 2 ^ 64) :
    Plain (depth + 2) f.toJson := by
  refine .object ?_ (by simp)
  simp only [List.forall_mem_cons]
  exact ⟨.string _, plain_strings _, .bool _, plain_nat h, by simp⟩

theorem MethodItem.plain_toJson (m : MethodItem) : Plain (depth + 2) m.toJson := by
  refine .object ?_ (by simp)
  simp only [List.forall_mem_cons]
  exact ⟨.string _, plain_strings _, .bool _, by simp⟩

theorem ClassItem.plain_toJson {c : ClassItem} (h : c.offset < 2 ^ 64) :
    Plain (depth + 4) c.toJson := by
  refine .object ?_ (by simp)
  simp only [List.forall_mem_cons]
  exact ⟨.string _, plain_array_map fun m _ => m.plain_toJson, plain_nat h, by simp⟩

theorem ExportItem.plain_toJson {e : ExportItem} (h : e.offset < 2 ^ 64) :
    Plain (depth + 1) e.toJson := by
  refine .object ?_ (by simp)
  simp only [List.forall_mem_cons]
  exact ⟨.string _, .bool _, plain_nat h, by simp⟩

/-- Every offset of the outline is one of a machine integer. -/
structure Outline.OffsetsFit (o : Outline) : Prop where
  functions : ∀ f ∈ o.functions, f.offset < 2 ^ 64
  classes : ∀ c ∈ o.classes, c.offset < 2 ^ 64
  exports : ∀ e ∈ o.exports, e.offset < 2 ^ 64

theorem Outline.plain_toJson {o : Outline} (h : o.OffsetsFit) : Plain (depth + 6) o.toJson := by
  refine .object ?_ (by simp)
  simp only [List.forall_mem_cons]
  exact ⟨plain_array_map fun f hf => f.plain_toJson (h.functions f hf),
    plain_array_map fun c hc => c.plain_toJson (h.classes c hc),
    plain_array_map fun e he => e.plain_toJson (h.exports e he), by simp⟩

end Plain

/-! ### The text of an outline -/

/-- **The printed text of an outline is read, and describes the same outline.** -/
theorem Outline.parse_toJson_pretty (o : Outline) (h : o.OffsetsFit) :
    ∃ v, Json.parse o.toJson.pretty = some v ∧ Outline.ofJson? v = some o :=
  have plain : Plain (maxDepth - 6 + 6) o.toJson := plain_toJson h
  ⟨o.toJson.sortKeys, parse_pretty plain, ofJson?_sortKeys o⟩

/-- An outline of everything a printer has to escape or a reader has to count. -/
def awkwardOutline : Outline where
  functions :=
    [{ name := "a\"b\\c/\n\t\r", parameters := ["\x00\x01\x1f", "", "\x08\x0c\x7f"]
       isAsync := true, offset := 2 ^ 64 - 1 },
      { name := "\u2028é😀", parameters := [], isAsync := false, offset := 0 }]
  classes :=
    [{ name := ""
       methods := [{ name := "\\u0041", parameters := ["\x7b\x7d[],:"], isAsync := false }]
       offset := 10 }]
  exports := [{ name := "default", isDefault := true, offset := 9007199254740993 }]

theorem awkwardOutline_parse_pretty : awkwardOutline.OffsetsFit ∧
    ∃ v, Json.parse awkwardOutline.toJson.pretty = some v
      ∧ Outline.ofJson? v = some awkwardOutline :=
  have fits : awkwardOutline.OffsetsFit := ⟨by decide, by decide, by decide⟩
  ⟨fits, awkwardOutline.parse_toJson_pretty fits⟩

end Scaffold

/-
Scaffold/Proofs/Json/Roundtrip.lean

A printed value reads back.

What a strict reader makes of the indented text of a value is the value with
the members of its objects in key order.  Three things keep a value from it: a
double, whose text need not read back; an integer no machine integer holds; and
a member no look-up finds, since another one of its key stands before it.
`Plain depth v` leaves these out, and bounds the nesting.

* `Plain` — the values that read back, nesting at most `depth` deep;
* `value_prettyText` — each reads back in front of any text that ends it;
* `parse_pretty` — so a whole printed text does.
-/
import Scaffold.Proofs.Json.Members
import Scaffold.Proofs.Json.Scalars

namespace Scaffold

namespace Json

/-- A value of texts, truth values and machine integers that nests at most `depth` deep, and in
whose objects no key repeats. -/
inductive Plain : Nat → Json → Prop
  | null {depth : Nat} : Plain depth .null
  | bool {depth : Nat} (b : Bool) : Plain depth (.bool b)
  | int {depth : Nat} {n : Int} (h : FitsMachine n) : Plain depth (.int n)
  | string {depth : Nat} (s : String) : Plain depth (.string s)
  | array {depth : Nat} {items : List Json} (h : ∀ v ∈ items, Plain depth v) :
    Plain (depth + 1) (.array items)
  | object {depth : Nat} {members : List (String × Json)} (h : ∀ m ∈ members, Plain depth m.2)
    (hkeys : (members.map (·.1)).Nodup) : Plain (depth + 1) (.object members)

variable {depth : Nat} {v : Json} {cs rest : List Char}

/-! ### Blanks -/

theorem skipSpace_cons {c : Char} (h : isSpace c = false) (cs : List Char) :
    skipSpace (c :: cs) = c :: cs := by
  rw [skipSpace, List.dropWhile_cons_of_neg (by simp [h])]

/-- A new line is blank, however deep it is indented. -/
theorem skipSpace_newLine (level : Nat) (cs : List Char) :
    skipSpace (newLine level ++ cs) = skipSpace cs := by
  have blank : ∀ c ∈ newLine level, isSpace c := by
    intro c hc
    rcases List.mem_cons.mp hc with rfl | hc
    · rfl
    · obtain rfl := List.eq_of_mem_replicate hc
      rfl
  exact List.dropWhile_append_of_pos blank

/-- A reader of values does not see the blanks in front. -/
theorem value_congr {cs' : List Char} (h : skipSpace cs = skipSpace cs') :
    value depth cs = value depth cs' := by
  rw [value.eq_def, value.eq_def]
  simp only [h]

/-- No value begins with a character that closes. -/
theorem value_closing {c : Char} (hc : c = ']' ∨ c = '}') (cs : List Char) :
    value depth (c :: cs) = none := by
  rcases hc with rfl | rfl <;> rw [value.eq_def] <;> rfl

theorem value_array (cs : List Char) :
    value (depth + 1) ('[' :: cs) = match skipSpace cs with
      | ']' :: r => some (.array [], r)
      | _ => (items (value depth) cs.length cs).map fun (vs, r) => (.array vs, r) := by
  rw [value.eq_def]; rfl

theorem value_object (cs : List Char) :
    value (depth + 1) ('\x7b' :: cs) = match skipSpace cs with
      | '\x7d' :: r => some (.object [], r)
      | _ => (members (value depth) cs.length cs).map fun (ms, r) => (.object (collect ms), r) := by
  rw [value.eq_def]; rfl

/-! ### Scalars -/

theorem endsNumber_newLine (level : Nat) (cs : List Char) : EndsNumber (newLine level ++ cs) :=
  .cons (by decide)

theorem endsNumber_comma (cs : List Char) : EndsNumber (',' :: cs) := .cons (by decide)

/-- What begins like a number is read as one. -/
theorem value_number {c : Char} (hc : c.isDigit ∨ c = '-') (cs : List Char) :
    value depth (c :: cs) = number? (c :: cs) := by
  have hspace : isSpace c = false := by
    by_contra h
    simp only [isSpace, Bool.not_eq_false, Bool.or_eq_true, beq_iff_eq] at h
    rcases h with ((rfl | rfl) | rfl) | rfl <;> exact absurd hc (by decide)
  rw [value.eq_def]
  simp only [skipSpace_cons hspace]
  split <;> simp_all

/-- A printed integer begins with its sign or with a digit. -/
theorem exists_intText (n : Int) : ∃ c cs, intText n = c :: cs ∧ (c.isDigit ∨ c = '-') := by
  rw [intText]
  split_ifs
  · exact ⟨_, _, rfl, .inr rfl⟩
  · obtain ⟨c, cs, heq⟩ := List.exists_cons_of_ne_nil (Nat.toDigits_ne_nil (b := 10) (n := n.natAbs))
    exact ⟨c, cs, heq, .inl (Nat.isDigit_of_mem_toDigits (b := 10) (n := n.natAbs) (by decide)
      (by decide) (heq ▸ List.mem_cons_self))⟩

theorem value_intText {n : Int} (hn : FitsMachine n) (h : EndsNumber rest) :
    value depth (intText n ++ rest) = some (.int n, rest) := by
  obtain ⟨c, cs, heq, hc⟩ := exists_intText n
  have read := number?_intText hn h
  rw [heq, List.cons_append] at read ⊢
  rw [value_number hc, read]

theorem value_stringText (s : String) (rest : List Char) :
    value depth (stringText s ++ rest) = some (.string s, rest) := by
  have read := string?_stringText s rest
  rw [stringText, List.cons_append] at read ⊢
  rw [value.eq_def]
  exact (congrArg (Option.map _) read).trans rfl

/-! ### Items and members -/

/-- A value reads back in front of every text that ends it. -/
def ReadsBack (depth : Nat) (v : Json) : Prop :=
  ∀ (level : Nat) (rest : List Char), EndsNumber rest →
    value depth (v.prettyText level ++ rest) = some (v.sortKeys, rest)

/-- Nor does a reader of items see the blanks in front. -/
theorem items_congr {cs' : List Char} (h : skipSpace cs = skipSpace cs') (n : Nat) :
    items (value depth) n cs = items (value depth) n cs' := by
  cases n with
  | zero => rfl
  | succ n => rw [items, items, value_congr h]

theorem members_congr {cs' : List Char} (h : skipSpace cs = skipSpace cs') (n : Nat) :
    members (value depth) n cs = members (value depth) n cs' := by
  cases n with
  | zero => rfl
  | succ n => rw [members, members, h]

/-- An array that is closed at once has no items to read. -/
theorem items_closing {r : List Char} (h : skipSpace cs = ']' :: r) (n : Nat) :
    items (value depth) n cs = none := by
  cases n with
  | zero => rfl
  | succ n =>
    have blank : skipSpace cs = skipSpace (']' :: r) := by rw [h, skipSpace_cons rfl]
    rw [items, value_congr blank, value_closing (.inl rfl), Option.bind_none]

theorem members_closing {r : List Char} (h : skipSpace cs = '\x7d' :: r) (n : Nat) :
    members (value depth) n cs = none := by
  cases n with
  | zero => rfl
  | succ n => rw [members, h]; rfl

/-- Items that read back are read one line after the other. -/
theorem items_prettyItems {vs : List Json} (hvs : ∀ v ∈ vs, ReadsBack depth v) (hne : vs ≠ [])
    {n : Nat} (hn : vs.length ≤ n) (level outer : Nat) (rest : List Char) :
    items (value depth) n (prettyItems level vs ++ (newLine outer ++ ']' :: rest))
      = some (sortItems vs, rest) := by
  induction vs generalizing n with
  | nil => exact absurd rfl hne
  | cons v vs ih =>
    obtain ⟨n, rfl⟩ := Nat.exists_eq_add_one.mpr (Nat.lt_of_lt_of_le (Nat.succ_pos _) hn)
    have read := hvs v List.mem_cons_self level
    cases vs with
    | nil =>
      rw [prettyItems, items, read _ (endsNumber_newLine outer _), Option.bind_some]
      simp only [skipSpace_newLine, skipSpace_cons (c := ']') rfl, sortItems]
    | cons w vs =>
      have others := ih (fun u hu => hvs u (List.mem_cons_of_mem v hu)) (List.cons_ne_nil w vs)
        (Nat.le_of_succ_le_succ hn)
      rw [prettyItems, List.append_assoc, items, List.cons_append, read _ (endsNumber_comma _),
        Option.bind_some]
      · simp only [skipSpace_cons (c := ',') rfl, List.append_assoc]
        rw [items_congr (skipSpace_newLine level _), others]
        rfl
      · exact List.cons_ne_nil w vs

/-- Members whose values read back are read one line after the other. -/
theorem members_prettyMembers {ms : List (String × Json)} (hms : ∀ m ∈ ms, ReadsBack depth m.2)
    (hne : ms ≠ []) {n : Nat} (hn : ms.length ≤ n) (level outer : Nat) (rest : List Char) :
    members (value depth) n (prettyMembers level ms ++ (newLine outer ++ '\x7d' :: rest))
      = some (ms.map fun m => (m.1, m.2.sortKeys), rest) := by
  induction ms generalizing n with
  | nil => exact absurd rfl hne
  | cons m ms ih =>
    obtain ⟨k, v⟩ := m
    obtain ⟨n, rfl⟩ := Nat.exists_eq_add_one.mpr (Nat.lt_of_lt_of_le (Nat.succ_pos _) hn)
    have key (cs : List Char) : string? (skipSpace (stringText k ++ cs)) = some (k, cs) := by
      rw [← string?_stringText k cs]
      rfl
    have read (rest : List Char) (hrest : EndsNumber rest) :
        value depth (' ' :: (v.prettyText level ++ rest)) = some (v.sortKeys, rest) := by
      have blank : skipSpace (' ' :: (v.prettyText level ++ rest))
          = skipSpace (v.prettyText level ++ rest) := rfl
      rw [value_congr blank]
      exact hms (k, v) List.mem_cons_self level rest hrest
    cases ms with
    | nil =>
      rw [prettyMembers, List.append_assoc, members, key, Option.bind_some]
      simp only [List.cons_append, skipSpace_cons (c := ':') rfl,
        read _ (endsNumber_newLine outer _), Option.bind_some, skipSpace_newLine,
        skipSpace_cons (c := '\x7d') rfl, List.map_cons, List.map_nil]
    | cons m ms =>
      have others := ih (fun u hu => hms u (List.mem_cons_of_mem _ hu)) (List.cons_ne_nil m ms)
        (Nat.le_of_succ_le_succ hn)
      rw [prettyMembers, List.append_assoc, members, key, Option.bind_some]
      · simp only [List.cons_append, List.append_assoc, skipSpace_cons (c := ':') rfl,
          read _ (endsNumber_comma _), Option.bind_some, skipSpace_cons (c := ',') rfl]
        rw [members_congr (skipSpace_newLine level _), others]
        rfl
      · exact List.cons_ne_nil m ms

/-! ### Values -/

/-- A comma after each item but the last leaves a character for every other item. -/
theorem length_prettyItems (level : Nat) (vs : List Json) :
    vs.length ≤ (prettyItems level vs).length + 1 := by
  induction vs with
  | nil => exact Nat.zero_le _
  | cons v vs ih =>
    cases vs with
    | nil => simp
    | cons w vs =>
      rw [prettyItems]
      · simp only [List.length_append, List.length_cons] at ih ⊢
        omega
      · exact List.cons_ne_nil w vs

theorem length_prettyMembers (level : Nat) (ms : List (String × Json)) :
    ms.length ≤ (prettyMembers level ms).length + 1 := by
  induction ms with
  | nil => exact Nat.zero_le _
  | cons m ms ih =>
    cases ms with
    | nil => simp
    | cons m' ms =>
      rw [prettyMembers]
      · simp only [List.length_append, List.length_cons] at ih ⊢
        omega
      · exact List.cons_ne_nil m' ms

/-- An array with an item is no array that is closed at once. -/
theorem value_array_of_items {vs : List Json}
    (h : items (value depth) cs.length cs = some (vs, rest)) :
    value (depth + 1) ('[' :: cs) = some (.array vs, rest) := by
  rw [value_array]
  split
  next r heq => exact absurd (h.symm.trans (items_closing heq _)) (Option.some_ne_none _)
  next => rw [h, Option.map_some]

theorem value_object_of_members {ms : List (String × Json)}
    (h : members (value depth) cs.length cs = some (ms, rest)) :
    value (depth + 1) ('\x7b' :: cs) = some (.object (collect ms), rest) := by
  rw [value_object]
  split
  next r heq => exact absurd (h.symm.trans (members_closing heq _)) (Option.some_ne_none _)
  next => rw [h, Option.map_some]

theorem readsBack_array {vs : List Json} (hvs : ∀ v ∈ vs, ReadsBack depth v) :
    ReadsBack (depth + 1) (.array vs) := by
  intro level rest _
  rcases eq_or_ne vs [] with rfl | hne
  · rw [prettyText, List.cons_append, value_array]
    rfl
  · rw [prettyText]
    · simp only [List.cons_append, List.append_assoc, List.nil_append, sortKeys]
      refine value_array_of_items ?_
      rw [items_congr (skipSpace_newLine (level + 1) _)]
      refine items_prettyItems hvs hne ?_ (level + 1) level rest
      have := length_prettyItems (level + 1) vs
      simp only [newLine, List.length_append, List.length_cons]
      omega
    · exact hne

theorem readsBack_object {ms : List (String × Json)} (hms : ∀ m ∈ ms, ReadsBack depth m.2)
    (hkeys : (ms.map (·.1)).Nodup) : ReadsBack (depth + 1) (.object ms) := by
  intro level rest _
  rcases eq_or_ne ms [] with rfl | hne
  · -- no members
    rw [prettyText, List.cons_append, value_object]
    rfl
  · rw [prettyText]
    · simp only [List.cons_append, List.append_assoc, List.nil_append, sortKeys]
      rw [← collect_eq_sortMembers hkeys]
      refine value_object_of_members ?_
      rw [members_congr (skipSpace_newLine (level + 1) _)]
      refine members_prettyMembers hms hne ?_ (level + 1) level rest
      have := length_prettyMembers (level + 1) ms
      simp only [newLine, List.length_append, List.length_cons]
      omega
    · exact hne

/-- **A printed value reads back** in front of a text that ends it. -/
theorem value_prettyText (h : Plain depth v) : ReadsBack depth v := by
  induction h with
  | null => exact fun _ _ _ => by rw [value.eq_def]; rfl
  | bool b =>
    intro _ _ _
    cases b <;> rw [value.eq_def] <;> rfl
  | int h => exact fun _ _ hrest => value_intText h hrest
  | string s => exact fun _ rest _ => value_stringText s rest
  | array h ih => exact readsBack_array ih
  | object h hkeys ih => exact readsBack_object ih hkeys

/-- **A printed value reads back.** -/
theorem parse_pretty (h : Plain maxDepth v) : parse v.pretty = some v.sortKeys := by
  have read := value_prettyText h 0 [] endsNumber_nil
  rw [List.append_nil] at read
  rw [parse, pretty, String.toList_ofList, read]
  rfl

end Json

end Scaffold

/-
Scaffold/Proofs/Text/Brackets.lean

Properly nested brackets, and what becomes of them where a parameter list is
split.

The brackets of a text that still close are a stack (`awaited?`), and a text is
properly nested when it leaves none and closes none out of turn (`nests`).  A
parameter list is split with a counter in place of the stack, one for brackets
and angle brackets alike (`bracketDepth`).  A comma at counter zero stands outside
all brackets as long as the counter is not below the height of the stack, and
then the pieces are properly nested as the list is (`nests_splitAtCommas`).

An angle bracket that opens only raises the counter.  One that closes lowers it,
also where it belongs to an arrow or a comparison, so of those inside brackets
each has to close one that opened (`AnglesClose`).  Then every parameter is
properly nested (`nests_of_mem_splitParameters`); without that not every one is.
-/
import Mathlib.Data.List.Infix
import Scaffold.Proofs.Text.Pieces

namespace Scaffold

open Text

/-! ### Nesting -/

/-- Whether the brackets of a text are properly nested, `awaited` being those that still close. -/
def nests (pairs : List (Char × Char)) : (awaited : List Char) → List Char → Bool
  | awaited, [] => awaited.isEmpty
  | awaited, c :: cs =>
    match pairs.lookup c with
    | some close => nests pairs (close :: awaited) cs
    | none =>
      if pairs.any (·.2 == c) then
        match awaited with
        | close :: awaited => close == c && nests pairs awaited cs
        | [] => false
      else nests pairs awaited cs

/-- The brackets that still close behind a character, if it closes none out of turn. -/
def awaitedStep? (pairs : List (Char × Char)) (awaited : List Char) (c : Char) :
    Option (List Char) :=
  match pairs.lookup c with
  | some close => some (close :: awaited)
  | none =>
    if pairs.any (·.2 == c) then
      match awaited with
      | close :: awaited => if close = c then some awaited else none
      | [] => none
    else some awaited

/-- The brackets that still close behind a text, if none closes out of turn. -/
def awaited? (pairs : List (Char × Char)) (awaited cs : List Char) : Option (List Char) :=
  cs.foldlM (awaitedStep? pairs) awaited

section Nests

variable {pairs : List (Char × Char)} {awaited awaited' u v cs : List Char} {c : Char}

@[simp] theorem awaited?_nil : awaited? pairs awaited [] = some awaited := rfl

theorem awaited?_cons (c : Char) (cs : List Char) :
    awaited? pairs awaited (c :: cs)
      = (awaitedStep? pairs awaited c).bind fun a => awaited? pairs a cs := rfl

theorem awaited?_append (u v : List Char) :
    awaited? pairs awaited (u ++ v)
      = (awaited? pairs awaited u).bind fun a => awaited? pairs a v :=
  List.foldlM_append

/-- **A text is properly nested when nothing is left to close.** -/
theorem nests_iff : nests pairs awaited cs = true ↔ awaited? pairs awaited cs = some [] := by
  induction cs generalizing awaited with
  | nil => cases awaited <;> simp [nests]
  | cons c cs ih =>
    rw [awaited?_cons]
    unfold nests awaitedStep?
    cases pairs.lookup c with
    | some close => exact ih
    | none =>
      by_cases hany : pairs.any (·.2 == c) = true
      · cases awaited with
        | nil => simp [hany]
        | cons close awaited => by_cases hclose : close = c <;> simp [hany, hclose, ih]
      · simp [hany, ih]

/-- What a character does to the brackets that still close. -/
inductive Steps (pairs : List (Char × Char)) (awaited : List Char) (c : Char) : List Char → Prop
  | opens (close : Char) (h : (pairs.lookup c).isSome = true) :
      Steps pairs awaited c (close :: awaited)
  | closes {rest : List Char} (h : pairs.lookup c = none) (hclose : pairs.any (·.2 == c) = true)
      (heq : awaited = c :: rest) : Steps pairs awaited c rest
  | stays (h : pairs.lookup c = none) (hclose : pairs.any (·.2 == c) = false) :
      Steps pairs awaited c awaited

theorem steps_of_awaitedStep? (h : awaitedStep? pairs awaited c = some awaited') :
    Steps pairs awaited c awaited' := by
  unfold awaitedStep? at h
  cases hlookup : pairs.lookup c with
  | some close =>
    rw [hlookup] at h
    obtain rfl := Option.some.inj h
    exact .opens close (by rw [hlookup]; rfl)
  | none =>
    simp only [hlookup] at h
    split_ifs at h with hany
    · split at h
      · next close rest =>
        split_ifs at h with hclose
        obtain rfl := Option.some.inj h
        exact .closes hlookup hany (by rw [hclose])
      · cases h
    · obtain rfl := Option.some.inj h
      exact .stays hlookup (Bool.eq_false_iff.mpr hany)

/-- A character that is no bracket changes nothing. -/
theorem awaitedStep?_of_not_mem (h : ∀ p ∈ pairs, c ≠ p.1 ∧ c ≠ p.2) :
    awaitedStep? pairs awaited c = some awaited := by
  have hlookup : pairs.lookup c = none :=
    List.lookup_eq_none_iff.mpr fun p hp => by simpa using (h p hp).1
  have hany : pairs.any (·.2 == c) = false :=
    List.any_eq_false.mpr fun p hp => by simpa using (h p hp).2.symm
  simp [awaitedStep?, hlookup, hany]

end Nests

/-! ### Brackets and angle brackets -/

/-- The brackets of a parameter list. -/
def bracketPairs : List (Char × Char) := [('(', ')'), ('[', ']'), ('{', '}')]

/-- Angle brackets. -/
def anglePairs : List (Char × Char) := [('<', '>')]

theorem isOpening_eq (c : Char) :
    isOpening c = ((bracketPairs.lookup c).isSome || (anglePairs.lookup c).isSome) := by
  simp only [isOpening, bracketPairs, anglePairs, List.lookup_cons, List.lookup_nil]
  cases c == '(' <;> cases c == '[' <;> cases c == '{' <;> cases c == '<' <;> rfl

theorem isClosing_eq (c : Char) :
    isClosing c = (bracketPairs.any (·.2 == c) || anglePairs.any (·.2 == c)) := by
  simp [isClosing, bracketPairs, anglePairs, Bool.beq_comm, Bool.or_assoc]

section Height

variable {brackets brackets' angles angles' u v : List Char} {c : Char} {m depth : Nat}

/-- Angle brackets are no brackets. -/
theorem awaitedStep?_angle (hc : c ∈ ['<', '>']) :
    awaitedStep? bracketPairs brackets c = some brackets := by
  rcases List.mem_pair.mp hc with rfl | rfl <;> rfl

theorem awaitedStep?_other (hc : c ∉ ['<', '>']) :
    awaitedStep? anglePairs angles c = some angles := by
  refine awaitedStep?_of_not_mem fun p hp => ?_
  obtain rfl := List.mem_singleton.mp hp
  simpa using hc

/-- **The counter stays above the brackets and angle brackets that still close**, with `m` to
spare. -/
theorem height_le_step (h : awaitedStep? bracketPairs brackets c = some brackets')
    (hangles : awaitedStep? anglePairs angles c = some angles')
    (hle : brackets.length + angles.length + m ≤ depth) :
    brackets'.length + angles'.length + m ≤ bracketDepth depth c := by
  rw [bracketDepth, isOpening_eq, isClosing_eq]
  by_cases hc : c ∈ ['<', '>']
  · obtain rfl := Option.some.inj ((awaitedStep?_angle hc).symm.trans h)
    have hangle : (bracketPairs.lookup c).isSome = false
        ∧ ¬ (anglePairs.lookup c = none ∧ anglePairs.any (·.2 == c) = false) := by
      rcases List.mem_pair.mp hc with rfl | rfl <;> decide
    cases steps_of_awaitedStep? hangles with
    | opens close hopen =>
      simp only [hopen, Bool.or_true, if_true, List.length_cons]
      omega
    | closes hopen hclose heq =>
      rw [heq, List.length_cons] at hle
      simp only [hangle.1, hopen, hclose, Option.isSome_none, Bool.or_true, Bool.or_self,
        Bool.false_eq_true, if_false, if_true]
      omega
    | stays hopen hclose => exact absurd ⟨hopen, hclose⟩ hangle.2
  · obtain rfl := Option.some.inj ((awaitedStep?_other hc).symm.trans hangles)
    have hother : (anglePairs.lookup c).isSome = false ∧ anglePairs.any (·.2 == c) = false := by
      have hne : c ≠ '<' ∧ c ≠ '>' := by simpa using hc
      simp [anglePairs, beq_eq_false_iff_ne.mpr hne.1, hne.2.symm]
    rw [hother.1, hother.2, Bool.or_false, Bool.or_false]
    cases steps_of_awaitedStep? h with
    | opens close hopen =>
      rw [if_pos hopen, List.length_cons]
      omega
    | closes hopen hclose heq =>
      rw [heq, List.length_cons] at hle
      rw [hopen, hclose, if_neg (by decide), if_pos rfl]
      omega
    | stays hopen hclose =>
      rw [hopen, hclose, if_neg (by decide), if_neg (by decide)]
      exact hle

theorem height_le_run (h : awaited? bracketPairs brackets u = some brackets')
    (hangles : awaited? anglePairs angles u = some angles')
    (hle : brackets.length + angles.length + m ≤ depth) :
    brackets'.length + angles'.length + m ≤ u.foldl bracketDepth depth := by
  induction u generalizing brackets angles depth with
  | nil =>
    obtain rfl := Option.some.inj h
    obtain rfl := Option.some.inj hangles
    exact hle
  | cons c u ih =>
    rw [awaited?_cons] at h hangles
    obtain ⟨brackets₁, hstep, hrun⟩ := Option.bind_eq_some_iff.mp h
    obtain ⟨angles₁, hangle, hanglerun⟩ := Option.bind_eq_some_iff.mp hangles
    exact ih hrun hanglerun (height_le_step hstep hangle hle)

/-! ### Angle brackets that close -/

/-- Every angle bracket that closes stands outside all brackets, or closes one that opened: what
stands between the two has its angle brackets properly nested. -/
def AnglesClose (raw : List Char) : Prop :=
  ∀ u ∈ raw.inits, u ++ ['>'] ∈ raw.inits →
    nests bracketPairs [] u = true ∨
      ∃ v ∈ u.tails, '<' :: v ∈ u.tails ∧ nests anglePairs [] v = true

instance (raw : List Char) : Decidable (AnglesClose raw) :=
  inferInstanceAs <| Decidable <| ∀ u ∈ raw.inits, u ++ ['>'] ∈ raw.inits →
    nests bracketPairs [] u = true ∨
      ∃ v ∈ u.tails, '<' :: v ∈ u.tails ∧ nests anglePairs [] v = true

/-- The counter is never below the brackets that still close. -/
def StaysAbove (depth : Nat) (brackets cs : List Char) : Prop :=
  ∀ u brackets', u <+: cs → awaited? bracketPairs brackets u = some brackets' →
    brackets'.length ≤ u.foldl bracketDepth depth

/-- Behind an angle bracket that opened, the counter has one to spare: up to where that one closes,
the brackets between the two are counted from one higher. -/
theorem height_lt_of_angle {u v brackets : List Char} (hangle : nests anglePairs [] v = true)
    (hbefore : ∀ brackets', awaited? bracketPairs [] u = some brackets' →
      brackets'.length ≤ u.foldl bracketDepth 0)
    (hrun : awaited? bracketPairs [] (u ++ '<' :: v) = some brackets) :
    brackets.length + 1 ≤ (u ++ '<' :: v).foldl bracketDepth 0 := by
  rw [awaited?_append] at hrun
  obtain ⟨brackets', hopen, hrest⟩ := Option.bind_eq_some_iff.mp hrun
  rw [awaited?_cons, awaitedStep?_angle (by decide)] at hrest
  have hback : (u ++ '<' :: v).foldl bracketDepth 0
      = v.foldl bracketDepth (u.foldl bracketDepth 0 + 1) := List.foldl_append
  have hle : brackets'.length + ([] : List Char).length + 1 ≤ u.foldl bracketDepth 0 + 1 := by
    simpa using hbefore _ hopen
  rw [hback]
  exact height_le_run hrest (nests_iff.mp hangle) hle

/-- A character other than a closing angle bracket keeps the counter above the brackets. -/
theorem height_le_of_ne (hc : c ≠ '>') (hle : brackets.length ≤ depth)
    (hrun : awaited? bracketPairs brackets [c] = some brackets') :
    brackets'.length ≤ bracketDepth depth c := by
  have hangle : ∃ angles, awaited? anglePairs [] [c] = some angles := by
    by_cases hopen : c = '<'
    · exact ⟨['>'], by rw [hopen]; rfl⟩
    · exact ⟨[], by rw [awaited?_cons, awaitedStep?_other (by simp [hopen, hc])]; rfl⟩
  obtain ⟨angles, hangle⟩ := hangle
  have hle := height_le_run (m := 0) hrun hangle (by simpa using hle)
  exact (Nat.le_add_right _ _).trans hle

/-- **Where angle brackets close what opened, the counter stays above the brackets.**  By induction
on the text read: an arrow or a comparison outside all brackets has nothing to stay above, and a
closing angle bracket only takes back what the opening one had to spare. -/
theorem staysAbove_of_anglesClose {raw : List Char} (h : AnglesClose raw) :
    StaysAbove 0 [] raw := by
  intro u
  induction hlen : u.length using Nat.strongRecOn generalizing u with
  | ind n ih =>
    intro brackets hpre hrun
    rcases List.eq_nil_or_concat u with rfl | ⟨w, c, rfl⟩
    · obtain rfl := Option.some.inj hrun
      exact Nat.le_refl 0
    rw [List.concat_eq_append] at *
    rw [List.length_append, List.length_singleton] at hlen
    have hw : w <+: raw := (List.prefix_append w [c]).trans hpre
    rw [awaited?_append] at hrun
    obtain ⟨brackets', hfront, hlast⟩ := Option.bind_eq_some_iff.mp hrun
    rw [List.foldl_append]
    by_cases hc : c = '>'
    · subst hc
      rw [awaited?_cons, awaitedStep?_angle (by decide)] at hlast
      obtain rfl : brackets' = brackets := Option.some.inj hlast
      rcases h w ((List.mem_inits _ _).mpr hw) ((List.mem_inits _ _).mpr hpre) with
        hout | ⟨v, -, hv, hangle⟩
      · -- nothing is open, and an angle bracket opens nothing
        rw [nests_iff.mp hout] at hfront
        obtain rfl := Option.some.inj hfront
        exact Nat.zero_le _
      · -- from the opening angle bracket on there is one to spare
        obtain ⟨x, rfl⟩ := (List.mem_tails _ _).mp hv
        have hx : x.length < n := by
          rw [List.length_append] at hlen
          omega
        exact Nat.le_pred_of_lt (height_lt_of_angle hangle
          (fun brackets'' => ih x.length hx x rfl brackets'' ((List.prefix_append x _).trans hw))
          hfront)
    · exact height_le_of_ne hc (ih w.length (by omega) w rfl brackets' hw hfront) hlast

/-! ### Split at the commas -/

theorem StaysAbove.length_le {cs : List Char} (h : StaysAbove depth brackets cs) :
    brackets.length ≤ depth :=
  h [] brackets List.nil_prefix rfl

theorem StaysAbove.step {cs : List Char} (h : StaysAbove depth brackets (c :: cs))
    (hstep : awaitedStep? bracketPairs brackets c = some brackets') :
    StaysAbove (bracketDepth depth c) brackets' cs := by
  intro u brackets'' hu hrun
  refine h (c :: u) brackets'' ((List.prefix_cons_inj c).mpr hu) ?_
  rw [awaited?_cons, hstep]
  exact hrun

/-- **The pieces of a properly nested text are properly nested**, the first one from the brackets
that still close: a comma that splits stands where none does. -/
theorem nests_splitAtCommas {cs : List Char} (hnest : awaited? bracketPairs brackets cs = some [])
    (habove : StaysAbove depth brackets cs) :
    ∃ p ps, splitAtCommas depth cs = p :: ps ∧ awaited? bracketPairs brackets p = some []
      ∧ ∀ q ∈ ps, awaited? bracketPairs [] q = some [] := by
  induction cs generalizing depth brackets with
  | nil => exact ⟨[], [], rfl, hnest, by simp⟩
  | cons c cs ih =>
    rw [awaited?_cons] at hnest
    obtain ⟨brackets', hstep, hrest⟩ := Option.bind_eq_some_iff.mp hnest
    obtain ⟨p, ps, hsplit, hp, hps⟩ := ih hrest (habove.step hstep)
    rw [splitAtCommas]
    split_ifs with hc
    · obtain ⟨rfl, rfl⟩ := hc
      obtain rfl : brackets = [] := List.length_eq_zero_iff.mp (Nat.le_zero.mp habove.length_le)
      obtain rfl : [] = brackets' := Option.some.inj hstep
      refine ⟨[], p :: ps, congrArg _ hsplit, rfl, ?_⟩
      rintro q (_ | ⟨_, hq⟩)
      · exact hp
      · exact hps q hq
    · refine ⟨c :: p, ps, ?_, ?_, hps⟩
      · rw [hsplit]
      · rw [awaited?_cons, hstep]
        exact hp

/-- Blanks are no brackets. -/
theorem awaited?_of_blank (h : ∀ c ∈ u, isBlank c = true) :
    awaited? bracketPairs brackets u = some brackets := by
  induction u with
  | nil => rfl
  | cons c u ih =>
    rw [List.forall_mem_cons] at h
    have hstep : awaitedStep? bracketPairs brackets c = some brackets := by
      refine awaitedStep?_of_not_mem fun p hp => ⟨?_, ?_⟩ <;> rintro rfl
      · exact absurd h.1 ((by decide : ∀ p ∈ bracketPairs, ¬ isBlank p.1 = true) p hp)
      · exact absurd h.1 ((by decide : ∀ p ∈ bracketPairs, ¬ isBlank p.2 = true) p hp)
    rw [awaited?_cons, hstep]
    exact ih h.2

theorem awaited?_trim (cs : List Char) :
    awaited? bracketPairs brackets (trim cs) = awaited? bracketPairs brackets cs := by
  obtain ⟨u, v, hcs, hu, hv⟩ := exists_blanks_trim cs
  conv_rhs => rw [hcs, awaited?_append, awaited?_of_blank hu, Option.bind_some, awaited?_append]
  cases awaited? bracketPairs brackets (trim cs) with
  | none => rfl
  | some brackets' => exact (awaited?_of_blank hv).symm

end Height

/-! ### Parameters -/

/-- **Every parameter of a properly nested list is properly nested**, where the angle brackets that
close inside brackets close what opened. -/
theorem nests_of_mem_splitParameters {raw : List Char} (h : nests bracketPairs [] raw = true)
    (hangles : AnglesClose raw) :
    ∀ p ∈ splitParameters raw, nests bracketPairs [] p.toList = true := by
  intro p hp
  obtain ⟨cs, hmem, rfl⟩ := List.mem_map.mp hp
  obtain ⟨piece, hpiece, rfl⟩ := List.mem_map.mp (List.mem_filter.mp hmem).1
  obtain ⟨first, rest, hsplit, hfirst, hrest⟩ :=
    nests_splitAtCommas (nests_iff.mp h) (staysAbove_of_anglesClose hangles)
  rw [String.toList_ofList, nests_iff, awaited?_trim]
  rcases List.mem_cons.mp (hsplit ▸ hpiece) with rfl | hmem
  · exact hfirst
  · exact hrest piece hmem

/-- Type parameters in brackets, and an arrow and a comparison outside. -/
def annotatedList : List Char := "m: [A<K, V>, B], { d: Set<T> }, g = x => x > y".toList

theorem nests_of_mem_splitParameters_annotatedList :
    nests bracketPairs [] annotatedList = true ∧ AnglesClose annotatedList
      ∧ (splitParameters annotatedList).length = 3
      ∧ ∀ p ∈ splitParameters annotatedList, nests bracketPairs [] p.toList = true := by
  have hnest : nests bracketPairs [] annotatedList = true := by decide +kernel
  have hangles : AnglesClose annotatedList := by decide +kernel
  exact ⟨hnest, hangles, by decide +kernel, nests_of_mem_splitParameters hnest hangles⟩

/-- **The arrow of a default value closes the brackets around it for the counter**, and the comma
behind it cuts a destructuring pattern in two. -/
theorem not_nests_of_mem_splitParameters :
    ¬ ∀ raw, nests bracketPairs [] raw = true →
      ∀ p ∈ splitParameters raw, nests bracketPairs [] p.toList = true := by
  intro hall
  have hnest : nests bracketPairs [] "{ done = x => x, wait }".toList = true := by
    decide +kernel
  have hmem : "\x7b done = x => x"
      ∈ splitParameters "{ done = x => x, wait }".toList := by decide +kernel
  exact absurd (hall _ hnest _ hmem) (by decide +kernel)

end Scaffold

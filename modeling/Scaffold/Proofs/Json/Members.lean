/-
Scaffold/Proofs/Json/Members.lean

Members of an object in key order.

A reader puts the members it meets one by one in their places (`collect`),
while `sortKeys` puts the last one first.  The places of two keys do not depend
on which of them comes first, so for distinct keys both are the same list.

* `collect_eq_sortMembers` — distinct members are read in key order;
* `member?_sortKeys` — key order hides no member and changes none.
-/
import Mathlib.Data.String.Basic
import Scaffold.Json.Reader

namespace Scaffold

namespace Json

variable {k k' : String} {v v' : Json} {ms : List (String × Json)}

/-- Of two keys, the smaller one is passed on the way to the place of the larger one. -/
theorem putMember_comm_of_lt (h : k < k') (v v' : Json) (ms : List (String × Json)) :
    putMember k v (putMember k' v' ms) = putMember k' v' (putMember k v ms) := by
  have hne : k ≠ k' := ne_of_lt h
  have hnlt : ¬ k' < k := lt_asymm h
  induction ms with
  | nil => simp [putMember, hne, hne.symm, h, hnlt]
  | cons m ms ih =>
    obtain ⟨key, value⟩ := m
    -- the first key lies before both places, at or between them, or behind both
    rcases lt_trichotomy key k with hk | rfl | hk
    · have hk' : key < k' := hk.trans h
      simp [putMember, hk.ne', hk'.ne', lt_asymm hk, lt_asymm hk', ih]
    · simp [putMember, hne.symm, hnlt]
    · rcases lt_trichotomy key k' with hk' | rfl | hk'
      · simp [putMember, hk.ne, hk'.ne', hk, lt_asymm hk', hne.symm, hnlt]
      · simp [putMember, hne, hne.symm, h, hnlt]
      · simp [putMember, hk.ne, hk'.ne, hk, hk', hne, hne.symm, h, hnlt]

/-- Two members with different keys find the same places in either order. -/
theorem putMember_comm (h : k ≠ k') (v v' : Json) (ms : List (String × Json)) :
    putMember k v (putMember k' v' ms) = putMember k' v' (putMember k v ms) := by
  rcases lt_or_gt_of_ne h with hlt | hlt
  · exact putMember_comm_of_lt hlt v v' ms
  · exact (putMember_comm_of_lt hlt v' v ms).symm

/-- A member can wait until those with other keys have their places. -/
theorem foldl_putMember (h : k ∉ ms.map (·.1)) (v : Json) (acc : List (String × Json)) :
    ms.foldl (fun acc m => putMember m.1 m.2 acc) (putMember k v acc)
      = putMember k v (ms.foldl (fun acc m => putMember m.1 m.2 acc) acc) := by
  induction ms generalizing acc with
  | nil => rfl
  | cons m ms ih =>
    obtain ⟨hm, hms⟩ : k ≠ m.1 ∧ k ∉ ms.map (·.1) := by simpa using h
    rw [List.foldl_cons, List.foldl_cons, putMember_comm hm.symm, ih hms]

/-- **Members with distinct keys are collected in key order.** -/
theorem collect_eq_sortMembers (h : (ms.map (·.1)).Nodup) :
    collect (ms.map fun m => (m.1, m.2.sortKeys)) = sortMembers ms := by
  induction ms with
  | nil => rfl
  | cons m ms ih =>
    obtain ⟨hm, hms⟩ := List.nodup_cons.mp h
    have hm' : m.1 ∉ (ms.map fun m => (m.1, m.2.sortKeys)).map (·.1) := by simpa using hm
    rw [List.map_cons, collect, List.foldl_cons, foldl_putMember hm', sortMembers]
    exact congrArg _ (ih hms)

/-! ### Look-up -/

/-- The first member under a key counts. -/
theorem member?_cons (key : String) :
    member? key (.object ((k, v) :: ms)) = if k = key then some v else member? key (.object ms) := by
  by_cases h : k = key <;> simp [member?, h]

/-- A member that is put in its place is found there, and hides no other. -/
theorem member?_putMember (key : String) :
    member? key (.object (putMember k v ms))
      = if k = key then some v else member? key (.object ms) := by
  induction ms with
  | nil => exact member?_cons key
  | cons m ms ih =>
    obtain ⟨k', v'⟩ := m
    by_cases heq : k = k'
    · subst heq
      rw [putMember, if_pos rfl, member?_cons, member?_cons]
      split_ifs <;> rfl
    by_cases hlt : k < k'
    · rw [putMember, if_neg heq, if_pos hlt, member?_cons]
    · rw [putMember, if_neg heq, if_neg hlt, member?_cons, member?_cons, ih]
      -- no key is both the one that is passed and the one that is put
      by_cases hk : k = key
      · have hk' : k' ≠ key := fun h => heq (hk.trans h.symm)
        rw [if_neg hk', if_pos hk, if_pos hk]
      · rw [if_neg hk, if_neg hk]

/-- **Key order keeps every member.** -/
theorem member?_sortKeys (key : String) (ms : List (String × Json)) :
    member? key (sortKeys (.object ms)) = (member? key (.object ms)).map sortKeys := by
  rw [sortKeys]
  induction ms with
  | nil => rfl
  | cons m ms ih =>
    rw [sortMembers, member?_putMember, member?_cons, ih]
    split_ifs <;> rfl

end Json

end Scaffold

/-
Scaffold/Proofs/Pattern/Kept.lean

What a match keeps is a part of the text.

A span that a match captures begins and ends between characters of the text
that was searched, and so does the match.  This is an invariant of the states
on a way (`State.PartsOf`): the state stands at a place of the text, and what
it has captured are spans of parts.

Which slots a match fills can depend on the way it takes; those that every way
fills are read off the pattern (`required`).

* `Leads.partsOf` — a way keeps the invariant;
* `exists_marks` — a match and its captures are spans of parts of the text;
* `exists_marks_of_required` — a required slot holds one.
-/
import Scaffold.Proofs.Pattern.Spelling
import Scaffold.Proofs.Text.Boundary

namespace Scaffold

open Text

namespace Pattern

/-! ### Captures are spans of parts -/

/-- A state stands between two characters of a text, and has captured spans of parts of it. -/
structure State.PartsOf (s : State) (cs : List Char) : Prop where
  place : ∃ u, cs = u ++ s.cursor.rest ∧ s.cursor.offset = byteLength u
  captures : ∀ c ∈ s.captures, ∃ n, c.2.Marks cs n

section PartsOf

variable {s t : State} {cs : List Char}

/-- Further on there is another place of the text, with a part of it between. -/
theorem State.PartsOf.onward (hs : s.PartsOf cs) (h : Onward s t) :
    (∃ u, cs = u ++ t.cursor.rest ∧ t.cursor.offset = byteLength u)
      ∧ ∃ n, (⟨s.cursor.offset, t.cursor.offset⟩ : Span).Marks cs n := by
  obtain ⟨u, hcs, hu⟩ := hs.place
  obtain ⟨n, -, hrest, hcursor, -⟩ := h
  have hoffset : t.cursor.offset = byteLength u + byteLength n := by
    rw [hcursor, Cursor.behind_offset, hu]
  refine ⟨⟨u ++ n, ?_, hoffset.trans (byteLength_append u n).symm⟩, n, u, t.cursor.rest, ?_, ?_⟩
  · rw [hcs, hrest, List.append_assoc]
  · rw [hcs, hrest]
  · rw [hu, hoffset]

/-- A way that captures nothing keeps the invariant. -/
theorem State.PartsOf.of_captures_eq (hs : s.PartsOf cs) (h : Onward s t)
    (hcaptures : t.captures = s.captures) : t.PartsOf cs where
  place := (hs.onward h).1
  captures := hcaptures ▸ hs.captures

/-- **On a way, only spans of parts are captured.** -/
theorem Leads.partsOf {p : Pattern} (h : Leads p s t) (hs : s.PartsOf cs) : t.PartsOf cs := by
  induction h with
  | empty | stop | boundary | lineEnd => exact hs
  | one hrest hc => exact hs.of_captures_eq (Leads.one hrest hc).onward rfl
  | longest hrest hu hv => exact hs.of_captures_eq (Leads.longest hrest hu hv).onward rfl
  | many hrest hu => exact hs.of_captures_eq (Leads.many hrest hu).onward rfl
  | seq _ _ ihp ihq => exact ihq (ihp hs)
  | altLeft _ ih => exact ih hs
  | altRight _ ih => exact ih hs
  | more _ _ ihp ihr => exact ihr (ihp hs)
  | keep h ih =>
    refine ⟨(ih hs).place, fun c hc => ?_⟩
    rcases List.mem_cons.mp hc with rfl | hc
    · exact (hs.onward h.onward).2
    · exact (ih hs).captures c hc

end PartsOf

/-! ### Slots that are always filled -/

/-- The slots that every way of a pattern fills. -/
def required : Pattern → List Slot
  | seq p q => p.required ++ q.required
  | alt p q => p.required.filter q.required.contains
  | keep slot p => slot :: p.required
  | _ => []

theorem Leads.exists_capture_of_required {p : Pattern} {s t : State} (h : Leads p s t) {slot : Slot}
    (hslot : slot ∈ p.required) : ∃ c ∈ t.captures, c.1 = slot := by
  induction h with
  | empty | one | longest | many | stop | more | boundary | lineEnd => cases hslot
  | seq _ hq ihp ihq =>
    rcases List.mem_append.mp hslot with hslot | hslot
    · -- what the first pattern captured is still there
      obtain ⟨c, hc, hkind⟩ := ihp hslot
      obtain ⟨kept, hkept, -⟩ := hq.captures
      exact ⟨c, hkept ▸ List.mem_append_right kept hc, hkind⟩
    · exact ihq hslot
  | altLeft _ ih => exact ih (List.mem_filter.mp hslot).1
  | altRight _ ih => exact ih (by simpa using (List.mem_filter.mp hslot).2)
  | keep _ ih =>
    rcases List.mem_cons.mp hslot with rfl | hslot
    · exact ⟨_, List.mem_cons_self, rfl⟩
    · obtain ⟨c, hc, hkind⟩ := ih hslot
      exact ⟨c, List.mem_cons_of_mem _ hc, hkind⟩

/-! ### Matches -/

section Matches

variable {p : Pattern} {cs : List Char} {m : Match}

/-- **A match is a part of the text, and so is all it captures.** -/
theorem exists_marks (hm : m ∈ p.findAll cs) :
    (∃ w, m.span.Marks cs w) ∧ ∀ slot s, m.capture? slot = some s → ∃ n, s.Marks cs n := by
  obtain ⟨u, v, rfl, hmatch⟩ := mem_findAll hm
  obtain ⟨t, ht, rfl⟩ := exists_of_matchAt? hmatch
  have hstart : State.PartsOf ⟨Cursor.between u v, []⟩ (u ++ v) :=
    ⟨⟨u, rfl, Cursor.between_offset u v⟩, fun c hc => absurd hc List.not_mem_nil⟩
  refine ⟨(hstart.onward ht.onward).2, fun slot s hs => ?_⟩
  obtain ⟨c, hc, rfl⟩ := Option.map_eq_some_iff.mp hs
  exact (ht.partsOf hstart).captures c (List.mem_of_find?_eq_some hc)

/-- **A required slot holds a part of the text.** -/
theorem exists_marks_of_required (hm : m ∈ p.findAll cs) {slot : Slot} (hslot : slot ∈ p.required) :
    ∃ s n, m.capture? slot = some s ∧ s.Marks cs n := by
  have hfilled : (m.capture? slot).isSome := by
    obtain ⟨u, v, -, hmatch⟩ := mem_findAll hm
    obtain ⟨t, ht, rfl⟩ := exists_of_matchAt? hmatch
    obtain ⟨c, hc, hkind⟩ := ht.exists_capture_of_required hslot
    rw [Match.capture?, Option.isSome_map, List.find?_isSome]
    exact ⟨c, hc, beq_iff_eq.mpr hkind⟩
  obtain ⟨s, hs⟩ := Option.isSome_iff_exists.mp hfilled
  obtain ⟨n, hn⟩ := (exists_marks hm).2 slot s hs
  exact ⟨s, n, hs, hn⟩

end Matches

end Pattern

end Scaffold

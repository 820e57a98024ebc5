/-
Scaffold/Proofs/Pattern/Spelling.lean

What a pattern stands for, as text.

`Spells p before w behind` says that `w` is a text of the pattern `p`, between
the character `before` and the text `behind`.  It is read off the pattern, so a
match can be turned into words of the text it goes over:

* `Leads.spells` — a way goes over a text of its pattern;
* `Leads.exists_parts` — a way of patterns in order, one of which is kept, goes
  over a text of those in front, the text that is kept, and a text of those
  behind.

The other lemmas say what the texts of the patterns of declarations are.
-/
import Scaffold.Proofs.Pattern.Search

namespace Scaffold

open Text

namespace Pattern

/-! ### Texts of a pattern -/

/-- The texts of a pattern, by the character in front and the text behind. -/
def Spells : Pattern → Option Char → List Char → List Char → Prop
  | empty, _, w, _ => w = []
  | one cls, _, w, _ => ∃ c, w = [c] ∧ cls c = true
  | longest cls, _, w, behind => (∀ c ∈ w, cls c = true) ∧ ∀ c ∈ behind.head?, cls c = false
  | many cls, _, w, _ => ∀ c ∈ w, cls c = true
  | seq p q, before, w, behind =>
    ∃ x y, w = x ++ y ∧ p.Spells before x (y ++ behind) ∧ q.Spells (x.getLast?.or before) y behind
  | alt p q, before, w, behind => p.Spells before w behind ∨ q.Spells before w behind
  | rounds p, _, w, _ =>
    ∃ pieces : List (List Char), w = pieces.flatten ∧ ∀ x ∈ pieces, ∃ before behind,
      p.Spells before x behind
  | keep _ p, before, w, behind => p.Spells before w behind
  | boundary, before, w, behind => w = [] ∧ (Cursor.mk before 0 behind).isBoundary = true
  | lineEnd, before, w, behind => w = [] ∧ (Cursor.mk before 0 behind).isLineEnd = true

/-- A state is behind another one over a text of a pattern. -/
def Over (p : Pattern) (s t : State) (w : List Char) : Prop :=
  s.cursor.rest = w ++ t.cursor.rest ∧ t.cursor = s.cursor.behind w t.cursor.rest
    ∧ p.Spells s.cursor.before w t.cursor.rest

theorem Over.trans {p q : Pattern} {s r t : State} {x y : List Char} (hp : Over p s r x)
    (hq : Over q r t y) : Over (.seq p q) s t (x ++ y) := by
  obtain ⟨hrest, hcur, hx⟩ := hp
  obtain ⟨hrest', hcur', hy⟩ := hq
  have hbefore : r.cursor.before = x.getLast?.or s.cursor.before := by rw [hcur]; rfl
  refine ⟨by rw [hrest, hrest', List.append_assoc], ?_, x, y, rfl, hrest' ▸ hx, hbefore ▸ hy⟩
  rw [hcur', hcur, Cursor.behind_behind]
  rfl

/-- **A way goes over a text of its pattern.** -/
theorem Leads.spells {p : Pattern} {s t : State} (h : Leads p s t) : ∃ w, Over p s t w := by
  induction h with
  | empty s => exact ⟨[], rfl, rfl, rfl⟩
  | one hrest hc => exact ⟨_, hrest, rfl, _, rfl, hc⟩
  | longest hrest hu hv => exact ⟨_, hrest, rfl, hu, hv⟩
  | many hrest hu => exact ⟨_, hrest, rfl, hu⟩
  | seq _ _ ihp ihq =>
    obtain ⟨x, hx⟩ := ihp
    obtain ⟨y, hy⟩ := ihq
    exact ⟨x ++ y, hx.trans hy⟩
  | altLeft _ ih =>
    obtain ⟨w, hrest, hcur, hw⟩ := ih
    exact ⟨w, hrest, hcur, .inl hw⟩
  | altRight _ ih =>
    obtain ⟨w, hrest, hcur, hw⟩ := ih
    exact ⟨w, hrest, hcur, .inr hw⟩
  | stop s => exact ⟨[], rfl, rfl, [], rfl, by simp⟩
  | more _ _ ihp ihr =>
    obtain ⟨x, hx⟩ := ihp
    obtain ⟨y, hy⟩ := ihr
    obtain ⟨pieces, rfl, hpieces⟩ := hy.2.2
    obtain ⟨hrest, hcur, -⟩ := hx.trans hy
    refine ⟨_, hrest, hcur, x :: pieces, rfl, fun z hz => ?_⟩
    rcases List.mem_cons.mp hz with rfl | hz
    · exact ⟨_, _, hx.2.2⟩
    · exact hpieces z hz
  | keep _ ih => exact ih
  | boundary h => exact ⟨[], rfl, rfl, rfl, h⟩
  | lineEnd h => exact ⟨[], rfl, rfl, rfl, h⟩

/-! ### What is kept -/

/-- The slots a pattern fills. -/
def slots : Pattern → List Slot
  | seq p q | alt p q => p.slots ++ q.slots
  | rounds p => p.slots
  | keep slot p => slot :: p.slots
  | _ => []

/-- A way captures for the slots of its pattern only. -/
theorem Leads.captures {p : Pattern} {s t : State} (h : Leads p s t) :
    ∃ kept, t.captures = kept ++ s.captures ∧ ∀ c ∈ kept, c.1 ∈ p.slots := by
  induction h with
  | empty | one | longest | many | stop | boundary | lineEnd => exact ⟨[], rfl, by simp⟩
  | seq _ _ ihp ihq =>
    obtain ⟨kept, hkept, hp⟩ := ihp
    obtain ⟨kept', hkept', hq⟩ := ihq
    refine ⟨kept' ++ kept, by rw [hkept', hkept, List.append_assoc], fun c hc => ?_⟩
    rcases List.mem_append.mp hc with hc | hc
    · exact List.mem_append_right _ (hq c hc)
    · exact List.mem_append_left _ (hp c hc)
  | altLeft _ ih =>
    obtain ⟨kept, hkept, hp⟩ := ih
    exact ⟨kept, hkept, fun c hc => List.mem_append_left _ (hp c hc)⟩
  | altRight _ ih =>
    obtain ⟨kept, hkept, hq⟩ := ih
    exact ⟨kept, hkept, fun c hc => List.mem_append_right _ (hq c hc)⟩
  | more _ _ ihp ihr =>
    obtain ⟨kept, hkept, hp⟩ := ihp
    obtain ⟨kept', hkept', hr⟩ := ihr
    refine ⟨kept' ++ kept, by rw [hkept', hkept, List.append_assoc], fun c hc => ?_⟩
    rcases List.mem_append.mp hc with hc | hc
    · exact hr c hc
    · exact hp c hc
  | keep _ ih =>
    obtain ⟨kept, hkept, hp⟩ := ih
    refine ⟨_ :: kept, congrArg (_ :: ·) hkept, fun c hc => ?_⟩
    rcases List.mem_cons.mp hc with rfl | hc
    · exact List.mem_cons_self
    · exact List.mem_cons_of_mem _ (hp c hc)

theorem find?_slot_append {slot : Slot} {kept captures : Captures} (h : ∀ c ∈ kept, c.1 ≠ slot) :
    (kept ++ captures).find? (fun c => c.1 == slot) = captures.find? (fun c => c.1 == slot) := by
  rw [List.find?_append, List.find?_eq_none.mpr fun c hc => by simpa using h c hc, Option.none_or]

/-! ### Patterns in order -/

theorem leads_inOrder_cons {p : Pattern} {ps : List Pattern} {s t : State} :
    Leads (inOrder (p :: ps)) s t ↔ ∃ r, Leads p s r ∧ Leads (inOrder ps) r t := by
  cases ps with
  | nil =>
    constructor
    · exact fun h => ⟨t, h, .empty t⟩
    · rintro ⟨r, hp, hr⟩
      cases hr
      exact hp
  | cons q qs =>
    constructor
    · intro h
      cases h with
      | seq hp hq => exact ⟨_, hp, hq⟩
    · rintro ⟨r, hp, hr⟩
      exact .seq hp hr

theorem leads_inOrder_append {ps qs : List Pattern} {s t : State} :
    Leads (inOrder (ps ++ qs)) s t ↔ ∃ r, Leads (inOrder ps) s r ∧ Leads (inOrder qs) r t := by
  induction ps generalizing s with
  | nil =>
    constructor
    · exact fun h => ⟨s, .empty s, h⟩
    · rintro ⟨r, hs, hr⟩
      cases hs
      exact hr
  | cons p ps ih =>
    rw [List.cons_append, leads_inOrder_cons]
    constructor
    · rintro ⟨r, hp, hr⟩
      obtain ⟨r', hps, hqs⟩ := ih.mp hr
      exact ⟨r', leads_inOrder_cons.mpr ⟨r, hp, hps⟩, hqs⟩
    · rintro ⟨r', hps, hqs⟩
      obtain ⟨r, hp, hr⟩ := leads_inOrder_cons.mp hps
      exact ⟨r, hp, ih.mpr ⟨r', hr, hqs⟩⟩

/-- The match of a way from a place. -/
def matchOf (cursor : Cursor) (t : State) : Match := ⟨⟨cursor.offset, t.cursor.offset⟩, t.captures⟩

/-- **A way of patterns in order, one of them kept**: the text in front of what is kept, the place of
what is kept, and the text behind it. -/
theorem Leads.exists_capture {ps qs : List Pattern} {slot : Slot} {q : Pattern} {u v : List Char}
    {t : State} (h : Leads (inOrder (ps ++ .keep slot q :: qs)) ⟨Cursor.between u v, []⟩ t)
    (hslot : slot ∉ (inOrder qs).slots) :
    ∃ x n y z, v = x ++ (n ++ (y ++ z)) ∧ t.cursor.offset = byteLength (u ++ x ++ n ++ y)
      ∧ (matchOf (Cursor.between u v) t).capture? slot
        = some ⟨byteLength (u ++ x), byteLength (u ++ x ++ n)⟩
      ∧ (inOrder ps).Spells u.getLast? x (n ++ (y ++ z))
      ∧ q.Spells (x.getLast?.or u.getLast?) n (y ++ z)
      ∧ (inOrder qs).Spells (n.getLast?.or (x.getLast?.or u.getLast?)) y z := by
  obtain ⟨r, hps, hrest⟩ := leads_inOrder_append.mp h
  obtain ⟨r', hkeep, hqs⟩ := leads_inOrder_cons.mp hrest
  obtain ⟨kept, hkept, hslots⟩ := hqs.captures
  obtain ⟨x, hrx, hcx, hx⟩ := hps.spells
  obtain ⟨y, hry, hcy, hy⟩ := hqs.spells
  cases hkeep with
  | @keep _ _ _ r' hq =>
    obtain ⟨n, hrn, hcn, hn⟩ := hq.spells
    simp only at hry hcy hy hkept
    have hbetween : Cursor.between u v = ⟨u.getLast?, byteLength u, v⟩ := Cursor.between_eq u v
    have hv : v = x ++ (n ++ (y ++ t.cursor.rest)) := by
      rw [← hry, ← hrn, ← hrx]
      rfl
    have hr : r.cursor.before = x.getLast?.or u.getLast?
        ∧ r.cursor.offset = byteLength u + byteLength x := by
      rw [hcx, hbetween]
      exact ⟨rfl, rfl⟩
    have hr' : r'.cursor.before = n.getLast?.or (x.getLast?.or u.getLast?)
        ∧ r'.cursor.offset = byteLength u + byteLength x + byteLength n := by
      rw [hcn, ← hr.1, ← hr.2]
      exact ⟨rfl, rfl⟩
    refine ⟨x, n, y, t.cursor.rest, hv, ?_, ?_, ?_, ?_, ?_⟩
    · rw [hcy, byteLength_append, byteLength_append, byteLength_append, ← hr'.2]
      rfl
    · rw [Match.capture?, matchOf, hkept, find?_slot_append, List.find?_cons_of_pos (by simp)]
      · rw [byteLength_append (u ++ x), byteLength_append u, ← hr'.2, ← hr.2]
        rfl
      · intro c hc heq
        exact hslot (heq ▸ hslots c hc)
    · rw [hrn, hry, hbetween] at hx
      exact hx
    · rw [hr.1, hry] at hn
      exact hn
    · rw [hr'.1] at hy
      exact hy

/-- What a match keeps of a text whose parts are known. -/
theorem text_of_capture? {m : Match} {slot : Slot} {u n v source : List Char}
    (hcapture : m.capture? slot = some ⟨byteLength u, byteLength (u ++ n)⟩)
    (hsource : source = u ++ (n ++ v)) : m.text slot source = n := by
  rw [Match.text, hcapture, hsource, byteLength_append]
  exact slice_of_append u n v

/-- What is kept on such a way is the text between those in front and behind. -/
theorem Leads.exists_parts {ps qs : List Pattern} {slot : Slot} {q : Pattern} {u v : List Char}
    {t : State} (h : Leads (inOrder (ps ++ .keep slot q :: qs)) ⟨Cursor.between u v, []⟩ t)
    (hslot : slot ∉ (inOrder qs).slots) :
    ∃ x n y z, v = x ++ (n ++ (y ++ z)) ∧ t.cursor.offset = byteLength (u ++ x ++ n ++ y)
      ∧ (matchOf (Cursor.between u v) t).text slot (u ++ v) = n
      ∧ (inOrder ps).Spells u.getLast? x (n ++ (y ++ z))
      ∧ q.Spells (x.getLast?.or u.getLast?) n (y ++ z)
      ∧ (inOrder qs).Spells (n.getLast?.or (x.getLast?.or u.getLast?)) y z := by
  obtain ⟨x, n, y, z, hv, hstop, hcapture, hspells⟩ := h.exists_capture hslot
  refine ⟨x, n, y, z, hv, hstop, text_of_capture? hcapture (v := y ++ z) ?_, hspells⟩
  rw [hv, List.append_assoc]

/-! ### The texts of common patterns -/

section Common

variable {before : Option Char} {w behind : List Char}

theorem spells_inOrder_cons {p : Pattern} {ps : List Pattern} :
    (inOrder (p :: ps)).Spells before w behind ↔ ∃ x y, w = x ++ y
      ∧ p.Spells before x (y ++ behind) ∧ (inOrder ps).Spells (x.getLast?.or before) y behind := by
  cases ps with
  | nil =>
    constructor
    · exact fun h => ⟨w, [], (List.append_nil w).symm, h, rfl⟩
    · rintro ⟨x, y, rfl, hx, rfl⟩
      rw [List.append_nil]
      exact hx
  | cons q qs => exact Iff.rfl

theorem spells_inOrder_append {ps qs : List Pattern} :
    (inOrder (ps ++ qs)).Spells before w behind ↔ ∃ x y, w = x ++ y
      ∧ (inOrder ps).Spells before x (y ++ behind)
      ∧ (inOrder qs).Spells (x.getLast?.or before) y behind := by
  induction ps generalizing before w with
  | nil =>
    constructor
    · exact fun h => ⟨[], w, rfl, rfl, h⟩
    · rintro ⟨x, y, rfl, rfl, hy⟩
      exact hy
  | cons p ps ih =>
    rw [List.cons_append, spells_inOrder_cons]
    constructor
    · rintro ⟨x, y, rfl, hx, hy⟩
      obtain ⟨y, z, rfl, hy, hz⟩ := ih.mp hy
      refine ⟨x ++ y, z, (List.append_assoc x y z).symm, ?_, ?_⟩
      · exact spells_inOrder_cons.mpr ⟨x, y, rfl, by rwa [List.append_assoc] at hx, hy⟩
      · rwa [List.getLast?_append, Option.or_assoc]
    · rintro ⟨xy, z, rfl, hxy, hz⟩
      obtain ⟨x, y, rfl, hx, hy⟩ := spells_inOrder_cons.mp hxy
      refine ⟨x, y ++ z, List.append_assoc x y z, by rwa [List.append_assoc], ih.mpr ?_⟩
      rw [List.getLast?_append, Option.or_assoc] at hz
      exact ⟨y, z, rfl, hy, hz⟩

theorem spells_char {c : Char} : (char c).Spells before w behind ↔ w = [c] := by
  constructor
  · rintro ⟨d, rfl, hd⟩
    rw [beq_iff_eq.mp hd]
  · rintro rfl
    exact ⟨c, rfl, beq_self_eq_true c⟩

theorem spells_literal {l : String} : (literal l).Spells before w behind ↔ w = l.toList := by
  rw [literal]
  generalize l.toList = ds
  induction ds generalizing before w with
  | nil => exact Iff.rfl
  | cons d ds ih =>
    rw [List.map_cons, spells_inOrder_cons]
    constructor
    · rintro ⟨x, y, rfl, hx, hy⟩
      rw [spells_char.mp hx, ih.mp hy]
      rfl
    · rintro rfl
      exact ⟨[d], ds, rfl, spells_char.mpr rfl, ih.mpr rfl⟩

theorem spells_words {first : String} {others : List String} :
    (Pattern.words first others).Spells before w behind
      ↔ ∃ l ∈ first :: others, w = l.toList := by
  induction others generalizing first with
  | nil =>
    rw [Pattern.words, List.map_nil, oneOf, spells_literal]
    simp
  | cons second others ih =>
    show (literal first).Spells before w behind
      ∨ (Pattern.words second others).Spells before w behind ↔ _
    rw [spells_literal, ih]
    simp

theorem spells_blanks1 : blanks1.Spells before w behind
    ↔ w ≠ [] ∧ (∀ c ∈ w, isBlank c = true) ∧ ∀ c ∈ behind.head?, isBlank c = false := by
  constructor
  · rintro ⟨x, y, rfl, ⟨c, rfl, hc⟩, hy, hbehind⟩
    refine ⟨by simp, fun d hd => ?_, hbehind⟩
    rcases List.mem_cons.mp hd with rfl | hd
    · exact hc
    · exact hy d hd
  · rintro ⟨hne, hw, hbehind⟩
    obtain ⟨c, cs, rfl⟩ := List.exists_cons_of_ne_nil hne
    exact ⟨[c], cs, rfl, ⟨c, rfl, hw c List.mem_cons_self⟩,
      fun d hd => hw d (List.mem_cons_of_mem _ hd), hbehind⟩

/-- An identifier: a character one can begin with, and characters it can go on with. -/
def IsIdentifier (cs : List Char) : Prop :=
  (∃ c ∈ cs.head?, isIdentifierStart c = true) ∧ ∀ c ∈ cs, isIdentifierPart c = true

theorem spells_identifier : identifier.Spells before w behind
    ↔ IsIdentifier w ∧ ∀ c ∈ behind.head?, isIdentifierPart c = false := by
  constructor
  · rintro ⟨x, y, rfl, ⟨c, rfl, hc⟩, hy, hbehind⟩
    refine ⟨⟨⟨c, rfl, hc⟩, fun d hd => ?_⟩, hbehind⟩
    rcases List.mem_cons.mp hd with rfl | hd
    · exact isIdentifierPart_of_isIdentifierStart hc
    · exact hy d hd
  · rintro ⟨⟨⟨c, hhead, hc⟩, hw⟩, hbehind⟩
    obtain ⟨cs, rfl⟩ : ∃ cs, w = c :: cs := by
      cases w with
      | nil => cases hhead
      | cons d cs => exact ⟨cs, by rw [Option.some.inj hhead]⟩
    exact ⟨[c], cs, rfl, ⟨c, rfl, hc⟩, fun d hd => hw d (List.mem_cons_of_mem _ hd), hbehind⟩

end Common

end Pattern

end Scaffold

/-
Markers stand exactly around the bodies that have a bar.

Both walks over the nesting of a phrase are computed (`barredExits_forward`,
`barredExits_backward`): they find the closing and the opening parentheses of
its barred groups. The markers made from that, woven between the tokens, give
the items of the phrase (`weave_tokens`, `itemsOf_eq_body`).
-/
import RegexAutomaton.Proofs.Phrase
import RegexAutomaton.Proofs.TokenNesting

namespace RegexAutomaton

/-! ## The walks -/

namespace Phrase

/-- The nesting of the tokens of a phrase. -/
def nesting (p : Phrase) : List (Nat × Nesting) := Nesting.ofTokens p.tokens

/-- The offsets of the closing parentheses of the barred groups. -/
def closings : Phrase → List Nat
  | nil => []
  | leaf _ _ rest => rest.closings
  | group _ inner closing rest =>
    inner.closings ++ ((if inner.barred then [closing] else []) ++ rest.closings)

/-- The offsets of the opening parentheses of the barred groups, from the last
to the first. -/
def openings : Phrase → List Nat
  | nil => []
  | leaf _ _ rest => rest.openings
  | group opening inner _ rest =>
    rest.openings ++ (inner.openings ++ (if inner.barred then [opening] else []))

@[simp] theorem nesting_nil : nesting nil = [] := rfl

theorem nesting_leaf (t : Spanned Token) (h : t.value.IsLeaf) (rest : Phrase) :
    nesting (leaf t h rest) =
      (if t.value == .bar then [(t.offset, .bar)] else []) ++ rest.nesting := by
  obtain ⟨value, offset, width⟩ := t
  cases value with
  | groupOpen => exact absurd rfl h.1
  | groupClose => exact absurd rfl h.2
  | _ => rfl

theorem nesting_group (opening : Nat) (inner : Phrase) (closing : Nat) (rest : Phrase) :
    nesting (group opening inner closing rest) =
      (opening, .opening) :: (inner.nesting ++ (closing, .closing) :: rest.nesting) := by
  simp [nesting, tokens, Nesting.ofTokens, Token.nesting?]

end Phrase

namespace Nesting

/-- What is known of the levels after a stretch on the level reached, with a
bar in it or not. -/
def noted (barred : Bool) : (inner : List Bool) → (outer : Bool) → List Bool × Bool
  | [], outer => ([], outer || barred)
  | b :: below, outer => ((b || barred) :: below, outer)

@[simp] theorem noted_false (inner : List Bool) (outer : Bool) :
    noted false inner outer = (inner, outer) := by
  cases inner <;> simp [noted]

@[simp] theorem noted_entered (barred : Bool) (inner : List Bool) (outer : Bool) :
    noted barred (false :: inner) outer = (barred :: inner, outer) := by
  simp [noted]

theorem noted_noted (a b : Bool) (inner : List Bool) (outer : Bool) :
    noted b (noted a inner outer).1 (noted a inner outer).2 = noted (a || b) inner outer := by
  cases inner <;> simp [noted, Bool.or_assoc]

theorem barredExits_bar (enter : Nesting) (inner : List Bool) (outer : Bool) (offset : Nat)
    (later : List (Nat × Nesting)) :
    barredExits enter inner outer ((offset, bar) :: later) =
      barredExits enter (noted true inner outer).1 (noted true inner outer).2 later := by
  cases inner <;> simp [barredExits, noted]

theorem barredExits_enter {enter : Nesting} (h : enter ≠ bar) (inner : List Bool) (outer : Bool)
    (offset : Nat) (later : List (Nat × Nesting)) :
    barredExits enter inner outer ((offset, enter) :: later) =
      barredExits enter (false :: inner) outer later := by
  rw [barredExits.eq_def]
  simp only [if_neg h, ↓reduceIte]

theorem barredExits_leave {enter leave : Nesting} (hbar : leave ≠ bar) (h : leave ≠ enter)
    (barred : Bool) (below : List Bool) (outer : Bool) (offset : Nat) (later : List (Nat × Nesting)) :
    barredExits enter (barred :: below) outer ((offset, leave) :: later) =
      ((if barred then [offset] else []) ++ (barredExits enter below outer later).1,
        (barredExits enter below outer later).2) := by
  rw [barredExits, if_neg hbar, if_neg h]
  cases barred <;> rfl

/-- From left to right a phrase yields the ends of its barred groups. -/
theorem barredExits_forward (p : Phrase) (inner : List Bool) (outer : Bool)
    (later : List (Nat × Nesting)) :
    barredExits opening inner outer (p.nesting ++ later) =
      let r := barredExits opening (noted p.barred inner outer).1 (noted p.barred inner outer).2 later
      (p.closings ++ r.1, r.2) := by
  induction p generalizing inner outer later with
  | nil => simp [Phrase.barred, Phrase.closings]
  | leaf t h rest ih =>
    rw [Phrase.nesting_leaf, Phrase.barred, Phrase.closings]
    cases t.value == .bar with
    | false => exact ih inner outer later
    | true =>
      rw [if_pos rfl, List.singleton_append, List.cons_append, barredExits_bar, ih, noted_noted]
  | group o body z rest ihBody ihRest =>
    rw [Phrase.nesting_group, List.cons_append, barredExits_enter (by decide), List.append_assoc, ihBody]
    simp only [noted_entered, List.cons_append]
    rw [barredExits_leave (by decide) (by decide), ihRest]
    simp only [Phrase.barred, Phrase.closings, List.append_assoc]

/-- From right to left a phrase yields the starts of its barred groups. -/
theorem barredExits_backward (p : Phrase) (inner : List Bool) (outer : Bool)
    (later : List (Nat × Nesting)) :
    barredExits closing inner outer (p.nesting.reverse ++ later) =
      let r := barredExits closing (noted p.barred inner outer).1 (noted p.barred inner outer).2 later
      (p.openings ++ r.1, r.2) := by
  induction p generalizing inner outer later with
  | nil => simp [Phrase.barred, Phrase.openings]
  | leaf t h rest ih =>
    rw [Phrase.nesting_leaf, Phrase.barred, Phrase.openings]
    cases t.value == .bar with
    | false => exact ih inner outer later
    | true =>
      rw [if_pos rfl, List.singleton_append, List.reverse_cons, List.append_assoc, ih,
        List.singleton_append, barredExits_bar, noted_noted, Bool.or_comm]
  | group o body z rest ihBody ihRest =>
    rw [Phrase.nesting_group, List.reverse_cons, List.reverse_append, List.reverse_cons]
    simp only [List.append_assoc, List.cons_append, List.nil_append]
    rw [ihRest]
    simp only [barredExits_enter (show closing ≠ bar by decide)]
    rw [ihBody]
    simp only [noted_entered]
    rw [barredExits_leave (by decide) (by decide)]
    simp only [Phrase.barred, Phrase.openings, List.append_assoc]

theorem barredExits_of_no_bar {enter : Nesting} {parts : List (Nat × Nesting)}
    (hparts : ∀ part ∈ parts, part.2 ≠ bar) {inner : List Bool} (hinner : ∀ b ∈ inner, b = false) :
    barredExits enter inner false parts = ([], false) := by
  induction parts generalizing inner with
  | nil => rfl
  | cons part parts ih =>
    obtain ⟨offset, part⟩ := part
    have hrest : ∀ part ∈ parts, part.2 ≠ bar := fun part h => hparts part (by simp [h])
    rw [barredExits.eq_def]
    simp only [if_neg (hparts (offset, part) (by simp))]
    split
    · exact ih hrest (by simpa using hinner)
    · cases inner with
      | nil => exact ih hrest (by simp)
      | cons b below =>
        obtain rfl := hinner b (by simp)
        have hbelow : ∀ b ∈ below, b = false := fun b hb => hinner b (by simp [hb])
        simp only [ih hrest hbelow, Bool.false_eq_true, if_false]

end Nesting

/-! ## Where the parentheses lie -/

namespace Phrase

open Spanned

/-- A barred group lies within its phrase and is not empty. -/
theorem mem_openings_bounds {p : Phrase} {first last x : Nat} (h : Tiles first p.tokens last)
    (hx : x ∈ p.openings) : first ≤ x ∧ x + 1 < last := by
  induction p generalizing first last with
  | nil => cases hx
  | leaf t hleaf rest ih =>
    obtain ⟨rfl, hpos, hrest⟩ := h
    have := ih hrest hx
    simp only [finish] at this
    omega
  | group o inner z rest ihBody ihRest =>
    simp only [tokens, Tiles, finish, tiles_append] at h
    obtain ⟨rfl, -, m, hinner, rfl, -, hrest⟩ := h
    have hle := hinner.le
    have hle' := hrest.le
    simp only [openings, List.mem_append] at hx
    rcases hx with hx | hx | hx
    · have := ihRest hrest hx
      omega
    · have := ihBody hinner hx
      omega
    · split at hx
      · simp only [List.mem_singleton] at hx
        omega
      · cases hx

theorem mem_closings_bounds {p : Phrase} {first last x : Nat} (h : Tiles first p.tokens last)
    (hx : x ∈ p.closings) : first < x ∧ x < last := by
  induction p generalizing first last with
  | nil => cases hx
  | leaf t hleaf rest ih =>
    obtain ⟨rfl, hpos, hrest⟩ := h
    have := ih hrest hx
    simp only [finish] at this
    omega
  | group o inner z rest ihBody ihRest =>
    simp only [tokens, Tiles, finish, tiles_append] at h
    obtain ⟨rfl, -, m, hinner, rfl, -, hrest⟩ := h
    have hle := hinner.le
    have hle' := hrest.le
    simp only [closings, List.mem_append] at hx
    rcases hx with hx | hx | hx
    · have := ihBody hinner hx
      omega
    · split at hx
      · simp only [List.mem_singleton] at hx
        omega
      · cases hx
    · have := ihRest hrest hx
      omega

theorem first_lt_last {p : Phrase} {first last : Nat} (h : Tiles first p.tokens last) (hp : p ≠ nil) :
    first < last := by
  cases p with
  | nil => exact absurd rfl hp
  | leaf t hleaf rest =>
    obtain ⟨rfl, hpos, hrest⟩ := h
    have := hrest.le
    simp only [finish] at this
    omega
  | group o inner z rest =>
    simp only [tokens, Tiles, finish] at h
    have := h.2.2.le
    omega

end Phrase

/-! ## Weaving -/

namespace Markers

open Spanned Phrase

/-- Strictly between the offsets `first` and `last` the markers are those of the
barred groups of a phrase. -/
structure Suit (m : Markers) (p : Phrase) (first last : Nat) : Prop where
  starts : ∀ o, first < o → o < last → (m.startsAt o = true ↔ ∃ x ∈ p.openings, o = x + 1)
  ends : ∀ o, first ≤ o → o < last → (m.endsAt o = true ↔ o ∈ p.closings)

theorem itemsAt_of_not {m : Markers} {o : Nat} (opened : Nat) (hs : ¬ m.startsAt o = true)
    (he : ¬ m.endsAt o = true) : m.itemsAt opened o = [] ∧ m.openedAfter opened o = opened := by
  simp [itemsAt, openedAfter, hs, he]

/-- The markers at the two ends of a body: a start and an end if it is barred. -/
structure Encloses (m : Markers) (barred : Bool) (first last : Nat) : Prop where
  startsAt_first : m.startsAt first = barred
  endsAt_first : ¬ m.endsAt first = true
  startsAt_last : ¬ m.startsAt last = true
  endsAt_last : m.endsAt last = barred

namespace Encloses

variable {m : Markers} {barred : Bool} {first last : Nat}

theorem itemsAt (h : m.Encloses barred first last) (opened : Nat) (items : List (Spanned Item)) :
    m.itemsAt opened first ++ (items ++ m.itemsAt (m.openedAfter opened first) last) =
      mark barred first last items := by
  obtain ⟨hs, he, hs', he'⟩ := h
  cases barred <;> simp [Markers.itemsAt, openedAfter, mark, hs, he, hs', he']

/-- What a body opens, it closes. -/
theorem openedAfter (h : m.Encloses barred first last) (opened : Nat) :
    m.openedAfter (m.openedAfter opened first) last = opened := by
  obtain ⟨hs, he, hs', he'⟩ := h
  cases barred <;> simp [Markers.openedAfter, hs, he, hs', he']

end Encloses

theorem Suit.leaf {m : Markers} {t : Spanned Token} {h : t.value.IsLeaf} {rest : Phrase}
    {first last : Nat} (hm : m.Suit (.leaf t h rest) first last) (hle : first ≤ t.finish) :
    m.Suit rest t.finish last :=
  ⟨fun o ho ho' => hm.starts o (by omega) ho', fun o ho ho' => hm.ends o (by omega) ho'⟩

section
variable {m : Markers} {o z last : Nat} {inner rest : Phrase}
  (hm : m.Suit (.group o inner z rest) o last) (hinner : Tiles (o + 1) inner.tokens z)
  (hrest : Tiles (z + 1) rest.tokens last)
include hm hinner hrest

/-- What the markers say from the opening parenthesis of a group on, part by
part. -/
theorem Suit.group {x : Nat} (hx : o < x) (hx' : x < last) :
    (m.startsAt x = true ↔ (inner.barred = true ∧ x = o + 1) ∨
      (x < z ∧ ∃ y ∈ inner.openings, x = y + 1) ∨ (z + 1 < x ∧ ∃ y ∈ rest.openings, x = y + 1)) ∧
    (m.endsAt x = true ↔ (inner.barred = true ∧ x = z) ∨
      (o + 1 < x ∧ x < z ∧ x ∈ inner.closings) ∨ (z + 1 < x ∧ x ∈ rest.closings)) := by
  rw [hm.starts x hx hx', hm.ends x (by omega) hx']
  simp only [openings, closings, List.mem_append]
  constructor
  · constructor
    · intro hmem
      rcases hmem with ⟨y, hy | hy | hy, rfl⟩
      · have := mem_openings_bounds hrest hy
        exact .inr (.inr ⟨by omega, y, hy, rfl⟩)
      · have := mem_openings_bounds hinner hy
        exact .inr (.inl ⟨by omega, y, hy, rfl⟩)
      · split at hy
        · exact .inl ⟨‹_›, by rw [List.mem_singleton.1 hy]⟩
        · cases hy
    · intro hmem
      rcases hmem with ⟨hb, rfl⟩ | ⟨-, y, hy, rfl⟩ | ⟨-, y, hy, rfl⟩
      · exact ⟨o, by simp [hb], rfl⟩
      · exact ⟨y, by simp [hy], rfl⟩
      · exact ⟨y, by simp [hy], rfl⟩
  · constructor
    · intro hmem
      rcases hmem with hy | hy | hy
      · have := mem_closings_bounds hinner hy
        exact .inr (.inl ⟨this.1, this.2, hy⟩)
      · split at hy
        · exact .inl ⟨‹_›, List.mem_singleton.1 hy⟩
        · cases hy
      · have := mem_closings_bounds hrest hy
        exact .inr (.inr ⟨this.1, hy⟩)
    · intro hmem
      rcases hmem with ⟨hb, rfl⟩ | ⟨-, -, hy⟩ | ⟨-, hy⟩
      · simp [hb]
      · simp [hy]
      · simp [hy]

theorem Suit.inside : m.Suit inner (o + 1) z := by
  have hle := hrest.le
  refine ⟨fun x hx hx' => ?_, fun x hx hx' => ?_⟩
  · rw [(hm.group hinner hrest (by omega) (by omega)).1]
    constructor
    · intro h
      rcases h with ⟨-, h⟩ | ⟨-, h⟩ | ⟨h, -⟩
      · omega
      · exact h
      · omega
    · exact fun h => .inr (.inl ⟨hx', h⟩)
  · rw [(hm.group hinner hrest (by omega) (by omega)).2]
    constructor
    · intro h
      rcases h with ⟨-, h⟩ | ⟨-, -, h⟩ | ⟨h, -⟩
      · omega
      · exact h
      · omega
    · exact fun h => .inr (.inl ⟨(mem_closings_bounds hinner h).1, hx', h⟩)

theorem Suit.after : m.Suit rest (z + 1) last := by
  have hle := hinner.le
  refine ⟨fun x hx hx' => ?_, fun x hx hx' => ?_⟩
  · rw [(hm.group hinner hrest (by omega) hx').1]
    constructor
    · intro h
      rcases h with ⟨-, h⟩ | ⟨h, -⟩ | ⟨-, h⟩
      · omega
      · omega
      · exact h
    · exact fun h => .inr (.inr ⟨hx, h⟩)
  · rw [(hm.group hinner hrest (by omega) hx').2]
    constructor
    · intro h
      rcases h with ⟨-, h⟩ | ⟨-, h, -⟩ | ⟨-, h⟩
      · omega
      · omega
      · exact h
    · exact fun h => .inr (.inr ⟨(mem_closings_bounds hrest h).1, h⟩)

/-- A group has markers right inside its parentheses if it is barred. -/
theorem Suit.encloses (hz : o + 1 < z) : m.Encloses inner.barred (o + 1) z := by
  have hle := hrest.le
  obtain ⟨hs, he⟩ := hm.group hinner hrest (x := o + 1) (by omega) (by omega)
  obtain ⟨hs', he'⟩ := hm.group hinner hrest (x := z) (by omega) (by omega)
  refine ⟨?_, ?_, ?_, ?_⟩
  · rw [Bool.eq_iff_iff, hs]
    constructor
    · intro h
      rcases h with ⟨h, -⟩ | ⟨-, y, hy, h⟩ | ⟨h, -⟩
      · exact h
      · have := mem_openings_bounds hinner hy
        omega
      · omega
    · exact fun h => .inl ⟨h, rfl⟩
  · rw [he]
    intro h
    rcases h with ⟨-, h⟩ | ⟨h, -⟩ | ⟨h, -⟩ <;> omega
  · rw [hs']
    intro h
    rcases h with ⟨-, h⟩ | ⟨h, -⟩ | ⟨h, -⟩ <;> omega
  · rw [Bool.eq_iff_iff, he']
    constructor
    · intro h
      rcases h with ⟨h, -⟩ | ⟨-, h, -⟩ | ⟨h, -⟩
      · exact h
      · omega
      · omega
    · exact fun h => .inl ⟨h, rfl⟩

/-- Right after the closing parenthesis there is neither, unless another body
ends there. -/
theorem Suit.at_after (hz : z + 1 < last) :
    ¬ m.startsAt (z + 1) = true ∧ ¬ m.endsAt (z + 1) = true := by
  have hle := hinner.le
  obtain ⟨hs, he⟩ := hm.group hinner hrest (x := z + 1) (by omega) hz
  rw [hs, he]
  constructor
  · intro h
    rcases h with ⟨-, h⟩ | ⟨h, -⟩ | ⟨h, -⟩ <;> omega
  · intro h
    rcases h with ⟨-, h⟩ | ⟨-, h, -⟩ | ⟨h, -⟩ <;> omega

/-- An empty group has no markers. -/
theorem Suit.at_empty (hz : o + 1 = z) (hb : inner.barred = false) :
    ¬ m.startsAt z = true ∧ ¬ m.endsAt z = true := by
  have hle := hrest.le
  obtain ⟨hs, he⟩ := hm.group hinner hrest (x := z) (by omega) (by omega)
  rw [hs, he, hb]
  constructor
  · intro h
    rcases h with ⟨h, -⟩ | ⟨h, -⟩ | ⟨h, -⟩
    · cases h
    · omega
    · omega
  · intro h
    rcases h with ⟨h, -⟩ | ⟨-, h, -⟩ | ⟨h, -⟩
    · cases h
    · omega
    · omega

end

theorem Suit.at_rest {m : Markers} {t : Spanned Token} {h : t.value.IsLeaf} {rest : Phrase}
    {first last : Nat} (hm : m.Suit (.leaf t h rest) first last) (hlt : first < t.finish)
    (hrest : Tiles t.finish rest.tokens last) (hlast : t.finish < last) :
    ¬ m.startsAt t.finish = true ∧ ¬ m.endsAt t.finish = true := by
  rw [hm.starts _ hlt hlast, hm.ends _ (Nat.le_of_lt hlt) hlast]
  constructor
  · intro hmem
    obtain ⟨y, hy, heq⟩ := hmem
    have := mem_openings_bounds (p := rest) hrest hy
    omega
  · intro hy
    have := mem_closings_bounds (p := rest) hrest hy
    omega

theorem weave_cons (m : Markers) (stop opened : Nat) (t : Spanned Token) (later : List (Spanned Token)) :
    m.weave stop opened (t :: later) =
      m.itemsAt opened t.offset ++
        t.map .token :: m.weave stop (m.openedAfter opened t.offset) later := rfl

/-- **Markers that suit a phrase, woven between its tokens, give its items.**
What stands before the first token belongs to the body as a whole. -/
theorem weave_tokens {m : Markers} {p : Phrase} {first last : Nat} (hp : p ≠ .nil)
    (h : Tiles first p.tokens last) (hm : m.Suit p first last) (stop opened : Nat)
    (later : List (Spanned Token)) :
    m.weave stop opened (p.tokens ++ later) =
      m.itemsAt opened first ++ (p.items ++ m.weave stop (m.openedAfter opened first) later) := by
  induction p generalizing first last opened later with
  | nil => exact absurd rfl hp
  | leaf t hleaf rest ih =>
    obtain ⟨rfl, hpos, hrest⟩ := h
    have hlt : t.offset < t.finish := by
      simp only [finish]
      omega
    rw [Phrase.tokens, List.cons_append, weave_cons, items, List.cons_append]
    congr 2
    by_cases hnil : rest = .nil
    · subst hnil
      rfl
    · have hlast := first_lt_last hrest hnil
      obtain ⟨hs, he⟩ := hm.at_rest hlt hrest hlast
      obtain ⟨hitems, hopened⟩ := itemsAt_of_not (m.openedAfter opened t.offset) hs he
      rw [ih hnil hrest (hm.leaf (Nat.le_of_lt hlt)), hitems, hopened, List.nil_append]
  | group o inner z rest ihBody ihRest =>
    simp only [Phrase.tokens, Tiles, finish, tiles_append] at h
    obtain ⟨rfl, -, m', hinner, rfl, -, hrest⟩ := h
    have hbody (n : Nat) (later : List (Spanned Token)) :
        m.weave stop n (inner.tokens ++ ⟨.groupClose, z, 1⟩ :: later) =
          mark inner.barred (o + 1) z inner.items ++
            ⟨.token .groupClose, z, 1⟩ :: m.weave stop n later := by
      by_cases hnil : inner = .nil
      · subst hnil
        obtain ⟨hs, he⟩ := hm.at_empty hinner hrest hinner rfl
        obtain ⟨hitems, hopened⟩ := itemsAt_of_not n hs he
        simp only [Phrase.tokens, List.nil_append, weave_cons, hitems, hopened]
        rfl
      · have hz := first_lt_last hinner hnil
        have hencloses := hm.encloses hinner hrest hz
        rw [ihBody hnil hinner (hm.inside hinner hrest), weave_cons, hencloses.openedAfter,
          ← hencloses.itemsAt n, List.append_assoc, List.append_assoc]
        rfl
    have hafter (n : Nat) : m.weave stop n (rest.tokens ++ later) = rest.items ++ m.weave stop n later := by
      by_cases hnil : rest = .nil
      · subst hnil
        rfl
      · obtain ⟨hs, he⟩ := hm.at_after hinner hrest (first_lt_last hrest hnil)
        obtain ⟨hitems, hopened⟩ := itemsAt_of_not n hs he
        rw [ihRest hnil hrest (hm.after hinner hrest), hitems, hopened, List.nil_append]
    rw [Phrase.tokens, List.cons_append, weave_cons, List.append_assoc, List.cons_append, hbody, hafter,
      items]
    simp [Spanned.map]

/-! ## The markers of a pattern -/

theorem ofPattern?_getD (pattern : List Char) :
    (ofPattern? pattern).getD .empty =
      let left := Nesting.barredExits .closing [] false (Nesting.ofPattern pattern).reverse
      let right := Nesting.barredExits .opening [] false (Nesting.ofPattern pattern)
      { starts := (if left.2 then [0] else []) ++ (left.1.map (· + 1)).reverse
        ends := right.1 ++ (if right.2 then [pattern.length] else []) } := by
  unfold ofPattern?
  simp only
  split
  · rfl
  · next hbar =>
    simp only [List.any_eq_true, beq_iff_eq, not_exists, not_and] at hbar
    rw [Nesting.barredExits_of_no_bar hbar (by simp),
      Nesting.barredExits_of_no_bar (fun part h => hbar part (List.mem_reverse.1 h)) (by simp)]
    rfl

/-- The markers of a pattern with the tokens of a phrase. -/
theorem ofPattern?_eq {encoding : Encoding} {pattern : List Char} {p : Phrase}
    (h : (Token.read encoding).Reads 0 pattern p.tokens) :
    (ofPattern? pattern).getD .empty =
      { starts := (if p.barred then [0] else []) ++ (p.openings.map (· + 1)).reverse
        ends := p.closings ++ (if p.barred then [pattern.length] else []) } := by
  have hforward := Nesting.barredExits_forward p [] false []
  have hbackward := Nesting.barredExits_backward p [] false []
  simp only [List.append_nil, Nesting.noted, Bool.false_or, Nesting.barredExits] at hforward hbackward
  rw [nesting] at hforward hbackward
  rw [ofPattern?_getD, Nesting.ofPattern_eq h]
  simp only [hforward, hbackward]

section
variable {encoding : Encoding} {pattern : List Char} {p : Phrase}
  (h : (Token.read encoding).Reads 0 pattern p.tokens)
include h

theorem startsAt_ofPattern? (o : Nat) : ((ofPattern? pattern).getD .empty).startsAt o = true ↔
    (p.barred = true ∧ o = 0) ∨ ∃ x ∈ p.openings, o = x + 1 := by
  rw [ofPattern?_eq h]
  cases p.barred <;> simp [startsAt, @eq_comm _ o]

theorem endsAt_ofPattern? (o : Nat) : ((ofPattern? pattern).getD .empty).endsAt o = true ↔
    o ∈ p.closings ∨ (p.barred = true ∧ o = pattern.length) := by
  rw [ofPattern?_eq h]
  cases p.barred <;> simp [endsAt]

theorem tiles_pattern : Tiles 0 p.tokens pattern.length := by
  have htiles := h.tiles (Token.fits_read encoding)
  rwa [Nat.zero_add] at htiles

/-- The markers inside a pattern are those of its groups. -/
theorem suit_ofPattern? : ((ofPattern? pattern).getD .empty).Suit p 0 pattern.length := by
  refine ⟨fun o ho ho' => (startsAt_ofPattern? h o).trans ?_, fun o ho ho' => (endsAt_ofPattern? h o).trans ?_⟩
  · exact or_iff_right fun h => by omega
  · exact or_iff_left fun h => by omega

/-- The markers at the ends of a pattern are those of the whole. -/
theorem encloses_ofPattern? (hlen : 0 < pattern.length) :
    ((ofPattern? pattern).getD .empty).Encloses p.barred 0 pattern.length := by
  have htiles := tiles_pattern h
  refine ⟨?_, ?_, ?_, ?_⟩
  · rw [Bool.eq_iff_iff, startsAt_ofPattern? h]
    simp
  · rw [endsAt_ofPattern? h]
    intro hmem
    rcases hmem with hmem | hmem
    · have := mem_closings_bounds htiles hmem
      omega
    · omega
  · rw [startsAt_ofPattern? h]
    intro hmem
    rcases hmem with hmem | ⟨x, hx, hmem⟩
    · omega
    · have := mem_openings_bounds htiles hx
      omega
  · rw [Bool.eq_iff_iff, endsAt_ofPattern? h]
    constructor
    · intro hmem
      rcases hmem with hmem | hmem
      · have := mem_closings_bounds htiles hmem
        omega
      · exact hmem.1
    · exact fun hbarred => .inr ⟨hbarred, rfl⟩

/-- **The items of a pattern are those of its phrase**: each body with a bar,
and no other, has markers around it. -/
theorem itemsOf_eq_body :
    ((ofPattern? pattern).getD .empty).itemsOf (tokens encoding pattern) = p.body 0 pattern.length := by
  rw [itemsOf, tokens_of_reads h]
  by_cases hnil : p = .nil
  · subst hnil
    have hs : ¬ ((ofPattern? pattern).getD .empty).startsAt pattern.length = true := by
      simp [startsAt_ofPattern? h, barred, openings]
    have he : ¬ ((ofPattern? pattern).getD .empty).endsAt pattern.length = true := by
      simp [endsAt_ofPattern? h, barred, closings]
    exact (itemsAt_of_not _ hs he).1
  · have htiles := tiles_pattern h
    have hweave := weave_tokens hnil htiles (suit_ofPattern? h) pattern.length 0 []
    rw [List.append_nil, weave] at hweave
    exact hweave.trans ((encloses_ofPattern? h (first_lt_last htiles hnil)).itemsAt 0 p.items)

end

end Markers

end RegexAutomaton

/-
Where the markers of any pattern stand.

A pattern need not be well formed to have markers. Up to the place where its tokens
end, the parentheses and bars found symbol by symbol are those of its tokens
(`ofPattern_eq_append`), so an alternation ends only right before a `)`
(`endsAt_token`) and starts only at the start of the pattern or right after a `(`
(`startsAt_finish`). Both depend on what the two walks know there (`Nesting.levels`).
-/
import RegexAutomaton.Proofs.MarkerPlacement

namespace RegexAutomaton

/-! ## The walks -/

namespace Nesting

variable {enter part : Nesting} {inner : List Bool} {outer : Bool} {left right parts : List (Nat × Nesting)} {x : Nat}

/-- What is known of the levels inside the outermost one after one more part. -/
def level (enter : Nesting) (inner : List Bool) (part : Nesting) : List Bool :=
  if part = bar then
    match inner with
    | [] => []
    | _ :: below => true :: below
  else if part = enter then false :: inner
  else inner.tail

/-- What is known of these levels after some parts. -/
def levels (enter : Nesting) (inner : List Bool) (parts : List (Nat × Nesting)) : List Bool :=
  parts.foldl (fun inner part => level enter inner part.2) inner

theorem barredExits_cons (enter : Nesting) (inner : List Bool) (outer : Bool) (offset : Nat) (part : Nesting)
    (rest : List (Nat × Nesting)) :
    barredExits enter inner outer ((offset, part) :: rest) =
      let later := barredExits enter (level enter inner part) (outer || (part == bar && inner.isEmpty)) rest
      (if part ≠ bar ∧ part ≠ enter ∧ inner.head? = some true then offset :: later.1 else later.1, later.2) := by
  rw [barredExits.eq_def]
  by_cases hbar : part = bar
  · cases inner <;> simp [level, hbar]
  · by_cases henter : part = enter
    · subst henter
      simp [level, hbar, beq_eq_false_iff_ne.2 hbar]
    · cases inner with
      | nil => simp [level, hbar, henter, beq_eq_false_iff_ne.2 hbar]
      | cons barred below => cases barred <;> simp [level, hbar, henter]

theorem barredExits_append (enter : Nesting) (inner : List Bool) (outer : Bool) (left right : List (Nat × Nesting)) :
    barredExits enter inner outer (left ++ right) =
      let here := barredExits enter inner outer left
      let later := barredExits enter (levels enter inner left) here.2 right
      (here.1 ++ later.1, later.2) := by
  induction left generalizing inner outer with
  | nil => rfl
  | cons head left ih =>
    obtain ⟨offset, part⟩ := head
    rw [List.cons_append, barredExits_cons, barredExits_cons, ih]
    simp only [levels, List.foldl_cons]
    split <;> rfl

theorem exists_of_mem_barredExits (h : x ∈ (barredExits enter inner outer parts).1) : ∃ part ∈ parts, part.1 = x := by
  induction parts generalizing inner outer with
  | nil => cases h
  | cons head parts ih =>
    obtain ⟨offset, part⟩ := head
    have hlater {inner : List Bool} {outer : Bool} (h : x ∈ (barredExits enter inner outer parts).1) :
        ∃ part' ∈ (offset, part) :: parts, part'.1 = x := by
      obtain ⟨part', hmem, hx⟩ := ih h
      exact ⟨part', List.mem_cons_of_mem _ hmem, hx⟩
    rw [barredExits_cons] at h
    simp only at h
    split at h
    · rcases List.mem_cons.1 h with rfl | h
      · exact ⟨(x, part), List.mem_cons_self, rfl⟩
      · exact hlater h
    · exact hlater h

/-- Whether a barred level is left at an offset, with at most one part there. -/
theorem mem_barredExits_iff {part? : Option Nesting} (hleft : ∀ part ∈ left, part.1 ≠ x)
    (hright : ∀ part ∈ right, part.1 ≠ x) :
    x ∈ (barredExits enter inner outer (left ++ ((part?.map (x, ·)).toList ++ right))).1 ↔
      (∃ part, part? = some part ∧ part ≠ bar ∧ part ≠ enter) ∧ (levels enter inner left).head? = some true := by
  have hnone {parts : List (Nat × Nesting)} (h : ∀ part ∈ parts, part.1 ≠ x) (inner : List Bool) (outer : Bool) :
      x ∉ (barredExits enter inner outer parts).1 := fun hmem => by
    obtain ⟨part, hpart, rfl⟩ := exists_of_mem_barredExits hmem
    exact h part hpart rfl
  simp only [barredExits_append, List.mem_append, hnone hleft, hnone hright, false_or, or_false]
  cases part? with
  | none => simp [barredExits]
  | some part =>
    rw [show (some part).map (x, ·) = some (x, part) from rfl, Option.toList_some, barredExits_cons]
    split
    · next hexit => simp [hexit]
    · next hexit => simpa [barredExits] using hexit

end Nesting

/-! ## The nesting of any pattern -/

namespace Nesting

variable {encoding : Encoding} {offset : Nat} {text : List Char}

theorem offset_of_mem_ofText {part : Nat × Nesting} (h : part ∈ ofText offset text) :
    offset ≤ part.1 ∧ part.1 < offset + text.length := by
  obtain ⟨piece, hpiece, hpart⟩ := List.mem_filterMap.1 h
  obtain ⟨value, -, rfl⟩ := Option.map_eq_some_iff.1 hpart
  exact Reader.offset_of_mem_pieces hpiece

/-- Where no token can be read there is no parenthesis and no bar. -/
theorem offset_of_unread {c : Char} {rest : List Char} {e : SyntaxError}
    (h : Token.read encoding offset c rest = .error e) {part : Nat × Nesting}
    (hpart : part ∈ ofText offset (c :: rest)) : offset < part.1 := by
  have hread (part : Nesting) (width : Nat) : read offset c rest ≠ .ok (some part, width) := by
    intro hread
    unfold read at hread
    split at hread
    · cases hread
    · split at hread
      · split at hread <;> cases hread
      · next hm =>
        rw [Token.read_of_special (Metachar.ofChar?_eq_some_iff.1 hm).symm] at h
        cases h
      · next hm =>
        rw [Token.read_of_special (Metachar.ofChar?_eq_some_iff.1 hm).symm] at h
        cases h
      · next hm =>
        rw [Token.read_of_special (Metachar.ofChar?_eq_some_iff.1 hm).symm] at h
        cases h
      · cases hread
  obtain ⟨piece, hpiece, heq⟩ := List.mem_filterMap.1 hpart
  obtain ⟨value, hvalue, rfl⟩ := Option.map_eq_some_iff.1 heq
  simp only [Reader.scanFrom] at hpiece
  split at hpiece
  · next found width hok =>
    rcases List.mem_cons.1 hpiece with rfl | hpiece
    · obtain rfl : found = some value := hvalue
      exact absurd hok (hread _ _)
    · exact (Reader.offset_of_mem_pieces hpiece).1
  · cases hpiece

/-- The nesting of what is left of a text where its tokens end. -/
theorem exists_ofText_eq (encoding : Encoding) (offset : Nat) (text : List Char) :
    ∃ unread, ofText offset text = ofTokens ((Token.read encoding).scanFrom 0 offset text).pieces ++ unread ∧
      (∀ part ∈ unread, ((Token.read encoding).scanFrom 0 offset text).stop < part.1 ∧
        part.1 < offset + text.length) ∧
      (((Token.read encoding).scanFrom 0 offset text).reason = none → unread = []) := by
  induction offset, text using Reader.induction_scan (Token.fits_read encoding) with
  | nil offset => exact ⟨[], rfl, nofun, fun _ => rfl⟩
  | stop offset c rest reason hread =>
    rw [Reader.scanFrom_error _ hread]
    refine ⟨_, rfl, fun part hpart => ⟨offset_of_unread hread hpart, (offset_of_mem_ofText hpart).2⟩, nofun⟩
  | step offset c rest t width hread ih =>
    obtain ⟨-, hfit⟩ := Token.fits_read encoding hread
    obtain ⟨unread, htext, hbounds, hnone⟩ := ih
    rw [Reader.add_length_drop_cons hfit] at hbounds
    rw [Reader.scanFrom_step (Token.fits_read encoding) hread]
    refine ⟨unread, ?_, hbounds, hnone⟩
    rw [ofText_token (Token.read_eq_ok_iff.1 hread), htext, ← List.append_assoc]
    unfold ofTokens
    cases hv : t.nesting? <;> simp [hv]

/-- What is left of the nesting of a pattern where its tokens end. -/
def unread (encoding : Encoding) (pattern : List Char) : List (Nat × Nesting) :=
  (ofPattern pattern).drop (ofTokens (tokens encoding pattern).pieces).length

section
variable (encoding : Encoding) (pattern : List Char)

theorem exists_ofPattern_eq :
    ofPattern pattern = ofTokens (tokens encoding pattern).pieces ++ unread encoding pattern ∧
      (∀ part ∈ unread encoding pattern,
        (tokens encoding pattern).stop < part.1 ∧ part.1 < pattern.length) ∧
      ((tokens encoding pattern).reason = none → unread encoding pattern = []) := by
  obtain ⟨later, htext, hlater⟩ := exists_ofText_eq encoding 0 pattern
  have hpattern : ofPattern pattern = ofTokens (tokens encoding pattern).pieces ++ later := htext
  have hunread : unread encoding pattern = later := by rw [unread, hpattern, List.drop_left]
  rw [hunread]
  rw [Nat.zero_add] at hlater
  exact ⟨hpattern, hlater⟩

/-- The nesting of a pattern starts with that of its tokens. -/
theorem ofPattern_eq_append :
    ofPattern pattern = ofTokens (tokens encoding pattern).pieces ++ unread encoding pattern :=
  (exists_ofPattern_eq encoding pattern).1

end

end Nesting

/-! ## Places between the tokens -/

theorem Spanned.Tiles.bounds {α : Type} {first last : Nat} {pieces : List (Spanned α)} {u : Spanned α}
    (h : Tiles first pieces last) (hu : u ∈ pieces) : first ≤ u.offset ∧ 0 < u.width ∧ u.finish ≤ last := by
  induction pieces generalizing first with
  | nil => cases hu
  | cons s pieces ih =>
    obtain ⟨rfl, hpos, hrest⟩ := h
    rcases List.mem_cons.1 hu with rfl | hu
    · exact ⟨Nat.le_refl _, hpos, hrest.le⟩
    · have := ih hrest hu
      simp only [finish] at this ⊢
      omega

namespace Markers

open Spanned Nesting

section
variable (encoding : Encoding) (pattern : List Char)

theorem tiles_tokens : Tiles 0 (tokens encoding pattern).pieces (tokens encoding pattern).stop :=
  (Reader.tiles_scanFrom (Token.fits_read encoding) 0 pattern).1

/-- Tokens end at the end of the pattern unless there is a reason for ending before. -/
theorem stop_eq_length (h : (tokens encoding pattern).reason = none) :
    (tokens encoding pattern).stop = pattern.length :=
  ((Reader.tiles_scanFrom (Token.fits_read encoding) 0 pattern).2.1 h).trans (Nat.zero_add _)

theorem stop_lt_length (h : (tokens encoding pattern).reason ≠ none) :
    (tokens encoding pattern).stop < pattern.length :=
  Nat.lt_of_lt_of_eq ((Reader.tiles_scanFrom (Token.fits_read encoding) 0 pattern).2.2 h) (Nat.zero_add _)

/-- Where the last token ends, the tokens end. -/
theorem stop_eq_finish {encoding : Encoding} {pattern : List Char} {ts : List (Spanned Token)} {u : Spanned Token}
    (h : (tokens encoding pattern).pieces = ts ++ [u]) : (tokens encoding pattern).stop = u.finish := by
  have htiles := tiles_tokens encoding pattern
  rw [h] at htiles
  obtain ⟨middle, -, -, -, hstop⟩ := tiles_append.1 htiles
  exact hstop.symm

theorem stop_le_length : (tokens encoding pattern).stop ≤ pattern.length := by
  by_cases h : (tokens encoding pattern).reason = none
  · exact Nat.le_of_eq (stop_eq_length encoding pattern h)
  · exact Nat.le_of_lt (stop_lt_length encoding pattern h)

end

variable {encoding : Encoding} {pattern : List Char} {before after : List (Spanned Token)} {t u : Spanned Token}

theorem offset_of_mem_ofTokens {ts : List (Spanned Token)} {part : Nat × Nesting} (h : part ∈ ofTokens ts) :
    ∃ t ∈ ts, t.offset = part.1 ∧ t.value.nesting? = some part.2 := by
  obtain ⟨t, ht, hpart⟩ := List.mem_filterMap.1 h
  obtain ⟨value, hvalue, rfl⟩ := Option.map_eq_some_iff.1 hpart
  exact ⟨t, ht, rfl, hvalue⟩

/-- The nesting of a pattern around one of its tokens. -/
structure Around (encoding : Encoding) (pattern : List Char) (before : List (Spanned Token)) (t : Spanned Token)
    (after : List (Spanned Token)) : Prop where
  ofPattern_eq : ofPattern pattern =
    ofTokens before ++ ((t.value.nesting?.map (t.offset, ·)).toList ++ (ofTokens after ++ unread encoding pattern))
  before_lt : ∀ part ∈ ofTokens before, part.1 < t.offset
  after_le : ∀ part ∈ ofTokens after ++ unread encoding pattern, t.finish ≤ part.1
  width_pos : 0 < t.width
  finish_le : t.finish ≤ (tokens encoding pattern).stop

theorem around (h : (tokens encoding pattern).pieces = before ++ t :: after) :
    Around encoding pattern before t after := by
  have htiles := tiles_tokens encoding pattern
  obtain ⟨-, hunread, -⟩ := exists_ofPattern_eq encoding pattern
  rw [h] at htiles
  obtain ⟨middle, hbefore, rfl, hpos, hafter⟩ := tiles_append.1 htiles
  refine ⟨?_, fun part hpart => ?_, fun part hpart => ?_, hpos, hafter.le⟩
  · rw [ofPattern_eq_append encoding, h]
    unfold ofTokens
    cases hv : t.value.nesting? <;> simp [hv]
  · obtain ⟨u, hu, hoffset, -⟩ := offset_of_mem_ofTokens hpart
    have := hbefore.bounds hu
    simp only [finish] at this
    omega
  · rcases List.mem_append.1 hpart with hpart | hpart
    · obtain ⟨u, hu, hoffset, -⟩ := offset_of_mem_ofTokens hpart
      exact hoffset ▸ (hafter.bounds hu).1
    · exact Nat.le_trans hafter.le (Nat.le_of_lt (hunread part hpart).1)

namespace Around

theorem before_ne (h : Around encoding pattern before t after) : ∀ part ∈ ofTokens before, part.1 ≠ t.offset :=
  fun part hpart => Nat.ne_of_lt (h.before_lt part hpart)

theorem after_ne (h : Around encoding pattern before t after) :
    ∀ part ∈ ofTokens after ++ unread encoding pattern, part.1 ≠ t.offset := fun part hpart => by
  have hle := h.after_le part hpart
  have hpos := h.width_pos
  simp only [finish] at hle
  omega

/-- Whether a walk from left to right leaves a barred level at a token. -/
theorem mem_forward (h : Around encoding pattern before t after) :
    t.offset ∈ (barredExits .opening [] false (ofPattern pattern)).1 ↔
      t.value = .groupClose ∧ (levels .opening [] (ofTokens before)).head? = some true := by
  rw [h.ofPattern_eq, mem_barredExits_iff h.before_ne h.after_ne]
  generalize t.value = value
  cases value <;> simp [Token.nesting?]

/-- Whether a walk from right to left leaves a barred level at a token. -/
theorem mem_backward (h : Around encoding pattern before t after) :
    t.offset ∈ (barredExits .closing [] false (ofPattern pattern).reverse).1 ↔
      t.value = .groupOpen ∧
        (levels .closing [] (ofTokens after ++ unread encoding pattern).reverse).head? = some true := by
  have hreverse : (ofPattern pattern).reverse = (ofTokens after ++ unread encoding pattern).reverse ++
      ((t.value.nesting?.map (t.offset, ·)).toList ++ (ofTokens before).reverse) := by
    rw [h.ofPattern_eq]
    cases t.value.nesting? <;> simp
  rw [hreverse, mem_barredExits_iff (fun part hpart => h.after_ne part (List.mem_reverse.1 hpart))
    fun part hpart => h.before_ne part (List.mem_reverse.1 hpart)]
  generalize t.value = value
  cases value <;> simp [Token.nesting?]

/-- Where a walk from right to left leaves a level right before the end of a token,
the token starts. -/
theorem eq_offset (h : Around encoding pattern before t after) {y : Nat}
    (hy : y ∈ (barredExits .closing [] false (ofPattern pattern).reverse).1) (hfinish : t.finish = y + 1) :
    y = t.offset := by
  obtain ⟨part, hpart, rfl⟩ := exists_of_mem_barredExits hy
  have hpos := h.width_pos
  rw [List.mem_reverse, h.ofPattern_eq, List.mem_append, List.mem_append] at hpart
  rcases hpart with hpart | hpart | hpart
  · have := h.before_lt part hpart
    simp only [finish] at hfinish
    omega
  · obtain ⟨value, -, rfl⟩ := Option.map_eq_some_iff.1 (Option.mem_toList.1 hpart)
    rfl
  · have := h.after_le part hpart
    omega

end Around

theorem startsAt_iff (pattern : List Char) (x : Nat) :
    ((ofPattern? pattern).getD .empty).startsAt x = true ↔
      ((barredExits .closing [] false (ofPattern pattern).reverse).2 = true ∧ x = 0) ∨
        ∃ y ∈ (barredExits .closing [] false (ofPattern pattern).reverse).1, x = y + 1 := by
  rw [ofPattern?_getD]
  cases hleft : (barredExits .closing [] false (ofPattern pattern).reverse).2 <;>
    simp [startsAt, hleft, @eq_comm _ x]

theorem endsAt_iff (pattern : List Char) (x : Nat) :
    ((ofPattern? pattern).getD .empty).endsAt x = true ↔
      x ∈ (barredExits .opening [] false (ofPattern pattern)).1 ∨
        ((barredExits .opening [] false (ofPattern pattern)).2 = true ∧ x = pattern.length) := by
  rw [ofPattern?_getD]
  cases hright : (barredExits .opening [] false (ofPattern pattern)).2 <;> simp [endsAt, hright]

/-- **An alternation ends right before a token exactly if this closes a group that has
a bar.** -/
theorem endsAt_token (h : (tokens encoding pattern).pieces = before ++ t :: after) :
    ((ofPattern? pattern).getD .empty).endsAt t.offset = true ↔
      t.value = .groupClose ∧ (levels .opening [] (ofTokens before)).head? = some true := by
  have haround := around h
  rw [endsAt_iff, haround.mem_forward]
  refine or_iff_left fun hlast => ?_
  have := haround.width_pos
  have := haround.finish_le
  have := stop_le_length encoding pattern
  simp only [finish] at *
  omega

/-- **An alternation starts right after a token exactly if this opens a group that has
a bar**, as far as can be seen from the end of the pattern. -/
theorem startsAt_finish (h : (tokens encoding pattern).pieces = before ++ u :: after) :
    ((ofPattern? pattern).getD .empty).startsAt u.finish = true ↔
      u.value = .groupOpen ∧
        (levels .closing [] (ofTokens after ++ unread encoding pattern).reverse).head? = some true := by
  have haround := around h
  rw [startsAt_iff, ← haround.mem_backward]
  have hpos := haround.width_pos
  constructor
  · rintro (⟨-, hzero⟩ | ⟨y, hy, hfinish⟩)
    · simp only [finish] at hzero
      omega
    · rw [← haround.eq_offset hy hfinish]
      exact hy
  · intro hleft
    have hopen := (haround.mem_backward.1 hleft).1
    have hmem : u ∈ (tokens encoding pattern).pieces := by simp [h]
    obtain ⟨⟨c, rest, hread⟩, -⟩ := Reader.exists_read_of_mem_pieces hmem
    have hwidth : u.width = 1 := Token.width_of_read hread (by simp [Token.IsLeaf, hopen])
    exact .inr ⟨u.offset, hleft, by rw [finish, hwidth]⟩

theorem startsAt_zero : ((ofPattern? pattern).getD .empty).startsAt 0 =
    (barredExits .closing [] false (ofPattern pattern).reverse).2 := by
  rw [Bool.eq_iff_iff, startsAt_iff]
  simp

end Markers

end RegexAutomaton

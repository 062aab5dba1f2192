/-
Marker tables.

The walk that looks for parentheses and bars moves forward over escapes and brackets
and finds the nesting of the pattern (`nesting_eq`). Every offset that a sweep marks
has its entry in the table, so the tables are made without getting stuck, and they
mark what `Markers.ofPattern?` lists (`tables?_eq`).
-/
import RegexAutomaton.Indexed.Markers
import RegexAutomaton.Proofs.IndexedBrackets
import RegexAutomaton.Proofs.MarkerOffsets

namespace RegexAutomaton

namespace Indexed

open Checked

variable {ε : Type} {pattern : List Char} {enter : Nesting} {shift : Nat}

/-! ## Parentheses and bars -/

/-- Symbols inside a piece play no part in the rest of a scan, even if the piece runs
over the end of the text. -/
theorem pieces_scanFrom {α β : Type} (read : Reader α β) (skip offset : Nat) (text : List Char) :
    (read.scanFrom skip offset text).pieces = (read.scanFrom 0 (offset + skip) (text.drop skip)).pieces := by
  induction skip generalizing offset text with
  | zero => rfl
  | succ skip ih =>
    cases text with
    | nil => rw [List.drop_nil, Reader.scanFrom_nil, Reader.scanFrom_nil]
    | cons c rest => rw [Reader.scanFrom, ih, List.drop_succ_cons, Nat.add_right_comm, Nat.add_assoc]

/-- The parentheses and bars of a pattern from a position on. -/
def nestingFrom (pattern : List Char) (i : Nat) : List (Nat × Nesting) := Nesting.ofText i (pattern.drop i)

theorem nestingFrom_step {c : Char} {part : Option Nesting} {i width : Nat} (h : pattern[i]? = some c)
    (hread : Nesting.read i c (pattern.drop (i + 1)) = .ok (part, width)) (hpos : 0 < width) :
    nestingFrom pattern i = (part.map (i, ·)).toList ++ nestingFrom pattern (i + width) := by
  obtain ⟨n, rfl⟩ : ∃ n, width = n + 1 := ⟨width - 1, by omega⟩
  have hplace : i + 1 + n = i + (n + 1) := by omega
  have hlater := pieces_scanFrom Nesting.read n (i + 1) (pattern.drop (i + 1))
  rw [List.drop_drop, hplace] at hlater
  rw [nestingFrom, drop_of_getElem? h, Nesting.ofText, Reader.scanFrom, hread]
  simp only [Nat.add_sub_cancel, hlater, nestingFrom, Nesting.ofText]
  cases part <;> rfl

theorem width_pos_of_read {part : Option Nesting} {i width : Nat} {c : Char} {rest : List Char}
    (h : Nesting.read i c rest = .ok (part, width)) : 0 < width := by
  unfold Nesting.read at h
  split at h
  · cases h
    decide
  · split at h
    · split at h
      · next hextent =>
        cases h
        exact (Bracket.width_le_of_extent? hextent).1
      · cases h
    all_goals
      cases h
      decide

/-- A step of the walk is a reading of the symbol there. -/
theorem nestingStep_eq {c : Char} {i : Nat} (h : pattern[i]? = some c) (found : List (Nat × Nesting)) :
    (nestingStep pattern i c found : Checked ε _) =
      answer (.ok (match Nesting.read i c (pattern.drop (i + 1)) with
        | .ok (part, width) => .goTo (i + width) (found ++ (part.map (i, ·)).toList)
        | .error _ => .stop found)) := by
  rw [nestingStep, Nesting.read]
  by_cases hc : c = Escape.backslash
  · rw [if_pos hc, if_pos hc]
    simp [pure_eq]
  · rw [if_neg hc, if_neg hc]
    cases Metachar.ofChar? c with
    | none => simp [pure_eq]
    | some m =>
      cases m with
      | openBracket =>
        dsimp only
        rw [extent?_eq (drop_of_getElem? h), answer_ok_bind]
        cases Bracket.extent? (pattern.drop (i + 1)) <;> simp [pure_eq]
      | _ => simp [pure_eq]

theorem walk_nestingStep (found : List (Nat × Nesting)) (i : Nat) :
    (walk pattern (nestingStep pattern) (fun _ found => pure found) i found : Checked ε _) =
      answer (.ok (found ++ nestingFrom pattern i)) := by
  induction hn : pattern.length - i using Nat.strongRecOn generalizing i found with
  | ind n ih =>
    cases hc : pattern[i]? with
    | none =>
      rw [walk_end hc, nestingFrom, List.drop_eq_nil_of_le (List.getElem?_eq_none_iff.1 hc)]
      simp [Nesting.ofText, pure_eq]
    | some c =>
      have hlt := (List.getElem?_eq_some_iff.1 hc).1
      have hstep := @nestingStep_eq ε pattern c i hc found
      cases hread : Nesting.read i c (pattern.drop (i + 1)) with
      | error reason =>
        rw [hread] at hstep
        rw [walk_stop hc hstep, nestingFrom, drop_of_getElem? hc, Nesting.ofText, Reader.scanFrom_error _ hread]
        simp
      | ok read =>
        obtain ⟨part, width⟩ := read
        rw [hread] at hstep
        have hpos := width_pos_of_read hread
        rw [walk_goTo hc hstep (by omega), ih _ (by omega) _ _ rfl, nestingFrom_step hc hread hpos, List.append_assoc]

theorem nesting_eq (pattern : List Char) :
    (nesting pattern : Checked ε _) = answer (.ok (Nesting.ofPattern pattern)) :=
  walk_nestingStep [] 0

/-! ## Sweeps -/

/-- Whether an offset is marked in a table. -/
def marked (table : List Bool) (x : Nat) : Bool := table[x]?.getD false

theorem marked_change {table : List Bool} {place : Nat} (h : place < table.length) (x : Nat) :
    marked (table.modify place fun _ => true) x = (marked table x || x == place) := by
  rw [marked, marked, List.getElem?_modify]
  by_cases hx : place = x
  · subst hx
    rw [List.getElem?_eq_getElem h]
    simp
  · rw [beq_eq_false_iff_ne.2 (Ne.symm hx), Bool.or_false]
    simp only [if_neg hx]
    cases table[x]? <;> rfl

/-- The counts of bars, the outermost level first, from those of the levels inside it,
the deepest first. -/
def countsOf (inner : List Nat) (outer : Nat) : List Nat := outer :: inner.reverse

theorem countsOf_cons (n : Nat) (inner : List Nat) (outer : Nat) :
    countsOf (n :: inner) outer = countsOf inner outer ++ [n] := by
  rw [countsOf, countsOf, List.reverse_cons, List.cons_append]

/-- Whether there are bars. -/
def barred (n : Nat) : Bool := 0 < n

variable (enter shift)

theorem sweepStep_outer_bar (outer offset : Nat) (table : List Bool) :
    (sweepStep enter shift (countsOf [] outer, table) (offset, .bar) : Checked ε _) =
      answer (.ok (countsOf [] (outer + 1), table)) := rfl

theorem sweepStep_inner_bar (n : Nat) (inner : List Nat) (outer offset : Nat) (table : List Bool) :
    (sweepStep enter shift (countsOf (n :: inner) outer, table) (offset, .bar) : Checked ε _) =
      answer (.ok (countsOf ((n + 1) :: inner) outer, table)) := by
  rw [sweepStep, countsOf_cons, countsOf_cons]
  refine congrArg (fun bars => answer (.ok (bars, table))) ?_
  rw [List.length_append, List.length_singleton, Nat.add_sub_cancel]
  exact modify_append_cons _ [] n (· + 1)

variable {enter} {part : Nesting}

theorem sweepStep_enter (hbar : enter ≠ .bar) (inner : List Nat) (outer offset : Nat) (table : List Bool) :
    (sweepStep enter shift (countsOf inner outer, table) (offset, enter) : Checked ε _) =
      answer (.ok (countsOf (0 :: inner) outer, table)) := by
  rw [countsOf_cons]
  exact (if_neg hbar).trans (if_pos rfl)

theorem sweepStep_stray (hbar : part ≠ .bar) (henter : part ≠ enter) (outer offset : Nat) (table : List Bool) :
    (sweepStep enter shift (countsOf [] outer, table) (offset, part) : Checked ε _) =
      answer (.ok (countsOf [] outer, table)) :=
  (if_neg hbar).trans ((if_neg henter).trans (if_neg (by simp [countsOf])))

theorem sweepStep_leave (hbar : part ≠ .bar) (henter : part ≠ enter) (n : Nat) (inner : List Nat)
    (outer : Nat) {offset : Nat} {table : List Bool} (hoffset : offset + shift < table.length) :
    (sweepStep enter shift (countsOf (n :: inner) outer, table) (offset, part) : Checked ε _) =
      answer (.ok (countsOf inner outer,
        if barred n then table.modify (offset + shift) fun _ => true else table)) := by
  have hdeep : 1 < (countsOf inner outer ++ [n]).length := by
    simp [countsOf]
  rw [sweepStep, countsOf_cons]
  dsimp only
  rw [if_neg hbar, if_neg henter, if_pos hdeep, List.getLastD_concat, List.dropLast_concat, change_eq hoffset]
  by_cases hn : 0 < n
  · rw [if_pos hn, barred, decide_eq_true hn]
    rfl
  · rw [if_neg hn, barred, decide_eq_false hn]
    rfl

variable {shift}

/-- What a sweep leaves: the bars of the outermost level, and a table in which the
places where it left levels with bars are marked. -/
theorem foldlM_sweepStep (henter : enter ≠ .bar) {parts : List (Nat × Nesting)} (inner : List Nat) (outer : Nat)
    {table : List Bool} (hoffsets : ∀ part ∈ parts, part.1 + shift < table.length) :
    ∃ inner' outer' table',
      (parts.foldlM (sweepStep enter shift) (countsOf inner outer, table) : Checked ε _) =
          answer (.ok (countsOf inner' outer', table')) ∧
        barred outer' = (Nesting.barredExits enter (inner.map barred) (barred outer) parts).2 ∧
        table'.length = table.length ∧
        ∀ x, marked table' x = (marked table x ||
          (Nesting.barredExits enter (inner.map barred) (barred outer) parts).1.any (· + shift == x)) := by
  induction parts generalizing inner outer table with
  | nil => exact ⟨inner, outer, table, rfl, rfl, rfl, fun x => by simp [Nesting.barredExits]⟩
  | cons head rest ih =>
    obtain ⟨offset, part⟩ := head
    obtain ⟨hoffset, hrest⟩ := List.forall_mem_cons.1 hoffsets
    rw [List.foldlM_cons]
    by_cases hbar : part = .bar
    · subst hbar
      cases inner with
      | nil =>
        rw [sweepStep_outer_bar, answer_ok_bind]
        exact ih [] (outer + 1) hrest
      | cons n inner =>
        rw [sweepStep_inner_bar, answer_ok_bind]
        exact ih ((n + 1) :: inner) outer hrest
    by_cases hpart : part = enter
    · subst hpart
      rw [sweepStep_enter shift hbar, answer_ok_bind, Nesting.barredExits_enter hbar]
      exact ih (0 :: inner) outer hrest
    cases inner with
    | nil =>
      rw [sweepStep_stray shift hbar hpart, answer_ok_bind]
      obtain ⟨inner', outer', table', hrun, houter, hlength, hmarked⟩ := ih [] outer hrest
      refine ⟨inner', outer', table', hrun, ?_⟩
      rw [List.map_nil, Nesting.barredExits, if_neg hbar, if_neg hpart]
      exact ⟨houter, hlength, hmarked⟩
    | cons n inner =>
      rw [sweepStep_leave shift hbar hpart _ _ _ hoffset, answer_ok_bind, List.map_cons,
        Nesting.barredExits_leave hbar hpart]
      obtain ⟨inner', outer', table', hrun, houter, hlength, hmarked⟩ := @ih inner outer
        (if barred n then table.modify (offset + shift) fun _ => true else table)
        (fun part hpart => by
          have := hrest part hpart
          split <;> simpa using this)
      refine ⟨inner', outer', table', hrun, houter, ?_, fun x => ?_⟩
      · rw [hlength]
        split <;> simp
      · rw [hmarked]
        cases barred n with
        | false => rfl
        | true =>
          simp only [if_true, marked_change hoffset, List.singleton_append, List.any_cons]
          rw [Bool.or_assoc, show (x == offset + shift) = (offset + shift == x) from Bool.beq_comm]

/-- A sweep marks the places where it leaves levels with bars, and the edge if the
outermost level has bars. -/
theorem sweep_eq {parts : List (Nat × Nesting)} {edge size : Nat} (henter : enter ≠ .bar)
    (hoffsets : ∀ part ∈ parts, part.1 + shift < size) (hedge : edge < size) :
    ∃ table, (sweep enter shift edge size parts : Checked ε _) = answer (.ok table) ∧
      ∀ x, marked table x = ((Nesting.barredExits enter [] false parts).1.any (· + shift == x) ||
        ((Nesting.barredExits enter [] false parts).2 && x == edge)) := by
  obtain ⟨inner, outer, table, hrun, houter, hlength, hmarked⟩ :=
    @foldlM_sweepStep ε enter shift henter parts [] 0 (List.replicate size false) (by simpa using hoffsets)
  have hblank (x : Nat) : marked (List.replicate size false) x = false := by
    rw [marked, List.getElem?_replicate]
    split <;> rfl
  rw [List.map_nil, show barred 0 = false from rfl] at houter hmarked
  rw [List.length_replicate] at hlength
  simp only [hblank, Bool.false_or] at hmarked
  have hsweep : (sweep enter shift edge size parts : Checked ε _) =
      if 0 < outer then change table edge fun _ => true else pure table :=
    congrArg (· >>= _) hrun
  rw [hsweep, ← houter]
  by_cases hbars : 0 < outer
  · refine ⟨table.modify edge fun _ => true, (if_pos hbars).trans (change_eq (by omega) _), fun x => ?_⟩
    rw [marked_change (by omega), hmarked, barred, decide_eq_true hbars, Bool.true_and]
  · refine ⟨table, if_neg hbars, fun x => ?_⟩
    rw [hmarked, barred, decide_eq_false hbars, Bool.false_and, Bool.or_false]

/-! ## Tables -/

/-- The tables, if there are any, mark what the markers list. -/
def Marks (tables : Option Tables) (m : Markers) : Prop :=
  match tables with
  | none => m = .empty
  | some t => ∀ x, t.startsAt x = m.startsAt x ∧ t.endsAt x = m.endsAt x

/-- **The tables are made without getting stuck**, and mark where alternations start
and end. -/
theorem tables?_eq (pattern : List Char) :
    ∃ tables, (tables? pattern : Checked ε _) = answer (.ok tables) ∧
      Marks tables ((Markers.ofPattern? pattern).getD .empty) := by
  have hoffsets : ∀ part ∈ Nesting.ofPattern pattern, part.1 < pattern.length := fun part hpart => by
    have := (@Nesting.offset_of_mem_ofText 0 pattern part hpart).2
    omega
  rw [tables?, nesting_eq, answer_ok_bind, Markers.ofPattern?]
  dsimp only
  by_cases hbar : (Nesting.ofPattern pattern).any (·.2 == .bar) = true
  · rw [if_pos hbar, if_pos hbar]
    obtain ⟨starts, hstarts, hmarkedStarts⟩ := @sweep_eq ε .closing 1 (Nesting.ofPattern pattern).reverse 0
      (pattern.length + 1) (by decide)
      (fun part hpart => Nat.add_lt_add_right (hoffsets part (List.mem_reverse.1 hpart)) 1) (by omega)
    obtain ⟨ends, hends, hmarkedEnds⟩ := @sweep_eq ε .opening 0 (Nesting.ofPattern pattern) pattern.length
      (pattern.length + 1) (by decide) (fun part hpart => Nat.lt_succ_of_lt (hoffsets part hpart)) (by omega)
    refine ⟨some ⟨starts, ends⟩, ?_, fun x => ⟨?_, ?_⟩⟩
    · rw [hstarts, answer_ok_bind, hends]
      rfl
    · refine (hmarkedStarts x).trans (Bool.eq_iff_iff.2 ?_)
      simp only [Option.getD_some, Markers.startsAt, Bool.or_eq_true, Bool.and_eq_true, beq_iff_eq, List.any_eq_true,
        List.contains_eq_mem, decide_eq_true_eq, List.mem_append, List.mem_reverse, List.mem_map, Or.comm,
        List.mem_ite_nil_right, List.mem_singleton]
    · refine (hmarkedEnds x).trans (Bool.eq_iff_iff.2 ?_)
      simp only [Option.getD_some, Markers.endsAt, Bool.or_eq_true, Bool.and_eq_true, beq_iff_eq, List.any_eq_true,
        List.contains_eq_mem, decide_eq_true_eq, List.mem_append, Nat.add_zero, exists_eq_right,
        List.mem_ite_nil_right, List.mem_singleton]
  · rw [if_neg hbar, if_neg hbar]
    exact ⟨none, rfl, rfl⟩

end Indexed

end RegexAutomaton

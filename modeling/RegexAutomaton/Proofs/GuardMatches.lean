/-
What guards match.

The guard of a set takes one symbol, if the set holds it (`Guard.matchAt?_ofSet`), and the
guard of a run takes the run where guards of its symbols match one after the other
(`Guard.inTurn_literals_iff`). What a guard takes is as wide as the guard says and lies in
the text (`Guard.fits_of_matchAt?`).
-/
import RegexAutomaton.Proofs.CollapsedSets
import RegexAutomaton.Proofs.EscapedText

namespace RegexAutomaton

namespace Guard

variable {text : List Char} {position stop width : Nat}

/-! ## Sets -/

/-- The guard of a set matches where the text has a symbol that it may start with. -/
theorem matchAt?_ofSet_eq (s : CharSet) (text : List Char) (position : Nat) :
    (ofSet s).matchAt? text position = if text[position]?.any (ofSet s).matchesFirst then some 1 else none := by
  rcases ofSet_cases s with ⟨-, h⟩ | ⟨c, -, h⟩ | ⟨lo, hi, -, h⟩ | h <;> rw [h] <;> rfl

/-- **The guard of a set matches exactly where the text has a symbol of the set**, and takes
that symbol. -/
theorem matchAt?_ofSet (s : CharSet) (text : List Char) (position : Nat) :
    (ofSet s).matchAt? text position =
      if ∃ h : position < text.length, s.contains text[position] = true then some 1 else none := by
  rw [matchAt?_ofSet_eq, funext (matchesFirst_ofSet s)]
  refine if_congr ?_ rfl rfl
  rw [Option.any_eq_true]
  constructor
  · rintro ⟨c, hc, hcontains⟩
    obtain ⟨hlt, rfl⟩ := List.getElem?_eq_some_iff.1 hc
    exact ⟨hlt, hcontains⟩
  · rintro ⟨hlt, hcontains⟩
    exact ⟨text[position], List.getElem?_eq_getElem hlt, hcontains⟩

/-! ## Runs -/

/-- The guards match one after the other, each where the one before it stops. -/
inductive InTurn (text : List Char) : List Guard → (position stop : Nat) → Prop
  | nil (position : Nat) : InTurn text [] position position
  | cons {g : Guard} {guards : List Guard} {position stop width : Nat} (head : g.matchAt? text position = some width)
      (tail : InTurn text guards (position + width) stop) : InTurn text (g :: guards) position stop

/-- The guard of a symbol matches where the text goes on with the symbol. -/
theorem matchAt?_literal_iff {c : Char} :
    (literal c).matchAt? text position = some width ↔ text[position]? = some c ∧ width = 1 := by
  have hany : text[position]?.any (literal c).matchesFirst = true ↔ text[position]? = some c := by
    rw [Option.any_eq_true]
    constructor
    · rintro ⟨d, hd, hmatches⟩
      rw [hd, show c = d from eq_of_beq hmatches]
    · intro hc
      exact ⟨c, hc, beq_self_eq_true c⟩
  show (if text[position]?.any (literal c).matchesFirst then some 1 else none) = some width ↔ _
  rw [Option.ite_none_right_eq_some, hany, Option.some.injEq, @eq_comm _ 1]

/-- **Guards of symbols match one after the other exactly where the text goes on with the
symbols.** -/
theorem inTurn_literals_iff {symbols : List Char} :
    InTurn text (symbols.map literal) position stop ↔
      symbols <+: text.drop position ∧ stop = position + symbols.length := by
  induction symbols generalizing position with
  | nil =>
    constructor
    · intro h
      cases h
      exact ⟨List.nil_prefix, rfl⟩
    · rintro ⟨-, rfl⟩
      exact .nil _
  | cons c symbols ih =>
    constructor
    · intro h
      cases h with
      | cons head tail =>
        obtain ⟨hc, rfl⟩ := matchAt?_literal_iff.1 head
        obtain ⟨hsymbols, rfl⟩ := ih.1 tail
        rw [drop_of_getElem? hc, List.cons_prefix_cons, List.length_cons]
        exact ⟨⟨rfl, hsymbols⟩, by omega⟩
    · rintro ⟨⟨later, hlater⟩, rfl⟩
      have hdrop : text.drop position = c :: (symbols ++ later) := hlater.symm
      refine .cons (matchAt?_literal_iff.2 ⟨getElem?_of_drop hdrop, rfl⟩) (ih.2 ⟨?_, ?_⟩)
      · rw [drop_succ_of_drop hdrop]
        exact List.prefix_append symbols later
      · rw [List.length_cons]
        omega

/-! ## Widths -/

/-- **What a guard takes is as wide as the guard says, and lies in the text.** -/
theorem fits_of_matchAt? {g : Guard} (hposition : position ≤ text.length) (h : g.matchAt? text position = some width) :
    width = g.width ∧ position + width ≤ text.length := by
  have single (hmatch : (if text[position]?.any g.matchesFirst then some 1 else none) = some width) :
      width = 1 ∧ position + width ≤ text.length := by
    obtain ⟨hany, hwidth⟩ := Option.ite_none_right_eq_some.1 hmatch
    obtain rfl := Option.some.inj hwidth
    obtain ⟨c, hc, -⟩ := (Option.any_eq_true _ _).1 hany
    exact ⟨rfl, (List.getElem?_eq_some_iff.1 hc).1⟩
  have empty (hmatch : some 0 = some width) : width = 0 ∧ position + width ≤ text.length := by
    obtain rfl := Option.some.inj hmatch
    exact ⟨rfl, hposition⟩
  cases g with
  | literal c => exact single h
  | range lo hi => exact single h
  | set s => exact single h
  | dot => exact single h
  | run symbols =>
    obtain ⟨⟨-, hprefix⟩, hwidth⟩ := Option.ite_none_right_eq_some.1 h
    obtain rfl := Option.some.inj hwidth
    have hlength := (List.isPrefixOf_iff_prefix.1 hprefix).length_le
    rw [List.length_drop] at hlength
    exact ⟨rfl, by omega⟩
  | group => exact empty h
  | anchorStart => exact empty (Option.ite_none_right_eq_some.1 h).2
  | anchorEnd => exact empty (Option.ite_none_right_eq_some.1 h).2
  | final => cases h

/-! ## Nodes -/

/-- **The guard of a node matches exactly what the node stands for.** The guard of a set, with
whatever members, takes one symbol if the set holds it; the guard of a run takes the run
where guards of its symbols match one after the other; and nothing else matches. What a
guard of an automaton takes is as wide as the guard says, and lies in the text. -/
theorem matchAt?_of_node (text : List Char) (position : Nat) :
    (∀ s : CharSet,
      (ofSet s).matchAt? text position =
          (if ∃ h : position < text.length, s.contains text[position] = true then some 1 else none) ∧
        ∀ c, (ofSet s).matchesFirst c = s.contains c) ∧
    (∀ symbols : List Char, symbols ≠ [] → ∃ g, ofKind? (.literal symbols) = some g ∧
      (g.matchAt? text position = some symbols.length ↔ ∃ stop, InTurn text (symbols.map literal) position stop) ∧
      ((¬ ∃ stop, InTurn text (symbols.map literal) position stop) → g.matchAt? text position = none)) ∧
    ∀ encoding pattern options a, compile encoding pattern options = .ok a → ∀ s ∈ a.states,
      position ≤ text.length → ∀ width, s.guard.matchAt? text position = some width →
        width = s.guard.width ∧ position + width ≤ text.length := by
  refine ⟨fun s => ⟨matchAt?_ofSet s text position, matchesFirst_ofSet s⟩, fun symbols hne => ?_,
    fun encoding pattern options a _ s _ hposition width h => fits_of_matchAt? hposition h⟩
  have hturn : (∃ stop, InTurn text (symbols.map literal) position stop) ↔ symbols <+: text.drop position := by
    simp only [inTurn_literals_iff, exists_and_left, exists_eq, and_true]
  refine ⟨ofRun symbols, rfl, ?_, fun hfails => ?_⟩
  · rw [matchAt?_ofRun hne, hturn]
    simp
  · rw [matchAt?_ofRun hne, if_neg fun hprefix => hfails (hturn.2 hprefix)]

/-- The complement of a range the wrong way round holds every symbol; a run at the end of a
text; and every guard of `(a|b)*$`. -/
theorem matchAt?_of_node_at_end :
    (ofSet ⟨true, [⟨'z', 'a'⟩]⟩).matchAt? ['a', 'b', 'c'] 1 = some 1 ∧
      (∃ g, ofKind? (.literal ['b', 'c']) = some g ∧ g.matchAt? ['a', 'b', 'c'] 1 = some 2) ∧
      ∃ a, compile .byte ['(', 'a', '|', 'b', ')', '*', '$'] {} = .ok a ∧ ∀ s ∈ a.states,
        ∀ width, s.guard.matchAt? ['a', 'b', 'c'] 1 = some width → width = s.guard.width ∧ 1 + width ≤ 3 := by
  obtain ⟨hset, hrun, hstates⟩ := matchAt?_of_node ['a', 'b', 'c'] 1
  refine ⟨(hset _).1.trans (if_pos ⟨by decide, by decide⟩), ?_, _, rfl, fun s hs => ?_⟩
  · obtain ⟨g, hg, hmatch, -⟩ := hrun ['b', 'c'] (by decide)
    exact ⟨g, hg, hmatch.2 ⟨3, inTurn_literals_iff.2 ⟨by decide, rfl⟩⟩⟩
  · exact hstates .byte ['(', 'a', '|', 'b', ')', '*', '$'] {} _ rfl s hs (by decide)

end Guard

end RegexAutomaton

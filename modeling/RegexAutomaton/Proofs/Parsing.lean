/-
When a pattern is read, and what its nodes come from.

A pattern is read exactly if its tokens are those of a phrase in which no two
neighbours refuse each other, and then its nodes come from the items of that
phrase (`parse_eq_ok_iff`).
-/
import RegexAutomaton.NodeList
import RegexAutomaton.Proofs.Neighbours

namespace RegexAutomaton

theorem Role.passedBetween_ends : Role.PassedBetween Role.Admits .start .finish where
  enter := by decide
  leave := by decide
  first := fun r _ => by cases r <;> decide
  last := fun r _ => by cases r <;> decide

theorem Role.passedBetween_group : Role.PassedBetween Role.Admits .groupOpen .groupClose where
  enter := by decide
  leave := by decide
  first := fun r h => by cases r <;> first | exact absurd rfl h | decide
  last := fun r h => by cases r <;> first | exact absurd rfl h | decide

/-- A phrase opens and closes its own groups. -/
theorem Phrase.depthAfter?_values (p : Phrase) (depth : Nat) (later : List Token) :
    Token.depthAfter? depth (p.values ++ later) = Token.depthAfter? depth later := by
  induction p generalizing depth later with
  | nil => rfl
  | leaf t hleaf rest ih =>
    rw [values_leaf, List.cons_append, Token.depthAfter?_leaf hleaf, ih]
  | group o inner z rest ihInner ihRest =>
    rw [values_group, List.cons_append, List.append_assoc, Token.depthAfter?, ihInner,
      List.cons_append, Token.depthAfter?, ihRest]

/-- The tokens of a phrase, found again among its items. -/
theorem Phrase.check_body_iff {encoding : Encoding} {pattern : List Char} {p : Phrase}
    (h : (Token.read encoding).Reads 0 pattern p.tokens) :
    Grammar.check (p.body 0 pattern.length) pattern.length none = .ok () ↔
      List.IsChain Role.Admits (.start :: (p.roles ++ [.finish])) := by
  have hvalues : (p.body 0 pattern.length).filterMap (·.value.token?) = p.values := by
    rw [← Markers.itemsOf_eq_body h, Markers.itemsOf, Markers.tokens_weave, tokens_of_reads h, values]
  have hdepth := p.depthAfter?_values 0 []
  rw [List.append_nil] at hdepth
  rw [Grammar.check_eq_ok_iff, p.isChain_body Role.passedBetween_group Role.passedBetween_ends,
    hvalues, hdepth]
  simp [Token.depthAfter?]

/-- Tokens that pass the check are those of a phrase. -/
theorem Grammar.exists_reads_of_check {encoding : Encoding} {pattern : List Char} {markers : Markers}
    (h : Grammar.check (markers.itemsOf (tokens encoding pattern)) (tokens encoding pattern).stop
      (tokens encoding pattern).reason = .ok ()) :
    ∃ p : Phrase, (Token.read encoding).Reads 0 pattern p.tokens := by
  obtain ⟨hreason, -, hdepth⟩ := Grammar.check_eq_ok_iff.1 h
  have hreads : (Token.read encoding).Reads 0 pattern (tokens encoding pattern).pieces :=
    Reader.reads_of_reason (Token.fits_read encoding) hreason
  rw [Markers.itemsOf, Markers.tokens_weave] at hdepth
  obtain ⟨p, hp⟩ := Phrase.exists_tokens_eq (Token.width_of_reads hreads) hdepth
  exact ⟨p, hp ▸ hreads⟩

/-! ## What a quantifier repeats -/

/-- A quantifier comes only after an atom or a group. -/
def Role.Repeats (before after : Role) : Prop :=
  after = .quantifier → before = .atom ∨ before = .groupClose

theorem Role.repeats_passedBetween_ends : Role.PassedBetween Role.Repeats .start .finish where
  enter := nofun
  leave := nofun
  first := fun r _ => ⟨fun h hr => absurd (h hr) (by decide), fun h hr => absurd (h hr) (by decide)⟩
  last := fun r _ => ⟨fun _ => nofun, fun _ => nofun⟩

theorem Role.repeats_passedBetween_group : Role.PassedBetween Role.Repeats .groupOpen .groupClose where
  enter := nofun
  leave := nofun
  first := fun r _ => ⟨fun h hr => absurd (h hr) (by decide), fun h hr => absurd (h hr) (by decide)⟩
  last := fun r _ => ⟨fun _ => nofun, fun _ => nofun⟩

theorem Token.isChain_repeats {ts : List Token} {before : Role}
    (hbefore : before.Admits .quantifier → before = .atom ∨ before = .groupClose)
    (h : List.IsChain Role.Admits (before :: (ts.map Token.role ++ [.finish]))) :
    List.IsChain Role.Repeats (before :: (ts.map Token.role ++ [.finish])) := by
  induction ts generalizing before with
  | nil => exact List.isChain_pair.2 nofun
  | cons t ts ih =>
    obtain ⟨hadmits, hrest⟩ := List.isChain_cons_cons.1 h
    have ht : t.role.Admits .quantifier → t.role = .atom ∨ t.role = .groupClose := by
      cases t with
      | atom a => exact fun _ => .inl rfl
      | groupClose => exact fun _ => .inr rfl
      | _ => exact nofun
    refine List.isChain_cons_cons.2 ⟨fun hquantifier => ?_, ih ht hrest⟩
    rw [hquantifier] at hadmits
    exact hbefore hadmits

/-- In a pattern that is read, every quantifier has something to repeat. -/
theorem Phrase.isChain_repeats {p : Phrase} (first last : Nat)
    (h : List.IsChain Role.Admits (.start :: (p.roles ++ [.finish]))) :
    List.IsChain Role.Repeats (.start :: ((p.body first last).map (·.value.role) ++ [.finish])) := by
  rw [p.isChain_body Role.repeats_passedBetween_group Role.repeats_passedBetween_ends]
  exact Token.isChain_repeats nofun h

/-! ## Parsing -/

namespace NodeList

variable {encoding : Encoding} {pattern : List Char} {options : Options} {list : NodeList}

/-- The nodes of a pattern are those of its items, after the passes. -/
theorem parse_eq_ok_iff_check :
    parse encoding pattern options = .ok list ↔
      Grammar.check (((Markers.ofPattern? pattern).getD .empty).itemsOf (tokens encoding pattern))
          (tokens encoding pattern).stop (tokens encoding pattern).reason = .ok () ∧
        list = (ofItems (((Markers.ofPattern? pattern).getD .empty).itemsOf (tokens encoding pattern))
          (tokens encoding pattern).stop).after options.passes := by
  simp only [parse, read]
  cases Grammar.check (((Markers.ofPattern? pattern).getD .empty).itemsOf (tokens encoding pattern))
      (tokens encoding pattern).stop (tokens encoding pattern).reason with
  | error e => simp [Except.map]
  | ok u => simp [Except.map, eq_comm]

/-- **A pattern is read exactly if its tokens are those of a phrase in which no
two neighbours refuse each other.** -/
theorem parse_eq_ok_iff :
    parse encoding pattern options = .ok list ↔
      ∃ p : Phrase, (Token.read encoding).Reads 0 pattern p.tokens ∧
        List.IsChain Role.Admits (.start :: (p.roles ++ [.finish])) ∧
        list = (ofItems (p.body 0 pattern.length) pattern.length).after options.passes := by
  rw [parse_eq_ok_iff_check]
  constructor
  · intro hsplit
    obtain ⟨hcheck, hlist⟩ := hsplit
    obtain ⟨p, hp⟩ := Grammar.exists_reads_of_check hcheck
    rw [Markers.itemsOf_eq_body hp, tokens_of_reads hp] at hcheck hlist
    exact ⟨p, hp, (Phrase.check_body_iff hp).1 hcheck, hlist⟩
  · intro hsplit
    obtain ⟨p, hp, hchain, hlist⟩ := hsplit
    rw [Markers.itemsOf_eq_body hp, tokens_of_reads hp]
    exact ⟨(Phrase.check_body_iff hp).2 hchain, hlist⟩

end NodeList

end RegexAutomaton

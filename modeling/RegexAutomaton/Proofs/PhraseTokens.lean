/-
A phrase is known from its tokens.

Its parentheses match in one way only, so phrases with the same tokens, wherever these
stand, are the same but for places (`Phrase.placeless_eq`) and have the same automaton.
So a pattern is compiled once a phrase has the tokens that its text spells
(`compile_of_spellsAll`).
-/
import RegexAutomaton.Proofs.Composition
import RegexAutomaton.Proofs.Spelling

namespace RegexAutomaton

namespace Phrase

/-- The phrase without the places of its tokens. -/
def placeless : Phrase → Phrase
  | nil => nil
  | leaf t isLeaf rest => leaf ⟨t.value, 0, 0⟩ isLeaf rest.placeless
  | group _ inner _ rest => group 0 inner.placeless 0 rest.placeless

theorem outline_placeless (p : Phrase) : p.placeless.outline = p.outline := by
  induction p with
  | nil => rfl
  | leaf t hleaf rest ih => simp only [placeless, outline, ih]
  | group o inner z rest ihInner ihRest => simp only [placeless, outline, ihInner, ihRest]

theorem after_placeless (p : Phrase) (s : Liveness) : p.placeless.after s = p.after s := by
  induction p generalizing s with
  | nil => rfl
  | leaf t hleaf rest ih => exact ih _
  | group o inner z rest ihInner ihRest => simp only [placeless, after, ihInner, ihRest]

theorem dead_placeless (p : Phrase) : p.placeless.dead = p.dead := by
  rw [dead, after_placeless, dead]

/-- Where one phrase ends before the end of a group, so does any other with the same
tokens. -/
theorem placeless_eq_of_append {p q : Phrase} {later later' : List Token}
    (h : p.values ++ .groupClose :: later = q.values ++ .groupClose :: later') :
    p.placeless = q.placeless ∧ later = later' := by
  induction p generalizing q later later' with
  | nil =>
    cases q with
    | nil => exact ⟨rfl, (List.cons.inj h).2⟩
    | leaf u hu => exact absurd (List.cons.inj h).1.symm hu.2
    | group => cases (List.cons.inj h).1
  | leaf t ht rest ih =>
    cases q with
    | nil => exact absurd (List.cons.inj h).1 ht.2
    | leaf u hu rest' =>
      obtain ⟨hvalue, hrest⟩ := List.cons.inj h
      obtain ⟨hplaceless, hlater⟩ := ih hrest
      exact ⟨by simp only [placeless, hvalue, hplaceless], hlater⟩
    | group => exact absurd (List.cons.inj h).1 ht.1
  | group o inner z rest ihInner ihRest =>
    cases q with
    | nil => cases (List.cons.inj h).1
    | leaf u hu => exact absurd (List.cons.inj h).1.symm hu.1
    | group o' inner' z' rest' =>
      simp only [values_group, List.cons_append, List.append_assoc] at h
      obtain ⟨hinner, hclosed⟩ := ihInner (List.cons.inj h).2
      obtain ⟨hrest, hlater⟩ := ihRest hclosed
      exact ⟨by simp only [placeless, hinner, hrest], hlater⟩

/-- **Phrases with the same tokens are the same**, but for places. -/
theorem placeless_eq {p q : Phrase} (h : p.values = q.values) : p.placeless = q.placeless := by
  have happend : p.values ++ [.groupClose] = q.values ++ [.groupClose] := by rw [h]
  exact (placeless_eq_of_append happend).1

theorem automaton_congr {p q : Phrase} (h : p.values = q.values) (stop stop' : Nat) (options : Options) :
    p.automaton stop options = q.automaton stop' options := by
  have hplaceless := placeless_eq h
  rw [automaton_eq, automaton_eq, ← outline_placeless p, hplaceless, outline_placeless q, h, ← dead_placeless p,
    hplaceless, dead_placeless q]

/-- Any tokens with the values of a phrase are those of a phrase. -/
theorem exists_tokens_of_values {p : Phrase} {ts : List (Spanned Token)}
    (hwidth : ∀ t ∈ ts, ¬ t.value.IsLeaf → t.width = 1) (h : ts.map (·.value) = p.values) :
    ∃ q : Phrase, q.tokens = ts ∧ q.values = p.values := by
  have hdepth := p.depthAfter?_values 0 []
  rw [List.append_nil] at hdepth
  obtain ⟨q, rfl⟩ := exists_tokens_eq hwidth (h ▸ hdepth)
  exact ⟨q, rfl, h⟩

end Phrase

variable {encoding : Encoding} {text : List Char} {p : Phrase}

/-- **A text that spells the tokens of a phrase has the automaton of the phrase.** -/
theorem compile_of_spellsAll (h : (Token.read encoding).SpellsAll text p.values) (hchecks : p.Checks) (stop : Nat)
    (options : Options) : compile encoding text options = .ok (p.automaton stop options) := by
  obtain ⟨pieces, hreads, hvalues⟩ := h.reads (Token.fits_read encoding) 0
  obtain ⟨q, rfl, hq⟩ := Phrase.exists_tokens_of_values (Token.width_of_reads hreads) hvalues
  refine compile_eq_ok_iff.2 ⟨q, hreads, ?_, Phrase.automaton_congr hq.symm stop text.length options⟩
  rwa [Phrase.roles, hq]

end RegexAutomaton

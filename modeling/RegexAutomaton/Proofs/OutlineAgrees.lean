/-
Outlines that give the same states.

What a part of a pattern gives to its surroundings is its states, whether it has any,
where its first branch falls back to, and how often it repeats what is before it. Parts
that agree in this (`Outline.Agrees`) can take each other's place in any outline.
-/
import RegexAutomaton.Proofs.OutlineStates

namespace RegexAutomaton

namespace Outline

/-- The same states, in every setting. -/
structure Agrees (o o' : Outline) : Prop where
  states : ∀ c n, o.states c n = o'.states c n
  opens : o.opens = o'.opens
  fallback : ∀ c n, o.fallback c n = o'.fallback c n
  repetition : o.repetition = o'.repetition

theorem Agrees.refl (o : Outline) : o.Agrees o := ⟨fun _ _ => rfl, rfl, fun _ _ => rfl, rfl⟩

variable {kind kind' : NodeKind} {hleaf : kind.isStructural = false} {hleaf' : kind'.isStructural = false}
  {inner inner' rest rest' o o' : Outline}

theorem Agrees.size (h : o.Agrees o') : o.size = o'.size := by
  rw [← length_states o (.top 0) 0, h.states, length_states]

theorem Agrees.stateBefore (h : rest.Agrees rest') (c : Setting) (n next after close : Nat) (opensGroup : Bool)
    (guard : Guard) :
    rest.stateBefore c n next after close opensGroup guard =
      rest'.stateBefore c n next after close opensGroup guard := by
  simp only [Outline.stateBefore, h.fallback, h.repetition, h.opens]

theorem Agrees.entry (h : o.Agrees o') (c : Setting) (n : Nat) : o.entry c n = o'.entry c n := by
  simp only [Outline.entry, h.opens]

theorem Agrees.inside (h : rest.Agrees rest') (c : Setting) (n after : Nat) :
    rest.inside c n after = rest'.inside c n after := by
  simp only [Outline.inside, h.entry, h.fallback]

/-- A leaf agrees with another that has the same guard. -/
theorem Agrees.leaf (h : rest.Agrees rest') (hguard : Guard.ofKind? kind = Guard.ofKind? kind')
    (hrepetition : kind.repetition? = kind'.repetition?) :
    (leaf kind hleaf rest).Agrees (leaf kind' hleaf' rest') := by
  have hbears : kind.bearsState = kind'.bearsState := by
    rw [← Guard.isSome_ofKind?, hguard, Guard.isSome_ofKind?]
  refine ⟨fun c n => ?_, ?_, fun c n => ?_, ?_⟩
  · simp only [Outline.states, hguard, h.stateBefore, h.entry, h.states]
  · simp only [Outline.opens, hbears, h.opens]
  · simp only [Outline.fallback, hbears, h.fallback]
  · simp only [Outline.repetition, quantifier?, hrepetition]

/-- A leaf that bears no state can be left out, if what is then first repeats as
often. -/
theorem Agrees.of_idle (h : rest.Agrees o) (hidle : kind.bearsState = false)
    (hrepetition : kind.repetition?.getD .once = o.repetition) : (Outline.leaf kind hleaf rest).Agrees o := by
  have hguard : Guard.ofKind? kind = none := by
    rw [← Option.not_isSome_iff_eq_none, Guard.isSome_ofKind?, hidle]
    exact Bool.false_ne_true
  refine ⟨fun c n => ?_, ?_, fun c n => ?_, hrepetition⟩
  · rw [states_idle hguard, h.states]
  · rw [Outline.opens, hidle, Bool.false_or, h.opens]
  · rw [Outline.fallback, hidle, h.fallback]
    rfl

theorem Agrees.bar (h : rest.Agrees rest') : (bar rest).Agrees (bar rest') :=
  ⟨h.states, rfl, fun _ _ => rfl, rfl⟩

theorem Agrees.group (hinner : inner.Agrees inner') (h : rest.Agrees rest') :
    (group inner rest).Agrees (group inner' rest') := by
  refine ⟨fun c n => ?_, rfl, fun c n => ?_, rfl⟩
  · simp only [states_group, hinner.size, h.inside, h.stateBefore, h.entry, hinner.entry, hinner.states, h.states]
  · simp only [Outline.fallback, hinner.size, h.fallback]

end Outline

end RegexAutomaton

/-
A phrase with another body in one of its groups.

If the tokens of a body stand between two parentheses, they are the body of a group
(`Phrase.exists_swaps`), wherever the group lies. What is around the group sees no more
of the new body than its ends, whether it is dead and how many groups it opens.
-/
import RegexAutomaton.Proofs.PhraseTokens

namespace RegexAutomaton

namespace Phrase

/-- The second phrase has the body `b'` where the first has the body `b` in a
group. -/
inductive Swaps (b b' : Phrase) : Phrase → Phrase → Prop
  | here {inner : Phrase} (h : inner.placeless = b.placeless) (opening closing : Nat) (rest : Phrase) :
      Swaps b b' (group opening inner closing rest) (group opening b' closing rest)
  | leaf (t : Spanned Token) (isLeaf : t.value.IsLeaf) {rest rest' : Phrase} (h : Swaps b b' rest rest') :
      Swaps b b' (leaf t isLeaf rest) (leaf t isLeaf rest')
  | inside {inner inner' : Phrase} (h : Swaps b b' inner inner') (opening closing : Nat) (rest : Phrase) :
      Swaps b b' (group opening inner closing rest) (group opening inner' closing rest)
  | after (opening : Nat) (inner : Phrase) (closing : Nat) {rest rest' : Phrase} (h : Swaps b b' rest rest') :
      Swaps b b' (group opening inner closing rest) (group opening inner closing rest')

variable {b b' p p' : Phrase} {before after later : List Token}

/-- What stands between two parentheses and is a body is the body of a group, even if
more tokens follow the phrase. -/
theorem exists_swaps_of_append (b' : Phrase)
    (h : p.values ++ later = before ++ .groupOpen :: (b.values ++ .groupClose :: after))
    (hlength : before.length < p.values.length) :
    ∃ p' after', after = after' ++ later ∧ Swaps b b' p p' ∧
      p'.values = before ++ .groupOpen :: (b'.values ++ .groupClose :: after') := by
  induction p generalizing before after later with
  | nil => cases hlength
  | leaf t hleaf rest ih =>
    cases before with
    | nil => exact absurd (List.cons.inj h).1 hleaf.1
    | cons u before =>
      rw [values_leaf] at h hlength
      obtain ⟨rfl, hrest⟩ := List.cons.inj h
      obtain ⟨rest', after', hafter, hswaps, hvalues⟩ := ih hrest (Nat.lt_of_succ_lt_succ hlength)
      exact ⟨.leaf t hleaf rest', after', hafter, .leaf t hleaf hswaps, by rw [values_leaf, hvalues]; rfl⟩
  | group o inner z rest ihInner ihRest =>
    rw [values_group, List.cons_append, List.append_assoc, List.cons_append] at h
    rw [values_group, List.length_cons, List.length_append, List.length_cons] at hlength
    cases before with
    | nil =>
      obtain ⟨hinner, hafter⟩ := placeless_eq_of_append (List.cons.inj h).2
      exact ⟨.group o b' z rest, rest.values, hafter.symm, .here hinner o z rest, values_group o b' z rest⟩
    | cons u before =>
      obtain ⟨rfl, hrest⟩ := List.cons.inj h
      rcases List.append_eq_append_iff.1 hrest with ⟨middle, rfl, hclose⟩ | ⟨middle, hinner, hopen⟩
      · -- The body is behind the first group.
        cases middle with
        | nil => cases (List.cons.inj hclose).1
        | cons v before =>
          obtain ⟨rfl, hlater⟩ := List.cons.inj hclose
          have hshort : before.length < rest.values.length := by
            simp only [List.length_cons, List.length_append] at hlength
            omega
          obtain ⟨rest', after', hafter, hswaps, hvalues⟩ := ihRest hlater hshort
          refine ⟨.group o inner z rest', after', hafter, .after o inner z hswaps, ?_⟩
          rw [values_group, hvalues]
          simp
      · -- It is inside.
        cases middle with
        | nil => cases (List.cons.inj hopen).1
        | cons v middle =>
          have hshort : before.length < inner.values.length := by
            rw [hinner, List.length_append, List.length_cons]
            omega
          obtain ⟨inner', after', rfl, hswaps, hvalues⟩ := ihInner hrest hshort
          refine ⟨.group o inner' z rest, after' ++ .groupClose :: rest.values, by simp, .inside hswaps o z rest, ?_⟩
          rw [values_group, hvalues]
          simp

/-- **What stands between two parentheses and is a body is the body of a group.** -/
theorem exists_swaps (b' : Phrase) (h : p.values = before ++ .groupOpen :: (b.values ++ .groupClose :: after)) :
    ∃ p', Swaps b b' p p' ∧ p'.values = before ++ .groupOpen :: (b'.values ++ .groupClose :: after) := by
  have hlength : before.length < p.values.length := by
    rw [h, List.length_append, List.length_cons]
    omega
  have happend : p.values ++ [] = before ++ .groupOpen :: (b.values ++ .groupClose :: after) := by
    rw [List.append_nil, h]
  obtain ⟨p', after', hafter, hswaps, hvalues⟩ := exists_swaps_of_append b' happend hlength
  rw [List.append_nil] at hafter
  subst hafter
  exact ⟨p', hswaps, hvalues⟩

/-! ## What is around the group -/

/-- What is around the group sees of a body whether it is dead. -/
theorem Swaps.after_eq (h : Swaps b b' p p') (hdead : b'.dead = b.dead) (s : Liveness) : p'.after s = p.after s := by
  induction h generalizing s with
  | @here inner hinner o z rest =>
    have hbody : inner.dead = b.dead := by rw [← dead_placeless, hinner, dead_placeless]
    rw [after_group, after_group, hbody, hdead]
  | leaf t hleaf _ ih => exact ih _
  | inside _ o z rest ih => rw [Phrase.after, ih, Phrase.after]
  | after o inner z _ ih => rw [Phrase.after, ih, Phrase.after]

theorem Swaps.dead_eq (h : Swaps b b' p p') (hdead : b'.dead = b.dead) : p'.dead = p.dead := by
  rw [dead, h.after_eq hdead, dead]

/-- A well-formed phrase stays so if the new body may stand in a group. -/
theorem Checks.swap (h : p.Checks) (hp : p.values = before ++ .groupOpen :: (b.values ++ .groupClose :: after))
    (hp' : p'.values = before ++ .groupOpen :: (b'.values ++ .groupClose :: after))
    (hbody : List.IsChain Role.Admits (.groupOpen :: (b'.roles ++ [.groupClose]))) : p'.Checks := by
  have hroles (b : Phrase) :
      Role.start :: ((before ++ Token.groupOpen :: (b.values ++ .groupClose :: after)).map Token.role ++ [.finish]) =
        (.start :: before.map Token.role) ++ .groupOpen ::
          (b.roles ++ .groupClose :: (after.map Token.role ++ [.finish])) := by
    simp [roles, Token.role, Item.role]
  have hchain (b : Phrase) : List.IsChain Role.Admits ((.start :: before.map Token.role) ++ .groupOpen ::
      (b.roles ++ .groupClose :: (after.map Token.role ++ [.finish]))) ↔
      List.IsChain Role.Admits (.start :: before.map Token.role ++ [.groupOpen]) ∧
        List.IsChain Role.Admits (.groupOpen :: (b.roles ++ [.groupClose])) ∧
          List.IsChain Role.Admits (.groupClose :: (after.map Token.role ++ [.finish])) := by
    rw [List.isChain_split]
    exact and_congr_right fun _ => @List.isChain_split _ _ .groupClose (.groupOpen :: b.roles) _
  rw [Checks, roles, hp, hroles, hchain] at h
  rw [Checks, roles, hp', hroles, hchain]
  exact ⟨h.1, hbody, h.2.2⟩

end Phrase

end RegexAutomaton

/-
A pattern, printed and read again.

What is printed for the nodes of a pattern is what is written for its tokens
(`NodeList.printed_ofItems`). It is read again, but for quantifiers that ask for one
time, for which nothing is written (`Phrase.reread`). These make no difference to states,
nor to whether a pattern can be seen never to match, so what is printed has the automaton
of the pattern (`compile_printed`).
-/
import RegexAutomaton.Proofs.OutlineAgrees
import RegexAutomaton.Proofs.PhraseTokens
import RegexAutomaton.Proofs.Writing

namespace RegexAutomaton

/-! ## What is printed -/

/-- The kind as it stands in a pattern, where there are no markers. -/
def NodeKind.printed : NodeKind → List Char
  | alternationStart | alternationEnd | sentinel => []
  | groupClose _ => [')']
  | kind => kind.text

/-- The nodes, printed one after the other. -/
def NodeList.printed (list : NodeList) : List Char := list.nodes.flatMap (·.kind.printed)

/-- What is printed for an item is what is written for its token. -/
theorem NodeKind.printed_ofItem (groups : List Nat) (item : Item) :
    (ofItem groups item).printed = item.token?.toList.flatMap Token.text := by
  cases item with
  | token t =>
    have hone : (Item.token t).token?.toList.flatMap Token.text = t.text := List.append_nil _
    rw [hone]
    cases t with
    | atom a =>
      cases a with
      | literal c => exact List.append_nil _
      | _ => rfl
    | _ => rfl
  | alternationStart => rfl
  | alternationEnd => rfl

theorem Node.printed_ofItems (index : Nat) (groups : List Nat) (items : List (Spanned Item)) :
    (ofItems index groups items).flatMap (·.kind.printed) =
      (items.filterMap (·.value.token?)).flatMap Token.text := by
  induction items generalizing index groups with
  | nil => rfl
  | cons item items ih =>
    have hkind : (ofItem groups item).kind = .ofItem groups item.value := rfl
    rw [ofItems, List.flatMap_cons, ih, hkind, NodeKind.printed_ofItem, List.filterMap_cons]
    cases item.value.token? <;> simp

theorem NodeList.printed_ofItems (items : List (Spanned Item)) (stop : Nat) :
    (ofItems items stop).printed = (items.filterMap (·.value.token?)).flatMap Token.text := by
  have hsentinels : [Node.bare .sentinel stop 0 none, .bare .sentinel stop 0 none].flatMap (·.kind.printed) = [] :=
    rfl
  rw [printed, ofItems, List.flatMap_append, hsentinels, List.append_nil, Node.printed_ofItems]

/-! ## What is read again -/

namespace Token

theorem role_of_reread? {t t' : Token} (h : t.reread? = some t') : t'.role = t.role := by
  cases t with
  | quantifier q =>
    rw [reread?] at h
    split at h
    · cases h
    · obtain rfl := Option.some.inj h
      rfl
  | _ =>
    obtain rfl := Option.some.inj h
    rfl

/-- What a quantifier may follow may be followed by anything. -/
theorem admits_of_admits_quantifier {before : Role} (h : before.Admits .quantifier) (after : Role) :
    before.Admits after := by
  cases before <;> first | (cases after <;> rfl) | cases h

/-- Leaving out quantifiers brings no two neighbours together that refuse each other. -/
theorem isChain_reread {ts : List Token} {before : Role}
    (h : List.IsChain Role.Admits (before :: (ts.map role ++ [.finish]))) :
    List.IsChain Role.Admits (before :: ((ts.filterMap reread?).map role ++ [.finish])) := by
  induction ts generalizing before with
  | nil => exact h
  | cons t ts ih =>
    obtain ⟨hadmits, hrest⟩ := List.isChain_cons_cons.1 h
    cases hreread : t.reread? with
    | some t' =>
      rw [List.filterMap_cons_some hreread, List.map_cons, role_of_reread? hreread]
      exact List.isChain_cons_cons.2 ⟨hadmits, ih hrest⟩
    | none =>
      rw [List.filterMap_cons_none hreread]
      have hquantifier : t.role = .quantifier := by
        cases t with
        | quantifier q => rfl
        | _ => cases hreread
      rw [hquantifier] at hadmits
      exact ih (List.isChain_cons.2 ⟨fun after _ => admits_of_admits_quantifier hadmits after,
        (List.isChain_cons.1 hrest).2⟩)

theorem count_reread (ts : List Token) : (ts.filterMap reread?).count .groupOpen = ts.count .groupOpen := by
  induction ts with
  | nil => rfl
  | cons t ts ih =>
    rw [List.filterMap_cons, reread?.eq_def]
    cases t with
    | quantifier q => by_cases h : q.repetition = .once <;> simp [h, ih]
    | _ => simp [ih]

theorem isLeaf_of_reread? {t t' : Token} (h : t.reread? = some t') (hleaf : t.IsLeaf) : t'.IsLeaf := by
  have hrole := role_of_reread? h
  constructor
  · rintro rfl
    cases t <;> first | exact hleaf.1 rfl | cases hrole
  · rintro rfl
    cases t <;> first | exact hleaf.2 rfl | cases hrole

end Token

namespace Phrase

/-- The phrase that is read from what is written for the tokens. -/
def reread : Phrase → Phrase
  | nil => nil
  | leaf t isLeaf rest =>
    match h : t.value.reread? with
    | some value => leaf { t with value } (Token.isLeaf_of_reread? h isLeaf) rest.reread
    | none => rest.reread
  | group opening inner closing rest => group opening inner.reread closing rest.reread

section

variable {t : Spanned Token} {hleaf : t.value.IsLeaf} {rest : Phrase}

theorem reread_some {value : Token} (h : t.value.reread? = some value) :
    (leaf t hleaf rest).reread = leaf { t with value } (Token.isLeaf_of_reread? h hleaf) rest.reread := by
  rw [reread]
  split
  · next hvalue =>
    obtain rfl := Option.some.inj (hvalue.symm.trans h)
    rfl
  · next hnone => cases hnone.symm.trans h

theorem reread_none (h : t.value.reread? = none) : (leaf t hleaf rest).reread = rest.reread := by
  rw [reread]
  split
  · next hvalue => cases hvalue.symm.trans h
  · rfl

end

theorem values_reread (p : Phrase) : p.reread.values = p.values.filterMap Token.reread? := by
  induction p with
  | nil => rfl
  | leaf t hleaf rest ih =>
    cases h : t.value.reread? with
    | some value => rw [reread_some h, values_leaf, values_leaf, List.filterMap_cons_some h, ih]
    | none => rw [reread_none h, values_leaf, List.filterMap_cons_none h, ih]
  | group o inner z rest ihInner ihRest =>
    rw [reread, values_group, values_group, ihInner, ihRest, List.filterMap_cons, List.filterMap_append,
      List.filterMap_cons]
    rfl

theorem Checks.reread {p : Phrase} (h : p.Checks) : p.reread.Checks := by
  unfold Checks roles
  rw [values_reread]
  exact Token.isChain_reread h

end Phrase

/-! ## States -/

namespace Token

theorem reread?_of_ne_quantifier {t : Token} (h : ∀ q, t ≠ quantifier q) : t.reread? = some t := by
  cases t with
  | quantifier q => exact absurd rfl (h q)
  | _ => rfl

/-- A token that nothing is written for is a quantifier that asks for one time. -/
theorem eq_of_reread?_eq_none {t : Token} (h : t.reread? = none) : ∃ q, t = quantifier q ∧ q.repetition = .once := by
  cases t with
  | quantifier q =>
    rw [reread?] at h
    split at h
    · next honce => exact ⟨q, rfl, honce⟩
    · cases h
  | _ => cases h

/-- What is read again is the same token, or a quantifier that asks for as much. -/
theorem eq_or_of_reread?_eq_some {t t' : Token} (h : t.reread? = some t') :
    t' = t ∨ ∃ q q', t = quantifier q ∧ t' = quantifier q' ∧ q'.repetition = q.repetition := by
  cases t with
  | quantifier q =>
    rw [reread?] at h
    split at h
    · cases h
    · obtain rfl := Option.some.inj h
      exact .inr ⟨q, _, rfl, rfl, Repetition.repetition_plainest _⟩
  | _ => exact .inl (Option.some.inj h).symm

end Token

namespace Phrase

theorem sound_rest {t : Spanned Token} {hleaf : t.value.IsLeaf} {rest : Phrase}
    (h : (leaf t hleaf rest).outline.Sound) : rest.outline.Sound := by
  by_cases hbar : t.value = .bar
  · rw [outline_bar hbar] at h
    exact h.2
  · rw [outline_leaf hbar] at h
    exact h.2

/-- No quantifier comes after a quantifier. -/
theorem quantifier?_rest {q : Quantifier} {offset width : Nat} {hleaf : Token.IsLeaf (.quantifier q)} {rest : Phrase}
    (h : (leaf ⟨.quantifier q, offset, width⟩ hleaf rest).outline.Sound) : rest.outline.quantifier? = none := by
  rw [outline_leaf (by simp)] at h
  exact Option.not_isSome_iff_eq_none.1 fun hquantifier => Bool.false_ne_true (h.1 hquantifier)

/-- **What is read again gives the same states.** -/
theorem agrees_reread {p : Phrase} (h : p.outline.Sound) : p.outline.Agrees p.reread.outline := by
  induction p with
  | nil => exact .refl _
  | leaf t hleaf rest ih =>
    obtain ⟨value, offset, width⟩ := t
    cases hreread : value.reread? with
    | none =>
      obtain ⟨q, rfl, honce⟩ := Token.eq_of_reread?_eq_none hreread
      have hagrees := ih (sound_rest h)
      rw [reread_none hreread, outline_leaf (by simp)]
      refine hagrees.of_idle rfl ?_
      rw [← hagrees.repetition, Outline.repetition, quantifier?_rest h]
      exact honce
    | some value' =>
      rw [reread_some hreread]
      have hagrees := ih (sound_rest h)
      by_cases hbar : value = .bar
      · subst hbar
        obtain rfl := Option.some.inj hreread
        rw [outline_bar rfl, outline_bar rfl]
        exact hagrees.bar
      · have hbar' : value' ≠ .bar := by
          rintro rfl
          have hrole := Token.role_of_reread? hreread
          cases value <;> first | exact hbar rfl | cases hrole
        rw [outline_leaf hbar, outline_leaf hbar']
        rcases Token.eq_or_of_reread?_eq_some hreread with rfl | ⟨q, q', rfl, rfl, hrepetition⟩
        · exact hagrees.leaf rfl rfl
        · exact hagrees.leaf rfl (congrArg some hrepetition.symm)
  | group o inner z rest ihInner ihRest =>
    obtain ⟨-, hinner, hrest⟩ := h
    exact .group (ihInner hinner) (ihRest hrest)

end Phrase

/-! ## Liveness -/

namespace Liveness

variable {s s' : Liveness} {t : Token}

/-- What is known before a token that is no quantifier, as far as it matters there. -/
def settled (s : Liveness) : Liveness := { s.settle false with afterAtom := false }

theorem step_settled (h : ∀ q, t ≠ .quantifier q) (s : Liveness) :
    s.settled.step (.token t) = s.step (.token t) := by
  obtain ⟨body, outer, closedDead, afterAtom, afterRequired⟩ := s
  cases t with
  | quantifier q => exact absurd rfl (h q)
  | _ => cases closedDead <;> rfl

theorem atNext_settled (s : Liveness) : s.settled.atNext (.token .groupOpen) = s.atNext (.token .groupOpen) := by
  obtain ⟨body, outer, closedDead, afterAtom, afterRequired⟩ := s
  cases closedDead <;> rfl

/-- After a token that is no quantifier only an atom has to match. -/
theorem afterAtom_step (h : ∀ q, t ≠ .quantifier q) (s : Liveness) :
    (s.step (.token t)).afterAtom = (s.step (.token t)).afterRequired := by
  cases t with
  | quantifier q => exact absurd rfl (h q)
  | anchorStart =>
    simp only [step]
    split <;> rfl
  | groupClose =>
    simp only [step, leave]
    split <;> rfl
  | _ => rfl

/-- Only the repetition of a quantifier matters, and this is read again. -/
theorem step_reread {q : Quantifier} (h : (Token.quantifier q).reread? = some t) (s : Liveness) :
    s.step (.token t) = s.step (.token (.quantifier q)) := by
  rcases Token.eq_or_of_reread?_eq_some h with rfl | ⟨q', q'', hq, rfl, hrepetition⟩
  · rfl
  · obtain rfl := Token.quantifier.inj hq
    simp only [step, spares, hrepetition]

/-- A quantifier that asks for one time changes nothing but what the next quantifier may
repeat. -/
theorem settled_step_once {q : Quantifier} (hq : q.repetition = .once) (hs : s.afterAtom = s.afterRequired) :
    (s.step (.token (.quantifier q))).settled = s.settled := by
  obtain ⟨body, outer, closedDead, afterAtom, afterRequired⟩ := s
  obtain rfl : afterAtom = afterRequired := hs
  have honce : q.repetition.isOptional = false := by rw [hq]; rfl
  cases closedDead <;> simp [step, settled, settle, spares, honce, kill]

end Liveness

namespace Phrase

/-- What is known after a phrase is the same when it is read again. -/
theorem after_reread {p : Phrase} (h : p.outline.Sound) {s s' : Liveness} (hs : s'.settled = s.settled)
    (hfirst : p.outline.quantifier?.isSome = true → s' = s ∧ s.afterAtom = s.afterRequired) :
    (p.reread.after s').settled = (p.after s).settled := by
  induction p generalizing s s' with
  | nil => exact hs
  | leaf t hleaf rest ih =>
    obtain ⟨value, offset, width⟩ := t
    have hrest := sound_rest h
    by_cases hquantifier : ∃ q, value = .quantifier q
    · obtain ⟨q, rfl⟩ := hquantifier
      obtain ⟨rfl, hatom⟩ := hfirst (by rw [outline_leaf (by simp)]; rfl)
      have hnone : ¬ rest.outline.quantifier?.isSome = true := by simp [quantifier?_rest h]
      cases hreread : (Token.quantifier q).reread? with
      | none =>
        obtain ⟨q', hq, honce⟩ := Token.eq_of_reread?_eq_none hreread
        obtain rfl := Token.quantifier.inj hq
        rw [reread_none hreread, after]
        exact ih hrest (Liveness.settled_step_once honce hatom).symm fun h => absurd h hnone
      | some value =>
        rw [reread_some hreread, after, after, Liveness.step_reread hreread]
        exact ih hrest rfl fun h => absurd h hnone
    · have hne : ∀ q, value ≠ .quantifier q := fun q hq => hquantifier ⟨q, hq⟩
      have hreread := Token.reread?_of_ne_quantifier hne
      have hstep : s'.step (.token value) = s.step (.token value) := by
        rw [← Liveness.step_settled hne, hs, Liveness.step_settled hne]
      rw [reread_some hreread, after, after, hstep]
      exact ih hrest rfl fun _ => ⟨rfl, Liveness.afterAtom_step hne s⟩
  | group o inner z rest ihInner ihRest =>
    obtain ⟨-, hinner, hrest⟩ := h
    have hdead : inner.reread.dead = inner.dead :=
      congrArg (fun s => s.body.isDead) (ihInner hinner (s := .fresh) rfl fun _ => ⟨rfl, rfl⟩)
    have hnext : s'.atNext (.token .groupOpen) = s.atNext (.token .groupOpen) := by
      rw [← Liveness.atNext_settled s', hs, Liveness.atNext_settled]
    rw [reread, after_group, after_group, hdead, hnext]
    exact ihRest hrest rfl fun _ => ⟨rfl, rfl⟩

theorem dead_reread {p : Phrase} (h : p.outline.Sound) : p.reread.dead = p.dead :=
  congrArg (fun s => s.body.isDead) (after_reread h (s := .fresh) rfl fun _ => ⟨rfl, rfl⟩)

end Phrase

/-! ## Patterns -/

/-- No rewriting is done. -/
def Options.plain : Options := ⟨some false, some false⟩

theorem Outline.rewritten_plain (o : Outline) : o.rewritten .plain = o := rfl

theorem Phrase.automaton_reread {p : Phrase} (h : p.outline.Sound) (stop stop' : Nat) :
    p.reread.automaton stop .plain = p.automaton stop' .plain := by
  have hagrees := agrees_reread h
  simp only [automaton_eq, Outline.rewritten_plain, hagrees.size, hagrees.states, dead_reread h, values_reread,
    Token.count_reread]

/-- **What is printed for a pattern has the same automaton**, without rewriting. -/
theorem compile_printed {encoding : Encoding} {pattern : List Char} {list : NodeList}
    (hpattern : ∀ c ∈ pattern, encoding.Has c)
    (h : NodeList.read encoding ((Markers.ofPattern? pattern).getD .empty) pattern = .ok list) :
    ∃ a, compile encoding list.printed .plain = .ok a ∧ compile encoding pattern .plain = .ok a := by
  have hparse : NodeList.parse encoding pattern .plain = .ok (list.after [.link]) := by
    rw [NodeList.parse, h]
    rfl
  obtain ⟨p, hreads, (hchecks : p.Checks), -⟩ := NodeList.parse_eq_ok_iff.1 hparse
  have hsound : p.outline.Sound := Phrase.sound_outline_of_check hchecks
  have hprinted : list.printed = p.values.flatMap Token.text := by
    obtain ⟨-, -, rfl⟩ := map_eq_ok_iff.1 h
    rw [NodeList.printed_ofItems, Markers.itemsOf, Markers.tokens_weave, tokens_of_reads hreads, Phrase.values]
  have hlegible : ∀ t ∈ p.values, t.Legible encoding := by
    intro t ht
    obtain ⟨piece, hpiece, rfl⟩ := List.mem_map.1 ht
    exact Token.forall_legible_of_reads hpattern hreads piece hpiece
  have hspells := Token.spellsAll_flatMap_text hlegible
  rw [← Phrase.values_reread, ← hprinted] at hspells
  refine ⟨p.automaton pattern.length .plain, ?_, compile_eq_ok_iff.2 ⟨p, hreads, hchecks, rfl⟩⟩
  rw [compile_of_spellsAll hspells hchecks.reread pattern.length, Phrase.automaton_reread hsound]

theorem compile_printed_once :
    (∀ c ∈ ['(', '\\', 'x', '4', '1', '{', '1', '}', '|', '[', ']', ']', ')'], Encoding.byte.Has c) ∧
      ∃ list, NodeList.read .byte
          ((Markers.ofPattern? ['(', '\\', 'x', '4', '1', '{', '1', '}', '|', '[', ']', ']', ')']).getD .empty)
          ['(', '\\', 'x', '4', '1', '{', '1', '}', '|', '[', ']', ']', ')'] = .ok list ∧
        list.printed = ['(', 'A', '|', '[', '\\', ']', ']', ')'] ∧
        ∃ a, compile .byte list.printed .plain = .ok a ∧
          compile .byte ['(', '\\', 'x', '4', '1', '{', '1', '}', '|', '[', ']', ']', ')'] .plain = .ok a := by
  have hbytes : ∀ c ∈ ['(', '\\', 'x', '4', '1', '{', '1', '}', '|', '[', ']', ']', ')'], Encoding.byte.Has c := by
    simp [Encoding.has_byte_iff]
  exact ⟨hbytes, _, rfl, by decide, compile_printed hbytes rfl⟩

end RegexAutomaton

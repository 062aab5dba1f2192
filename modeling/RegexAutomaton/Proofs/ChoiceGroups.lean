/-
A group of single choices, written as a set.

If the body of a group is an alternation of atoms, the set it stands for can be written
in its place: the pattern has the same automaton, as long as alternations are collapsed
(`compile_choices`). Everything else in the pattern stays as it is.
-/
import RegexAutomaton.Proofs.GroupSwaps
import RegexAutomaton.Proofs.OutlineSets

namespace RegexAutomaton

namespace Phrase

/-! ## Bodies -/

/-- A body that is an alternation of atoms, or an atom and nothing else. -/
def choices : (first : Atom) → (more : List Atom) → Phrase
  | a, [] => leaf ⟨.atom a, 0, 1⟩ (Token.isLeaf_atom a) nil
  | a, b :: more =>
    leaf ⟨.atom a, 0, 1⟩ (Token.isLeaf_atom a) (leaf ⟨.bar, 0, 1⟩ Token.isLeaf_bar (choices b more))

/-- A body that is the set of some choices. -/
def together (atoms : List Atom) : Phrase := choices (.ofSet (Atom.together atoms)) []

theorem values_choices (a : Atom) (more : List Atom) : (choices a more).values = Token.choices (a :: more) := by
  induction more generalizing a with
  | nil => rfl
  | cons b more ih => rw [choices, values_leaf, values_leaf, ih, Token.choices_cons_cons]

theorem outline_choices_nil (a : Atom) :
    ∃ isLeaf, (choices a []).outline = .leaf (.ofItem [] (.token (.atom a))) isLeaf .nil :=
  ⟨_, outline_leaf (by simp) nil⟩

theorem outline_choices_cons (a b : Atom) (more : List Atom) :
    ∃ isLeaf, (choices a (b :: more)).outline =
      .leaf (.ofItem [] (.token (.atom a))) isLeaf (.bar (choices b more).outline) :=
  ⟨_, by rw [choices, outline_leaf (by simp), outline_bar rfl]⟩

/-- An alternation of choices is seen to be one. -/
theorem choices?_outline_choices {a : Atom} {more : List Atom} (h : ∀ x ∈ a :: more, x.IsChoice) :
    (choices a more).outline.choices? = some ((a :: more).map Atom.set) := by
  induction more generalizing a with
  | nil =>
    obtain ⟨hleaf, houtline⟩ := outline_choices_nil a
    rw [houtline, Outline.choices?, Atom.choice?_of_isChoice (h a List.mem_cons_self)]
    rfl
  | cons b more ih =>
    obtain ⟨ha, hrest⟩ := List.forall_mem_cons.1 h
    obtain ⟨hleaf, houtline⟩ := outline_choices_cons a b more
    rw [houtline, Outline.choices?, Atom.choice?_of_isChoice ha, ih hrest]
    rfl

/-- **An alternation of choices becomes what is as good as its set.** -/
theorem alike_choices {a b : Atom} {more : List Atom} (h : ∀ x ∈ a :: b :: more, x.IsChoice) :
    (choices a (b :: more)).outline.collapseBody.Alike (together (a :: b :: more)).outline.collapseBody := by
  obtain ⟨hleaf, houtline⟩ := outline_choices_cons a b more
  have hbarred : (choices a (b :: more)).outline.barred = true := by rw [houtline]; rfl
  have hset := Outline.set?_of_choices? hbarred (choices?_outline_choices h)
  obtain ⟨hleaf', houtline'⟩ := outline_choices_nil (.ofSet (Atom.together (a :: b :: more)))
  rw [Outline.collapseBody, hset, Option.getD_some, Atom.union_set h, together, houtline']
  exact .set _ _ rfl hleaf'

/-- No branch of an alternation of atoms is dead. -/
theorem after_choices (a : Atom) (more : List Atom) {s : Liveness} (hclosed : s.closedDead = false)
    (hbody : s.body.lastDead = false) :
    ((choices a more).after s).closedDead = false ∧ ((choices a more).after s).body.lastDead = false := by
  induction more generalizing a s with
  | nil => simp [choices, after, Liveness.step, Liveness.settle, hclosed, hbody]
  | cons b more ih =>
    refine ih b ?_ ?_
    · simp [Liveness.step, Liveness.settle, hclosed]
    · simp [Liveness.step, Liveness.settle, hclosed, Body.bar]

theorem dead_choices (a : Atom) (more : List Atom) : (choices a more).dead = false := by
  obtain ⟨hclosed, hbody⟩ := after_choices a more (s := .fresh) rfl rfl
  simp [dead, Liveness.settle, hclosed, Body.isDead, hbody]

/-- A body of atoms and bars may stand where an atom may. -/
theorem isChain_choices (a : Atom) (more : List Atom) {before after : Role} (hbefore : before.Admits .atom)
    (hafter : Role.Admits .atom after) :
    List.IsChain Role.Admits (before :: ((choices a more).roles ++ [after])) := by
  induction more generalizing a before with
  | nil => exact List.isChain_cons_cons.2 ⟨hbefore, List.isChain_pair.2 hafter⟩
  | cons b more ih => exact List.isChain_cons_cons.2 ⟨hbefore, List.isChain_cons_cons.2 ⟨rfl, ih b rfl⟩⟩

theorem count_choices (a : Atom) (more : List Atom) : (choices a more).values.count .groupOpen = 0 := by
  induction more generalizing a with
  | nil => rfl
  | cons b more ih => simp [choices, ih b]

/-! ## What is around a body -/

variable {b b' p p' : Phrase}

/-- The group in which the body lies is directly in the phrase, or in a group that is. -/
theorem Swaps.hasGroup (h : Swaps b b' p p') : p.outline.hasGroup = true ∧ p'.outline.hasGroup = true := by
  induction h with
  | leaf t hleaf _ ih =>
    by_cases hbar : t.value = .bar
    · rw [outline_bar hbar, outline_bar hbar]
      exact ih
    · rw [outline_leaf hbar, outline_leaf hbar]
      exact ih
  | _ => exact ⟨rfl, rfl⟩

theorem Swaps.collapseBody_eq (h : Swaps b b' p p') :
    p.outline.collapseBody = p.outline.collapse ∧ p'.outline.collapseBody = p'.outline.collapse :=
  ⟨Outline.collapseBody_of_choices?_eq_none (Outline.choices?_of_hasGroup h.hasGroup.1),
    Outline.collapseBody_of_choices?_eq_none (Outline.choices?_of_hasGroup h.hasGroup.2)⟩

/-- **Collapsing sees no more of a phrase with another body in a group than what becomes
of the body.** -/
theorem Swaps.alike (h : Swaps b b' p p') (hbody : b.outline.collapseBody.Alike b'.outline.collapseBody) :
    p.outline.collapseBody.Alike p'.outline.collapseBody := by
  rw [h.collapseBody_eq.1, h.collapseBody_eq.2]
  induction h with
  | @here inner hinner o z rest =>
    have houtline : inner.outline = b.outline := by rw [← outline_placeless, hinner, outline_placeless]
    rw [← houtline] at hbody
    exact .group hbody (.refl _)
  | leaf t hleaf _ ih =>
    by_cases hbar : t.value = .bar
    · rw [outline_bar hbar, outline_bar hbar]
      exact .bar ih
    · rw [outline_leaf hbar, outline_leaf hbar]
      exact .leaf _ _ ih
  | @inside inner inner' hinner o z rest ih =>
    rw [← hinner.collapseBody_eq.1, ← hinner.collapseBody_eq.2] at ih
    exact .group ih (.refl _)
  | after o inner z _ ih => exact .group (.refl _) ih

/-- Phrases that are alike once they are collapsed have the same automaton. -/
theorem automaton_of_alike {options : Options} (hoptions : options.collapses = true)
    (h : p.outline.collapseBody.Alike p'.outline.collapseBody) (hdead : p'.dead = p.dead)
    (hcount : p'.values.count .groupOpen = p.values.count .groupOpen) (stop stop' : Nat) :
    p'.automaton stop' options = p.automaton stop options := by
  have hagrees : (p.outline.rewritten options).Agrees (p'.outline.rewritten options) := by
    simp only [Outline.rewritten, Outline.collapsed, hoptions, if_true]
    split
    · exact (h.coalesce false).agrees
    · exact h.agrees
  simp only [automaton_eq, hagrees.size, hagrees.states, hdead, hcount]

end Phrase

/-! ## Patterns -/

section

variable {encoding : Encoding} {pattern : List Char} {p : Phrase} {options : Options} {x y : Atom}
  {more : List Atom}

/-- The set of some choices is written as one token. -/
theorem Token.spellsAll_together (hlegible : ∀ a ∈ x :: more, (Token.atom a).Legible encoding) :
    (Token.read encoding).SpellsAll (Atom.together (x :: more)).text (Phrase.together (x :: more)).values := by
  rw [← Token.text_ofSet]
  exact Token.spellsAll_text (Atom.legible_ofSet_together (List.cons_ne_nil x more) hlegible)

/-- The set in the place of the whole pattern. -/
theorem compile_together (hoptions : options.collapses = true) (hchoice : ∀ a ∈ x :: y :: more, a.IsChoice)
    (hlegible : ∀ a ∈ x :: y :: more, (Token.atom a).Legible encoding)
    (hp : p.values = (Phrase.choices x (y :: more)).values) (stop : Nat) :
    compile encoding (Atom.together (x :: y :: more)).text options = .ok (p.automaton stop options) := by
  have hchecks : (Phrase.together (x :: y :: more)).Checks := Phrase.isChain_choices _ [] rfl rfl
  have hdead : (Phrase.together (x :: y :: more)).dead = (Phrase.choices x (y :: more)).dead := by
    rw [Phrase.together, Phrase.dead_choices, Phrase.dead_choices]
  have hcount : (Phrase.together (x :: y :: more)).values.count .groupOpen =
      (Phrase.choices x (y :: more)).values.count .groupOpen := by
    rw [Phrase.together, Phrase.count_choices, Phrase.count_choices]
  rw [compile_of_spellsAll (Token.spellsAll_together hlegible) hchecks stop,
    Phrase.automaton_congr hp stop stop,
    Phrase.automaton_of_alike hoptions (Phrase.alike_choices hchoice) hdead hcount stop]

/-- The set in the place of the body of a group. -/
theorem compile_together_in_group (hreads : (Token.read encoding).Reads 0 pattern p.tokens) (hchecks : p.Checks)
    (hoptions : options.collapses = true) (hchoice : ∀ a ∈ x :: y :: more, a.IsChoice)
    (hlegible : ∀ a ∈ x :: y :: more, (Token.atom a).Legible encoding)
    {before branches after : List (Spanned Token)} {opening closing : Nat}
    (hp : p.tokens =
      before ++ ⟨.groupOpen, opening, 1⟩ :: (branches ++ ⟨.groupClose, closing, 1⟩ :: after))
    (hbranches : branches.map (·.value) = (Phrase.choices x (y :: more)).values) (stop : Nat) :
    compile encoding
        (pattern.take (opening + 1) ++ (Atom.together (x :: y :: more)).text ++ pattern.drop closing) options =
      .ok (p.automaton stop options) := by
  have hvalues : p.values = before.map (·.value) ++
      .groupOpen :: ((Phrase.choices x (y :: more)).values ++ .groupClose :: after.map (·.value)) := by
    rw [← hbranches, Phrase.values, hp]
    simp
  obtain ⟨p', hswaps, hvalues'⟩ := Phrase.exists_swaps (Phrase.together (x :: y :: more)) hvalues
  have hspells := Token.spellsAll_between (hp ▸ hreads) (Token.spellsAll_together hlegible)
  rw [← hvalues'] at hspells
  have hchecks' : p'.Checks := hchecks.swap hvalues hvalues' (Phrase.isChain_choices _ [] rfl rfl)
  have hdead : p'.dead = p.dead := hswaps.dead_eq (by rw [Phrase.together, Phrase.dead_choices, Phrase.dead_choices])
  have hcount : p'.values.count .groupOpen = p.values.count .groupOpen := by
    simp only [hvalues, hvalues', Phrase.together, List.count_append, List.count_cons, Phrase.count_choices]
  rw [compile_of_spellsAll hspells hchecks' stop,
    Phrase.automaton_of_alike hoptions (hswaps.alike (Phrase.alike_choices hchoice)) hdead hcount stop]

end

/-- **An alternation of choices can be written as the set it stands for**, where it is the
whole body of a group, and where it is the whole pattern. -/
theorem compile_choices {encoding : Encoding} {pattern : List Char} {options : Options} {a : Automaton}
    {atoms : List Atom} (hpattern : ∀ c ∈ pattern, encoding.Has c) (hoptions : options.collapses = true)
    (h : compile encoding pattern options = .ok a) (hchoice : ∀ x ∈ atoms, x.IsChoice)
    (hlength : 2 ≤ atoms.length) :
    (∀ before branches after opening closing, (tokens encoding pattern).pieces =
          before ++ ⟨.groupOpen, opening, 1⟩ :: (branches ++ ⟨.groupClose, closing, 1⟩ :: after) →
        branches.map (·.value) = Token.choices atoms →
        compile encoding
            (pattern.take (opening + 1) ++ (Atom.together atoms).text ++ pattern.drop closing) options =
          .ok a) ∧
      ((tokens encoding pattern).pieces.map (·.value) = Token.choices atoms →
        compile encoding (Atom.together atoms).text options = .ok a) := by
  obtain ⟨x, y, more, rfl⟩ : ∃ x y more, atoms = x :: y :: more := by
    match atoms, hlength with
    | x :: y :: more, _ => exact ⟨x, y, more, rfl⟩
  obtain ⟨p, hreads, hchecks, rfl⟩ := compile_eq_ok_iff.1 h
  have hlegible {ts : List (Spanned Token)} (hts : ∀ t ∈ ts, t ∈ p.tokens)
      (hvalues : ts.map (·.value) = Token.choices (x :: y :: more)) :
      ∀ a ∈ x :: y :: more, (Token.atom a).Legible encoding := by
    intro a ha
    have hmem := Token.mem_choices ha
    rw [← hvalues] at hmem
    obtain ⟨t, ht, htoken⟩ := List.mem_map.1 hmem
    rw [← htoken]
    exact Token.forall_legible_of_reads hpattern hreads t (hts t ht)
  have hpieces : (tokens encoding pattern).pieces = p.tokens := by rw [tokens_of_reads hreads]
  have hvalues := Phrase.values_choices x (y :: more)
  rw [hpieces, ← hvalues]
  rw [← hvalues] at hlegible
  refine ⟨fun before branches after opening closing hp hbranches => ?_, fun hp => ?_⟩
  · have hbranch : ∀ t ∈ branches, t ∈ p.tokens := fun t ht => by rw [hp]; simp [ht]
    exact compile_together_in_group hreads hchecks hoptions hchoice (hlegible hbranch hbranches) hp hbranches
      pattern.length
  · exact compile_together hoptions hchoice (hlegible (fun _ h => h) hp) hp pattern.length

theorem compile_choices_escaped :
    (∃ a, compile .byte ['^', '(', '-', '|', '[', 'a', '-', 'c', '-', ']', '|', '\\', 'n', ')', '*'] {} = .ok a ∧
      compile .byte ['^', '(', '[', '\\', '-', 'a', '-', 'c', '\\', 'n', ']', ')', '*'] {} = .ok a) ∧
      ∃ a, compile .unicode ['a', '|', '.'] {} = .ok a ∧ compile .unicode ['.'] {} = .ok a := by
  have hgroup {a : Automaton}
      (h : compile .byte ['^', '(', '-', '|', '[', 'a', '-', 'c', '-', ']', '|', '\\', 'n', ')', '*'] {} = .ok a) :=
    (@compile_choices .byte _ {} a
      [.literal '-', .bracket ⟨false, [⟨'a', 'c'⟩, .single '-']⟩, .literal '\n']
      (by simp [Encoding.has_byte_iff]) rfl h (by simp [Atom.IsChoice]) (by decide)).1
      [⟨.anchorStart, 0, 1⟩]
      [⟨.atom (.literal '-'), 2, 1⟩, ⟨.bar, 3, 1⟩,
        ⟨.atom (.bracket ⟨false, [⟨'a', 'c'⟩, .single '-']⟩), 4, 6⟩, ⟨.bar, 10, 1⟩,
        ⟨.atom (.literal '\n'), 11, 2⟩]
      [⟨.quantifier .star, 14, 1⟩] 1 13 rfl rfl
  have hwhole {a : Automaton} (h : compile .unicode ['a', '|', '.'] {} = .ok a) :=
    (@compile_choices .unicode _ {} a [.literal 'a', .dot] (fun c _ => Encoding.has_unicode c) rfl h
      (by simp [Atom.IsChoice]) (by decide)).2 rfl
  exact ⟨⟨_, rfl, hgroup rfl⟩, ⟨_, rfl, hwhole rfl⟩⟩

end RegexAutomaton

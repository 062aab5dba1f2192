/-
Collapsing keeps what a list of nodes means.

It puts one set in the place of an alternation whose branches are single
choices (`Collapses`). Reading the set leaves off where reading the
alternation does, because the branches add up to the set.
-/
import RegexAutomaton.Node.Collapse
import RegexAutomaton.Proofs.Denotation

namespace RegexAutomaton

/-! ## Collapsing, as a relation -/

namespace Collapse

/-- The nodes between the ends of an alternation whose branches are single
choices, with the sets of the branches. -/
inductive Choices : List Node → List CharSet → Prop
  | one {branch : Node} {set : CharSet} (h : choice? branch.kind = some set) : Choices [branch] [set]
  | more {branch separator : Node} {set : CharSet} {nodes : List Node} {sets : List CharSet}
      (h : choice? branch.kind = some set) (hbar : separator.kind = .bar) (later : Choices nodes sets) :
      Choices (branch :: separator :: nodes) (set :: sets)

theorem choices?_eq_some {nodes : List Node} {sets : List CharSet} {finish : Node}
    (h : choices? nodes = some (sets, finish)) :
    ∃ inner later, nodes = inner ++ finish :: later ∧ finish.kind = .alternationEnd ∧
      Choices inner sets := by
  fun_induction choices? nodes generalizing sets with
  | case1 branch separator rest hchoice => cases h
  | case2 branch separator rest set hchoice hkind =>
    obtain ⟨rfl, rfl⟩ := Prod.mk.inj (Option.some.inj h)
    exact ⟨[branch], rest, rfl, hkind, .one hchoice⟩
  | case3 branch separator rest set hchoice hkind ih =>
    obtain ⟨⟨sets', finish'⟩, hrest, heq⟩ := Option.map_eq_some_iff.1 h
    obtain ⟨rfl, rfl⟩ := Prod.mk.inj heq
    obtain ⟨inner, later, rfl, hfinish, hinner⟩ := ih hrest
    exact ⟨branch :: separator :: inner, later, rfl, hfinish, .more hchoice hkind hinner⟩
  | case4 branch separator rest set hchoice hend hbar => cases h
  | case5 nodes hshort => cases h

/-- Only the kinds of nodes tell what the choices are. -/
theorem choices?_map {f : Node → Node} (hf : ∀ node, (f node).kind = node.kind) (nodes : List Node) :
    choices? (nodes.map f) = (choices? nodes).map fun (sets, finish) => (sets, f finish) := by
  fun_induction choices? nodes with
  | case1 branch separator rest hchoice => simp [choices?, hf, hchoice]
  | case2 branch separator rest set hchoice hkind => simp [choices?, hf, hchoice, hkind]
  | case3 branch separator rest set hchoice hkind ih =>
    simp only [List.map_cons, choices?, hf, hchoice, hkind, ih, Option.map_map]
    rfl
  | case4 branch separator rest set hchoice hend hbar =>
    simp [choices?, hf, hchoice]
  | case5 nodes hshort =>
    rcases nodes with _ | ⟨branch, _ | ⟨separator, rest⟩⟩
    · rfl
    · rfl
    · exact absurd rfl (hshort branch separator rest)

/-- What stands between the ends of such an alternation. -/
theorem Choices.forall_mem {nodes : List Node} {sets : List CharSet} (h : Choices nodes sets) :
    ∀ node ∈ nodes, node.kind = .bar ∨ (choice? node.kind).isSome := by
  induction h with
  | one hchoice => simp [hchoice]
  | more hchoice hbar _ ih =>
    intro node hnode
    rcases List.mem_cons.1 hnode with rfl | hnode
    · exact .inr (by simp [hchoice])
    · rcases List.mem_cons.1 hnode with rfl | hnode
      · exact .inl hbar
      · exact ih node hnode

theorem Choices.ne_end {nodes : List Node} {sets : List CharSet} (h : Choices nodes sets) :
    ∀ node ∈ nodes, node.kind ≠ .alternationEnd := by
  intro node hnode hend
  rcases h.forall_mem node hnode with hbar | hchoice
  · rw [hend] at hbar
    cases hbar
  · rw [hend] at hchoice
    cases hchoice

/-- A node that is rewritten away. -/
def hollow (node : Node) : Node := { node with kind := .inert }

/-- Some of the alternations of single choices are sets on the right. -/
inductive Collapses : List Node → List Node → Prop
  | nil : Collapses [] []
  | keep (node : Node) {nodes nodes' : List Node} (h : Collapses nodes nodes') :
      Collapses (node :: nodes) (node :: nodes')
  | set {start finish : Node} {inner nodes nodes' : List Node} {sets : List CharSet} (length : Nat)
      (hstart : start.kind = .alternationStart) (hinner : Choices inner sets)
      (hfinish : finish.kind = .alternationEnd) (h : Collapses nodes nodes') :
      Collapses (start :: (inner ++ finish :: nodes))
        ({ start with kind := .collapsedStart (.union sets), length } ::
          (inner.map hollow ++ { finish with kind := .collapsedEnd } :: nodes'))

theorem rewrite_inside {inner : List Node} (finish : Node) (later : List Node)
    (hinner : ∀ node ∈ inner, node.kind ≠ .alternationEnd) (hfinish : finish.kind = .alternationEnd) :
    rewrite true (inner ++ finish :: later) =
      inner.map hollow ++ { finish with kind := .collapsedEnd } :: rewrite false later := by
  induction inner with
  | nil => simp [rewrite, hfinish]
  | cons node inner ih =>
    have hne : node.kind ≠ .alternationEnd := hinner node (by simp)
    rw [List.cons_append, rewrite, if_neg hne, ih fun node hnode => hinner node (by simp [hnode])]
    rfl

theorem collapses_rewrite (nodes : List Node) : Collapses nodes (rewrite false nodes) := by
  -- On the length, because a whole alternation is rewritten at once.
  induction hlen : nodes.length using Nat.strongRecOn generalizing nodes with
  | ind n ih =>
    subst hlen
    cases nodes with
    | nil => exact .nil
    | cons node rest =>
      rw [rewrite]
      split
      · next sets finish hkind hchoices =>
        obtain ⟨inner, later, rfl, hfinish, hinner⟩ := choices?_eq_some hchoices
        have hlater : later.length < (node :: (inner ++ finish :: later)).length := by
          simp only [List.length_cons, List.length_append]
          omega
        rw [rewrite_inside finish later hinner.ne_end hfinish]
        exact .set _ hkind hinner hfinish (ih later.length hlater later rfl)
      · exact .keep node (ih rest.length (Nat.lt_succ_self _) rest rfl)

end Collapse

/-! ## What a set means -/

theorem CharSet.contains_union {sets : List CharSet} (h : ∀ set ∈ sets, set.negated = false ∨ set = .any)
    (c : Char) : (union sets).contains c = true ↔ ∃ set ∈ sets, set.contains c = true := by
  unfold union
  by_cases hany : sets.any isAny = true
  · rw [if_pos hany]
    obtain ⟨set, hset, hisAny⟩ := List.any_eq_true.1 hany
    obtain rfl := isAny_iff.1 hisAny
    exact ⟨fun _ => ⟨.any, hset, rfl⟩, fun _ => rfl⟩
  · rw [if_neg hany, contains_ofMembers, List.any_flatMap, List.any_eq_true]
    have hplain : ∀ set ∈ sets, set.members.any (·.contains c) = set.contains c := by
      intro set hset
      rcases h set hset with hnegated | rfl
      · rw [contains, hnegated, Bool.bne_false]
      · exact absurd (List.any_eq_true.2 ⟨.any, hset, rfl⟩) hany
    constructor
    · intro hmem
      obtain ⟨set, hset, hc⟩ := hmem
      exact ⟨set, hset, hplain set hset ▸ hc⟩
    · intro hmem
      obtain ⟨set, hset, hc⟩ := hmem
      exact ⟨set, hset, (hplain set hset).symm ▸ hc⟩

namespace Collapse

variable {text : List Char}

/-- What a single choice is. -/
theorem choice?_eq_some {kind : NodeKind} {set : CharSet} (h : choice? kind = some set) :
    (∃ c, kind = .literal [c] ∧ set = ⟨false, [.single c]⟩) ∨
      (kind = .bracket set ∧ set.negated = false) ∨ (kind = .dot ∧ set = .any) := by
  cases kind with
  | literal symbols =>
    rcases symbols with _ | ⟨c, _ | ⟨c', symbols⟩⟩
    · cases h
    · exact .inl ⟨c, rfl, (Option.some.inj h).symm⟩
    · cases h
  | bracket s =>
    have h : (if s.negated then none else some s) = some set := h
    by_cases hnegated : s.negated = true
    · rw [if_pos hnegated] at h
      cases h
    · rw [if_neg hnegated] at h
      obtain rfl := Option.some.inj h
      exact .inr (.inl ⟨rfl, Bool.eq_false_iff.2 hnegated⟩)
  | dot => exact .inr (.inr ⟨rfl, (Option.some.inj h).symm⟩)
  | _ => cases h

/-- A single choice is a symbol of its set. -/
theorem step_of_choice? {kind : NodeKind} {set : CharSet} (h : choice? kind = some set) (s : Reading) :
    s.step text kind = s.push (.symbol text set) := by
  rcases choice?_eq_some h with ⟨c, rfl, rfl⟩ | ⟨rfl, -⟩ | ⟨rfl, rfl⟩
  · rw [Reading.step, Meaning.run_singleton]
  · rfl
  · rfl

theorem Choices.forall_plain {nodes : List Node} {sets : List CharSet} (h : Choices nodes sets) :
    ∀ set ∈ sets, set.negated = false ∨ set = .any := by
  have hchoice {kind : NodeKind} {set : CharSet} (h : choice? kind = some set) :
      set.negated = false ∨ set = .any := by
    rcases choice?_eq_some h with ⟨c, -, rfl⟩ | ⟨-, hnegated⟩ | ⟨-, rfl⟩
    · exact .inl rfl
    · exact .inl hnegated
    · exact .inr rfl
  induction h with
  | one h => simpa using hchoice h
  | more h hbar _ ih => simpa using ⟨hchoice h, ih⟩

/-- Single choices add up to the symbols of all their sets. -/
theorem Choices.steps {nodes : List Node} {sets : List CharSet} (h : Choices nodes sets) (E : Meaning)
    (outer : List Frame) :
    ∃ f : Frame, Reading.steps text ⟨⟨E, .empty, .empty⟩, outer⟩ (nodes.map (·.kind)) = ⟨f, outer⟩ ∧
      ∀ i j, f.whole i j ↔ E i j ∨ ∃ set ∈ sets, Meaning.symbol text set i j := by
  induction h generalizing E with
  | @one branch set hchoice =>
    refine ⟨⟨E, Meaning.empty.seq .empty, .symbol text set⟩, ?_, fun i j => ?_⟩
    · rw [List.map_singleton, Reading.steps_cons, step_of_choice? hchoice]
      rfl
    · simp [Frame.whole, Frame.branch, Meaning.alt]
  | @more branch separator set nodes sets hchoice hbar _ ih =>
    obtain ⟨f, hsteps, hwhole⟩ := ih (E.alt ((Meaning.empty.seq .empty).seq (.symbol text set)))
    refine ⟨f, ?_, fun i j => ?_⟩
    · rw [List.map_cons, List.map_cons, Reading.steps_cons, step_of_choice? hchoice,
        Reading.steps_cons, hbar]
      exact hsteps
    · rw [hwhole i j]
      simp [Meaning.alt, or_assoc]

/-- **Collapsing leaves every reading as it is.** -/
theorem Collapses.steps_eq {nodes nodes' : List Node} (h : Collapses nodes nodes') (s : Reading) :
    s.steps text (nodes'.map (·.kind)) = s.steps text (nodes.map (·.kind)) := by
  induction h generalizing s with
  | nil => rfl
  | keep node _ ih => exact ih (s.step text node.kind)
  | @set start finish inner nodes nodes' sets length hstart hinner hfinish _ ih =>
    have hhollow (s : Reading) : s.steps text ((inner.map hollow).map (·.kind)) = s := by
      clear hinner
      induction inner with
      | nil => rfl
      | cons node inner ih => exact ih
    obtain ⟨f, hsteps, hwhole⟩ :=
      @Choices.steps text inner sets hinner .never (s.body :: s.outer)
    have hset : f.whole = .symbol text (.union sets) := by
      apply Meaning.ext
      intro i j
      rw [hwhole i j]
      simp only [Meaning.never, false_or, Meaning.symbol, CharSet.contains_union hinner.forall_plain]
      constructor
      · intro hmem
        obtain ⟨set, hset, hj, c, hc, hcontains⟩ := hmem
        exact ⟨hj, c, hc, set, hset, hcontains⟩
      · intro hmem
        obtain ⟨hj, c, hc, set, hset, hcontains⟩ := hmem
        exact ⟨set, hset, hj, c, hc, hcontains⟩
    have hleft : s.steps text ((start :: (inner ++ finish :: nodes)).map (·.kind)) =
        (s.push f.whole).steps text (nodes.map (·.kind)) := by
      rw [List.map_cons, List.map_append, List.map_cons, hstart, hfinish, Reading.steps_cons,
        Reading.steps_append]
      exact congrArg (fun s => (Reading.step text s .alternationEnd).steps text _) hsteps
    rw [hleft, hset, List.map_cons, List.map_append, List.map_cons, Reading.steps_cons,
      Reading.steps_append, hhollow, Reading.steps_cons]
    exact ih (s.push (.symbol text (.union sets)))

end Collapse

end RegexAutomaton

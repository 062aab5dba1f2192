/-
Rewriting done again, or in another order.

Collapsing what is collapsed changes nothing, nor does coalescing what is
coalesced (`collapse_idem`, `coalesce_idem`). And neither gets in the way of the
other (`coalesce_collapse`): the branches of an alternation that becomes a set
have no literal beside them, so none of them is part of a longer run.
-/
import RegexAutomaton.Proofs.Coalescing
import RegexAutomaton.Proofs.Collapsing

namespace RegexAutomaton

/-! ## Quantifiers and lone literals -/

namespace Coalesce

theorem lone?_congr {rest rest' : List Node} (h : quantifierFirst rest = quantifierFirst rest') (node : Node) :
    lone? node rest = lone? node rest' := by
  rw [lone?, lone?, h]

theorem quantifierFirst_of_lone? {node : Node} {rest : List Node} {c : Char} (h : lone? node rest = some c)
    (later : List Node) : quantifierFirst (node :: later) = false := by
  obtain ⟨hkind, -⟩ := lone?_eq_some h
  simp [quantifierFirst, hkind, NodeKind.repetition?]

/-- Whether a list starts with a quantifier is not changed. -/
theorem quantifierFirst_rewrite (inside : Bool) (nodes : List Node) :
    quantifierFirst (rewrite inside nodes) = quantifierFirst nodes := by
  cases nodes with
  | nil => rfl
  | cons node rest =>
    rw [rewrite]
    cases hlone : lone? node rest with
    | none => rfl
    | some c =>
      rw [quantifierFirst_of_lone? hlone]
      cases inside <;> rfl

theorem lone?_rewrite (node : Node) (inside : Bool) (rest : List Node) :
    lone? node (rewrite inside rest) = lone? node rest :=
  lone?_congr (quantifierFirst_rewrite inside rest) node

theorem rewrite_of_not_lone {node : Node} {rest : List Node} (h : lone? node rest = none) (inside : Bool) :
    rewrite inside (node :: rest) = node :: rewrite false rest := by
  rw [rewrite, h]

/-- After a lone literal no other one is left. -/
theorem run_rewrite_true (nodes : List Node) : run (rewrite true nodes) = [] := by
  cases nodes with
  | nil => rfl
  | cons node rest =>
    cases hlone : lone? node rest with
    | none =>
      rw [rewrite_of_not_lone hlone, run, lone?_rewrite, hlone]
    | some c =>
      rw [rewrite, hlone]
      rfl

/-- A run of one literal stays what it is. -/
theorem rewrite_of_run_nil {node : Node} {rest : List Node} {c : Char} (hlone : lone? node rest = some c)
    (hrun : run rest = []) : rewrite false (node :: rest) = node :: rewrite true rest := by
  obtain ⟨hkind, -⟩ := lone?_eq_some hlone
  have hlength : node.finish - node.offset = node.length := Nat.add_sub_cancel_left ..
  simp only [rewrite, hlone, hrun, List.map_nil, List.getLast?_nil, Option.map_none, Option.getD_none, hlength,
    Bool.false_eq_true, if_false, ← hkind]

/-- **Runs that are joined already are not joined to anything.** -/
theorem rewrite_rewrite (nodes : List Node) :
    (∀ inside, rewrite false (rewrite inside nodes) = rewrite inside nodes) ∧
      rewrite true (rewrite true nodes) = rewrite true nodes := by
  induction nodes with
  | nil => exact ⟨fun _ => rfl, rfl⟩
  | cons node rest ih =>
    obtain ⟨ihFalse, ihTrue⟩ := ih
    cases hlone : lone? node rest with
    | none =>
      have hagain (inside : Bool) : lone? node (rewrite inside rest) = none := (lone?_rewrite ..).trans hlone
      simp only [rewrite_of_not_lone hlone, rewrite_of_not_lone (hagain false), ihFalse]
      exact ⟨fun _ => trivial, trivial⟩
    | some c =>
      have hinert (inside : Bool) (later : List Node) :
          rewrite inside ({ node with kind := .inert } :: later) =
            { node with kind := .inert } :: rewrite false later := rewrite_of_not_lone rfl inside
      have hinside : rewrite true (node :: rest) = { node with kind := .inert } :: rewrite true rest := by
        simp only [rewrite, hlone, if_true]
      refine ⟨fun inside => ?_, ?_⟩
      · cases inside with
        | true => rw [hinside, hinert, ihFalse]
        | false =>
          cases hrun : run rest with
          | nil =>
            have hagain : lone? node (rewrite true rest) = some c := (lone?_rewrite ..).trans hlone
            rw [rewrite_of_run_nil hlone hrun, rewrite_of_run_nil hagain (run_rewrite_true rest), ihTrue]
          | cons d later =>
            have hlong (kind : NodeKind) (hkind : kind = .literal (c :: (d :: later).map (·.1))) (length : Nat) :
                rewrite false ({ node with kind, length } :: rewrite true rest) =
                  { node with kind, length } :: rewrite true rest := by
              subst hkind
              rw [rewrite_of_not_lone rfl, ihFalse]
            simp only [rewrite, hlone, hrun, Bool.false_eq_true, if_false]
            exact hlong _ rfl _
      · rw [hinside, hinert, ihFalse]

end Coalesce

theorem coalesce_idem (nodes : List Node) : coalesce (coalesce nodes) = coalesce nodes :=
  (Coalesce.rewrite_rewrite nodes).1 false

/-! ## Alternations of single choices -/

/-- The start of an alternation of single choices, as the set of these. -/
def Node.asSet (start finish : Node) (sets : List CharSet) : Node :=
  { start with kind := .collapsedStart (.union sets), length := finish.offset - start.offset }

namespace Collapse

theorem choices?_cons_cons (branch separator : Node) (rest : List Node) :
    choices? (branch :: separator :: rest) =
      (choice? branch.kind).bind fun set =>
        if separator.kind = .alternationEnd then some ([set], separator)
        else if separator.kind = .bar then (choices? rest).map fun (sets, finish) => (set :: sets, finish)
        else none := by
  rw [choices?]
  cases choice? branch.kind with
  | none => rfl
  | some set =>
    cases hkind : separator.kind <;> simp

theorem choices?_of_choice?_eq_none {branch : Node} (h : choice? branch.kind = none) (nodes : List Node) :
    choices? (branch :: nodes) = none := by
  cases nodes with
  | nil => rfl
  | cons separator rest => rw [choices?_cons_cons, h, Option.bind_none]

/-- A node stays as it is, unless it starts an alternation of single choices. -/
theorem rewrite_kept {node : Node} {rest : List Node} (h : node.kind = .alternationStart → choices? rest = none) :
    rewrite false (node :: rest) = node :: rewrite false rest := by
  rw [rewrite]
  split
  · next hkind hchoices =>
    rw [h hkind] at hchoices
    cases hchoices
  · rfl

theorem rewrite_start {node finish : Node} {rest : List Node} {sets : List CharSet}
    (hstart : node.kind = .alternationStart) (hchoices : choices? rest = some (sets, finish)) :
    rewrite false (node :: rest) = node.asSet finish sets :: rewrite true rest := by
  rw [rewrite, hstart, hchoices]
  rfl

/-- Either a node stays as it is, or it starts an alternation and is now a set. -/
theorem rewrite_cons (node : Node) (rest : List Node) :
    (node.kind = .alternationStart → choices? rest = none) ∧
        rewrite false (node :: rest) = node :: rewrite false rest ∨
      node.kind = .alternationStart ∧ ∃ sets finish, choices? rest = some (sets, finish) ∧
        rewrite false (node :: rest) = node.asSet finish sets :: rewrite true rest := by
  cases hchoices : choices? rest with
  | none => exact .inl ⟨fun _ => rfl, rewrite_kept fun _ => hchoices⟩
  | some found =>
    by_cases hstart : node.kind = .alternationStart
    · exact .inr ⟨hstart, found.1, found.2, rfl, rewrite_start hstart hchoices⟩
    · exact .inl ⟨fun h => absurd h hstart, rewrite_kept fun h => absurd h hstart⟩

/-- An alternation inside is not in the way: neither its start nor a set may be a
branch, or stand between branches. -/
theorem choices?_rewrite : ∀ nodes, choices? (rewrite false nodes) = choices? nodes
  | [] => rfl
  | [node] => by
    rcases rewrite_cons node [] with ⟨-, h⟩ | ⟨-, sets, finish, -, h⟩ <;> rw [h] <;> rfl
  | branch :: separator :: rest => by
    have ih := choices?_rewrite rest
    rcases rewrite_cons branch (separator :: rest) with ⟨-, h⟩ | ⟨hstart, sets, finish, -, h⟩
    · rw [h]
      rcases rewrite_cons separator rest with ⟨-, h'⟩ | ⟨hstart, sets, finish, -, h'⟩
      · rw [h', choices?_cons_cons, choices?_cons_cons, ih]
      · rw [h', choices?_cons_cons, choices?_cons_cons, hstart]
        rfl
    · have hnone : choice? branch.kind = none := by rw [hstart]; rfl
      rw [h, choices?_of_choice?_eq_none hnone]
      exact choices?_of_choice?_eq_none rfl _

/-- **What is collapsed is not collapsed again.** -/
theorem rewrite_rewrite (inside : Bool) (nodes : List Node) :
    rewrite false (rewrite inside nodes) = rewrite inside nodes := by
  induction nodes generalizing inside with
  | nil => cases inside <;> rfl
  | cons node rest ih =>
    have hmade {node' : Node} (hne : node'.kind ≠ .alternationStart) (inside : Bool) :
        rewrite false (node' :: rewrite inside rest) = node' :: rewrite inside rest := by
      rw [rewrite_kept fun h => absurd h hne, ih]
    cases inside with
    | true =>
      rw [rewrite]
      split
      · exact hmade (by simp) false
      · exact hmade (by simp) true
    | false =>
      rcases rewrite_cons node rest with ⟨hnone, h⟩ | ⟨-, sets, finish, -, h⟩
      · rw [h, rewrite_kept fun hstart => (choices?_rewrite rest).trans (hnone hstart), ih]
      · rw [h]
        exact hmade (by simp [Node.asSet]) true

end Collapse

theorem collapse_idem (nodes : List Node) : collapse (collapse nodes) = collapse nodes :=
  Collapse.rewrite_rewrite false nodes

/-! ## Both -/

namespace Coalesce

theorem quantifierFirst_collapse (nodes : List Node) :
    quantifierFirst (Collapse.rewrite false nodes) = quantifierFirst nodes := by
  cases nodes with
  | nil => rfl
  | cons node rest =>
    rcases Collapse.rewrite_cons node rest with ⟨-, h⟩ | ⟨hstart, sets, finish, -, h⟩
    · rw [h]
      rfl
    · simp [h, quantifierFirst, Node.asSet, hstart, NodeKind.repetition?]

/-- A run of literals ends before any alternation. -/
theorem run_collapse (nodes : List Node) : run (Collapse.rewrite false nodes) = run nodes := by
  induction nodes with
  | nil => rfl
  | cons node rest ih =>
    rcases Collapse.rewrite_cons node rest with ⟨-, h⟩ | ⟨hstart, sets, finish, -, h⟩
    · rw [h, run, run, lone?_congr (quantifierFirst_collapse rest), ih]
    · simp [h, run, lone?, Node.asSet, hstart]

/-- A literal before something that is none is in no longer run. -/
theorem rewrite_pair {separator : Node} {rest : List Node} (h : lone? separator rest = none) (branch : Node) :
    rewrite false (branch :: separator :: rest) = branch :: separator :: rewrite false rest := by
  cases hlone : lone? branch (separator :: rest) with
  | none => rw [rewrite_of_not_lone hlone, rewrite_of_not_lone h]
  | some c =>
    have hrun : run (separator :: rest) = [] := by rw [run, h]
    rw [rewrite_of_run_nil hlone hrun, rewrite_of_not_lone h]

theorem exists_rewrite_cons (inside : Bool) (node : Node) (rest : List Node) :
    ∃ node' inside', rewrite inside (node :: rest) = node' :: rewrite inside' rest ∧
      (node'.kind = node.kind ∨ node'.kind = .inert ∨ ∃ symbols, node'.kind = .literal symbols) := by
  cases hlone : lone? node rest with
  | none => exact ⟨node, false, rewrite_of_not_lone hlone inside, .inl rfl⟩
  | some c =>
    rw [rewrite, hlone]
    cases inside with
    | true => exact ⟨_, true, rfl, .inr (.inl rfl)⟩
    | false => exact ⟨_, true, rfl, .inr (.inr ⟨_, rfl⟩)⟩

/-- What may be a branch and what may stand between branches stays so: a single choice
has no literal beside it. -/
theorem choices?_rewrite : ∀ nodes, Collapse.choices? (rewrite false nodes) = Collapse.choices? nodes
  | [] => rfl
  | [node] => by
    obtain ⟨node', inside, h, -⟩ := exists_rewrite_cons false node []
    rw [h]
    rfl
  | branch :: separator :: rest => by
    have ih := choices?_rewrite rest
    by_cases hseparates : separator.kind = .bar ∨ separator.kind = .alternationEnd
    · have hlone : lone? separator rest = none := by
        rcases hseparates with h | h <;> simp [lone?, h]
      rw [rewrite_pair hlone, Collapse.choices?_cons_cons, Collapse.choices?_cons_cons, ih]
    · obtain ⟨branch', inside, hbranch, -⟩ := exists_rewrite_cons false branch (separator :: rest)
      obtain ⟨separator', inside', hseparator, hkind⟩ := exists_rewrite_cons inside separator rest
      have hnone {branch separator : Node} (h : ¬ (separator.kind = .bar ∨ separator.kind = .alternationEnd))
          (rest : List Node) : Collapse.choices? (branch :: separator :: rest) = none := by
        obtain ⟨hbar, hend⟩ := not_or.1 h
        simp [Collapse.choices?_cons_cons, hbar, hend]
      rw [hbranch, hseparator, hnone hseparates, hnone]
      rcases hkind with h | h | ⟨symbols, h⟩
      · rwa [h]
      · simp [h]
      · simp [h]

/-- The branches of an alternation of single choices stay as they are. -/
theorem rewrite_choices {inner : List Node} {sets : List CharSet} (h : Collapse.Choices inner sets)
    {finish : Node} (hfinish : finish.kind = .alternationEnd) (later : List Node) :
    rewrite false (inner ++ finish :: later) = inner ++ finish :: rewrite false later := by
  induction h with
  | one hchoice => exact rewrite_pair (by simp [lone?, hfinish]) _
  | more hchoice hbar _ ih =>
    rw [List.cons_append, List.cons_append, rewrite_pair (by simp [lone?, hbar]), ih]
    rfl

/-- Nothing that is rewritten away is joined to a run. -/
theorem rewrite_hollow (inner later : List Node) :
    rewrite false (inner.map Collapse.hollow ++ later) = inner.map Collapse.hollow ++ rewrite false later := by
  induction inner with
  | nil => rfl
  | cons node inner ih =>
    rw [List.map_cons, List.cons_append, rewrite_of_not_lone (by rfl), ih]
    rfl

/-- **Neither rewriting gets in the way of the other.** -/
theorem rewrite_collapse (inside : Bool) (nodes : List Node) :
    rewrite inside (Collapse.rewrite false nodes) = Collapse.rewrite false (rewrite inside nodes) := by
  -- On the length, because a whole alternation is collapsed at once.
  induction hlen : nodes.length using Nat.strongRecOn generalizing inside nodes with
  | ind n ih =>
    subst hlen
    cases nodes with
    | nil => cases inside <;> rfl
    | cons node rest =>
      rcases Collapse.rewrite_cons node rest with ⟨hnone, h⟩ | ⟨hstart, sets, finish, hchoices, h⟩
      · have ihRest (inside : Bool) := ih rest.length (Nat.lt_succ_self _) inside rest rfl
        have hlone : lone? node (Collapse.rewrite false rest) = lone? node rest :=
          lone?_congr (quantifierFirst_collapse rest) node
        rw [h, rewrite, rewrite, hlone, run_collapse, ihRest, ihRest]
        cases lone? node rest with
        | none => exact (Collapse.rewrite_kept fun hstart => (choices?_rewrite rest).trans (hnone hstart)).symm
        | some c => cases inside <;> simp [Collapse.rewrite]
      · obtain ⟨inner, later, rfl, hfinish, hinner⟩ := Collapse.choices?_eq_some hchoices
        have hlater : later.length < (node :: (inner ++ finish :: later)).length := by
          simp only [List.length_cons, List.length_append]
          omega
        have hlone (rest : List Node) : lone? node rest = none := by simp [lone?, hstart]
        have hagain := Collapse.rewrite_start hstart ((choices?_rewrite _).trans hchoices)
        have hend (later : List Node) : rewrite false ({ finish with kind := .collapsedEnd } :: later) =
            { finish with kind := .collapsedEnd } :: rewrite false later := rewrite_of_not_lone rfl false
        rw [h, rewrite_of_not_lone (by rfl), rewrite_of_not_lone (hlone _), hagain,
          rewrite_choices hinner hfinish, Collapse.rewrite_inside finish _ hinner.ne_end hfinish,
          Collapse.rewrite_inside finish _ hinner.ne_end hfinish, rewrite_hollow, hend,
          ih later.length hlater false later rfl]

end Coalesce

theorem coalesce_collapse (nodes : List Node) : coalesce (collapse nodes) = collapse (coalesce nodes) :=
  Coalesce.rewrite_collapse false nodes

end RegexAutomaton

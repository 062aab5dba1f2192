/-
Patterns all of whose branches are dead.

A branch is dead if a start anchor comes directly after an atom that has to
match, or if a group in it has to match and all of its branches are dead
(`DeadBranch`). `Liveness` walks over the tokens of a syntax tree. What it
knows of the innermost body changes with each piece as the tree says
(`Liveness.walk_piece`), so the pattern is seen never to match exactly if each
of its branches is dead.
-/
import RegexAutomaton.Proofs.PhraseLiveness
import RegexAutomaton.Proofs.SyntaxTree

namespace RegexAutomaton

/-- What precedes the quantifier, if there is one, has to match. -/
def Required (q? : Option Quantifier) : Prop := ∀ q ∈ q?, 1 ≤ q.repetition.least

theorem required_none : Required none := nofun

theorem required_some {q : Quantifier} : Required (some q) ↔ q.repetition.isOptional = false := by
  simp [Required, Repetition.isOptional, Nat.one_le_iff_ne_zero]

/-- The branches that cannot match for one of two reasons. -/
inductive DeadBranch : List Piece → Prop
  /-- A start anchor comes directly after an atom that has to match. -/
  | anchor (before after : List Piece) (a : Atom) {q? : Option Quantifier} (required : Required q?) :
      DeadBranch (before ++ .atom a q? :: .anchorStart :: after)
  /-- A group has to match, and all of its branches are dead. -/
  | group (before after : List Piece) {first : List Piece} {later : List (List Piece)} {q? : Option Quantifier}
      (required : Required q?) (dead : ∀ branch ∈ first :: later, DeadBranch branch) :
      DeadBranch (before ++ .group first later q? :: after)

namespace Piece

/-- The piece is an atom that has to match. -/
def IsRequiredAtom : Piece → Prop
  | .atom _ q? => Required q?
  | _ => False

/-- The piece is a group that has to match, and all of its branches are dead. -/
def IsDeadGroup : Piece → Prop
  | .group first later q? => Required q? ∧ ∀ branch ∈ first :: later, DeadBranch branch
  | _ => False

end Piece

namespace DeadBranch

theorem not_nil : ¬ DeadBranch [] := by
  intro h
  generalize hnil : ([] : List Piece) = branch at h
  cases h with
  | anchor => simp at hnil
  | group => simp at hnil

/-- A branch is dead because of its first piece or because of what follows. -/
theorem cons_iff {piece : Piece} {rest : List Piece} :
    DeadBranch (piece :: rest) ↔
      piece.IsDeadGroup ∨ (piece.IsRequiredAtom ∧ rest.head? = some .anchorStart) ∨ DeadBranch rest := by
  constructor
  · intro h
    generalize hbranch : piece :: rest = branch at h
    cases h with
    | anchor before after a required =>
      cases before with
      | nil =>
        obtain ⟨rfl, rfl⟩ := List.cons.inj hbranch
        exact .inr (.inl ⟨required, rfl⟩)
      | cons first before =>
        obtain ⟨rfl, rfl⟩ := List.cons.inj hbranch
        exact .inr (.inr (.anchor before after a required))
    | group before after required dead =>
      cases before with
      | nil =>
        obtain ⟨rfl, rfl⟩ := List.cons.inj hbranch
        exact .inl ⟨required, dead⟩
      | cons first before =>
        obtain ⟨rfl, rfl⟩ := List.cons.inj hbranch
        exact .inr (.inr (.group before after required dead))
  · rintro (hgroup | ⟨hatom, hanchor⟩ | h)
    · cases piece with
      | group first later q? => exact .group [] rest hgroup.1 hgroup.2
      | _ => exact hgroup.elim
    · obtain ⟨after, rfl⟩ := List.head?_eq_some_iff.1 hanchor
      cases piece with
      | atom a q? => exact .anchor [] after a hatom
      | _ => exact hatom.elim
    · cases h with
      | anchor before after a required => exact .anchor (piece :: before) after a required
      | group before after required dead => exact .group (piece :: before) after required dead

end DeadBranch

namespace Liveness

/-! ## Walking over tokens -/

/-- What is known after some tokens. -/
def walk (s : Liveness) (ts : List Token) : Liveness := ts.foldl (fun s t => s.step (.token t)) s

@[simp] theorem walk_nil (s : Liveness) : s.walk [] = s := rfl

@[simp] theorem walk_cons (s : Liveness) (t : Token) (ts : List Token) :
    s.walk (t :: ts) = (s.step (.token t)).walk ts := rfl

@[simp] theorem walk_append (s : Liveness) (ts us : List Token) : s.walk (ts ++ us) = (s.walk ts).walk us :=
  List.foldl_append ..

/-- What becomes of the innermost body when some tokens make its last branch
dead or not. -/
structure Adds (s s' : Liveness) (dead : Prop) : Prop where
  outer : s'.outer = s.outer
  othersDead : s'.body.othersDead = s.body.othersDead
  lastDead : (s'.settle false).body.lastDead = true ↔ (s.settle false).body.lastDead = true ∨ dead

namespace Adds

variable {s s' s'' : Liveness} {dead dead' : Prop}

theorem refl (s : Liveness) (hdead : ¬ dead) : Adds s s dead :=
  ⟨rfl, rfl, by simp [hdead]⟩

theorem trans (h : Adds s s' dead) (h' : Adds s' s'' dead') : Adds s s'' (dead ∨ dead') where
  outer := h'.outer.trans h.outer
  othersDead := h'.othersDead.trans h.othersDead
  lastDead := by rw [h'.lastDead, h.lastDead, or_assoc]

theorem congr (h : Adds s s' dead) (hdead : dead ↔ dead') : Adds s s' dead' :=
  ⟨h.outer, h.othersDead, h.lastDead.trans (or_congr_right hdead)⟩

end Adds

/-! ## The tokens of a piece -/

/-- A bar ends the branch and starts another. -/
theorem step_bar (s : Liveness) :
    s.step (.token .bar) = ⟨(s.settle false).body.bar, s.outer, false, false, false⟩ := by
  obtain ⟨body, outer, closedDead, afterAtom, afterRequired⟩ := s
  cases closedDead <;> rfl

/-- A group starts with a body of its own. -/
theorem step_groupOpen (s : Liveness) :
    s.step (.token .groupOpen) = ⟨.fresh, (s.settle false).body :: s.outer, false, false, false⟩ := by
  obtain ⟨body, outer, closedDead, afterAtom, afterRequired⟩ := s
  cases closedDead <;> rfl

theorem step_groupClose_of_outer {s : Liveness} {b : Body} {outer : List Body} (h : s.outer = b :: outer) :
    s.step (.token .groupClose) = ⟨b, outer, (s.settle false).body.isDead, false, false⟩ := by
  have hs : s.recast id (b :: outer) = s := by rw [← h]; rfl
  rw [← hs, step_groupClose, hs]

/-- What is known after a piece. -/
structure Passes (s : Liveness) (piece : Piece) : Prop where
  adds : Adds s (s.walk piece.tokens) (piece.IsDeadGroup ∨ (piece = .anchorStart ∧ s.afterRequired = true))
  afterRequired : (s.walk piece.tokens).afterRequired = true ↔ piece.IsRequiredAtom

/-- The branch stays dead or not. -/
theorem adds_settled (s : Liveness) (afterAtom afterRequired : Bool) {dead : Prop} (hdead : ¬ dead) :
    Adds s ⟨(s.settle false).body, s.outer, false, afterAtom, afterRequired⟩ dead :=
  ⟨rfl, s.othersDead_settle false, by simp [settle, hdead]⟩

/-- The branch turns out dead. -/
theorem adds_killed (s : Liveness) (afterAtom afterRequired : Bool) {dead : Prop} (hdead : dead) :
    Adds s ⟨(s.settle false).body.kill, s.outer, false, afterAtom, afterRequired⟩ dead :=
  ⟨rfl, s.othersDead_settle false, by simp [settle, Body.kill, hdead]⟩

theorem passes_anchorStart (s : Liveness) : s.Passes .anchorStart := by
  have hstep : s.walk Piece.anchorStart.tokens =
      ⟨if s.afterRequired then (s.settle false).body.kill else (s.settle false).body, s.outer, false, false,
        false⟩ := by
    obtain ⟨body, outer, closedDead, afterAtom, afterRequired⟩ := s
    cases closedDead <;> cases afterRequired <;> rfl
  refine ⟨?_, by simp [hstep, Piece.IsRequiredAtom]⟩
  rw [hstep]
  cases hrequired : s.afterRequired with
  | false => exact s.adds_settled false false (by simp [Piece.IsDeadGroup])
  | true => exact s.adds_killed false false (.inr ⟨rfl, rfl⟩)

theorem passes_anchorEnd (s : Liveness) : s.Passes .anchorEnd := by
  have hstep : s.walk Piece.anchorEnd.tokens = ⟨(s.settle false).body, s.outer, false, false, false⟩ := by
    obtain ⟨body, outer, closedDead, afterAtom, afterRequired⟩ := s
    cases closedDead <;> rfl
  refine ⟨?_, by simp [hstep, Piece.IsRequiredAtom]⟩
  rw [hstep]
  exact s.adds_settled false false (by simp [Piece.IsDeadGroup])

theorem passes_atom (s : Liveness) (a : Atom) (q? : Option Quantifier) : s.Passes (.atom a q?) := by
  have hatom : s.step (.token (.atom a)) = ⟨(s.settle false).body, s.outer, false, true, true⟩ := by
    obtain ⟨body, outer, closedDead, afterAtom, afterRequired⟩ := s
    cases closedDead <;> rfl
  have hstep : s.walk (Piece.atom a q?).tokens =
      ⟨(s.settle false).body, s.outer, false, q?.isNone, q?.all fun q => !q.repetition.isOptional⟩ := by
    rw [Piece.tokens, walk_cons, hatom]
    cases q? <;> rfl
  refine ⟨?_, ?_⟩ <;> rw [hstep]
  · exact s.adds_settled _ _ (by simp [Piece.IsDeadGroup])
  · cases q? <;> simp [Piece.IsRequiredAtom, required_none, required_some]

/-- A quantifier right after a group can spare the branch. -/
theorem step_quantifier_closed (b : Body) (outer : List Body) (dead : Bool) (q : Quantifier) :
    step ⟨b, outer, dead, false, false⟩ (.token (.quantifier q)) =
      ⟨if dead && !q.repetition.isOptional then b.kill else b, outer, false, false, false⟩ := by
  simp only [step, spares, settle]
  by_cases hspoils : (dead && !q.repetition.isOptional) = true
  · simp [hspoils, kill]
  · simp [hspoils]

/-- A group that has just been closed makes its branch dead, if it is dead itself
and its quantifier does not spare it. -/
theorem adds_closed (s : Liveness) (dead : Bool) (q? : Option Quantifier) :
    let closed : Liveness := ⟨(s.settle false).body, s.outer, dead, false, false⟩
    Adds s (closed.walk (Token.ofQuantifier? q?)) (Required q? ∧ dead = true) ∧
      (closed.walk (Token.ofQuantifier? q?)).afterRequired = false := by
  cases q? with
  | none =>
    refine ⟨⟨rfl, s.othersDead_settle false, ?_⟩, rfl⟩
    cases dead <;> simp [Token.ofQuantifier?, settle, kill, required_none, Body.kill]
  | some q =>
    have hstep : walk ⟨(s.settle false).body, s.outer, dead, false, false⟩ (Token.ofQuantifier? (some q)) =
        ⟨if dead && !q.repetition.isOptional then (s.settle false).body.kill else (s.settle false).body,
          s.outer, false, false, false⟩ := step_quantifier_closed ..
    refine ⟨?_, by simp only [hstep]⟩
    rw [hstep, required_some]
    cases dead <;> cases q.repetition.isOptional
    · exact s.adds_settled false false (by simp)
    · exact s.adds_settled false false (by simp)
    · exact s.adds_killed false false ⟨rfl, rfl⟩
    · exact s.adds_settled false false (by simp)

/-- Another branch is dead or not by itself. -/
theorem isDead_later {s s' : Liveness} {dead : Prop} (h : Adds (s.step (.token .bar)) s' dead) :
    s'.outer = s.outer ∧
      ((s'.settle false).body.isDead = true ↔ (s.settle false).body.isDead = true ∧ dead) := by
  obtain ⟨houter, hothers, hlast⟩ := h
  rw [step_bar] at houter hothers hlast
  refine ⟨houter, ?_⟩
  rw [Body.isDead, othersDead_settle, hothers, Bool.and_eq_true, hlast]
  simp [settle, Body.bar, Body.isDead]

/-! ## The tokens of a body -/

/-- What is known after a branch. -/
def PassesBranch (s : Liveness) (branch : List Piece) : Prop :=
  Adds s (s.walk (Piece.branchTokens branch))
    (DeadBranch branch ∨ (branch.head? = some .anchorStart ∧ s.afterRequired = true))

/-- What is known after more branches of a body. -/
structure PassesLater (s : Liveness) (later : List (List Piece)) : Prop where
  outer : (s.walk (Piece.laterTokens later)).outer = s.outer
  isDead : ((s.walk (Piece.laterTokens later)).settle false).body.isDead = true ↔
    (s.settle false).body.isDead = true ∧ ∀ branch ∈ later, DeadBranch branch

section

variable {first : List Piece} {later : List (List Piece)}

/-- A body that nothing was known of is dead if all of its branches are. -/
theorem isDead_body (hfirst : ∀ s : Liveness, s.PassesBranch first) (hlater : ∀ s : Liveness, s.PassesLater later)
    (outer : List Body) :
    let s := walk ⟨.fresh, outer, false, false, false⟩ (Piece.branchTokens first ++ Piece.laterTokens later)
    s.outer = outer ∧
      ((s.settle false).body.isDead = true ↔ ∀ branch ∈ first :: later, DeadBranch branch) := by
  obtain ⟨houter, hothers, hlast⟩ := hfirst ⟨.fresh, outer, false, false, false⟩
  have hrest := hlater (walk ⟨.fresh, outer, false, false, false⟩ (Piece.branchTokens first))
  rw [walk_append]
  refine ⟨hrest.outer.trans houter, ?_⟩
  rw [hrest.isDead, Body.isDead, othersDead_settle, hothers, Bool.and_eq_true, hlast, List.forall_mem_cons]
  simp [settle, Body.fresh]

theorem passes_group (s : Liveness) (hfirst : ∀ s : Liveness, s.PassesBranch first)
    (hlater : ∀ s : Liveness, s.PassesLater later) (q? : Option Quantifier) : s.Passes (.group first later q?) := by
  obtain ⟨houter, hdead⟩ := isDead_body hfirst hlater ((s.settle false).body :: s.outer)
  have hclosed := s.adds_closed
    ((walk ⟨.fresh, (s.settle false).body :: s.outer, false, false, false⟩
      (Piece.branchTokens first ++ Piece.laterTokens later)).settle false).body.isDead q?
  rw [hdead, ← step_groupClose_of_outer houter, ← step_groupOpen] at hclosed
  have htokens : (Piece.group first later q?).tokens =
      .groupOpen :: ((Piece.branchTokens first ++ Piece.laterTokens later) ++
        .groupClose :: Token.ofQuantifier? q?) := by rw [Piece.tokens, List.append_assoc]
  constructor
  · rw [htokens, walk_cons, walk_append, walk_cons]
    exact hclosed.1.congr (by simp [Piece.IsDeadGroup])
  · rw [htokens, walk_cons, walk_append, walk_cons, hclosed.2]
    simp [Piece.IsRequiredAtom]

end

mutual

/-- **What is known after a piece.** -/
theorem walk_piece (s : Liveness) : (piece : Piece) → s.Passes piece
  | .anchorStart => s.passes_anchorStart
  | .anchorEnd => s.passes_anchorEnd
  | .atom a q? => s.passes_atom a q?
  | .group first later q? => s.passes_group (fun s => walk_branch s first) (fun s => walk_later s later) q?

/-- **What is known after a branch.** -/
theorem walk_branch (s : Liveness) : (branch : List Piece) → s.PassesBranch branch
  | [] => .refl s (by simp [DeadBranch.not_nil])
  | piece :: rest => by
    have hpiece := walk_piece s piece
    have hrest := walk_branch (s.walk piece.tokens) rest
    rw [PassesBranch, Piece.branchTokens, walk_append]
    refine (hpiece.adds.trans hrest).congr ?_
    rw [hpiece.afterRequired, DeadBranch.cons_iff, List.head?_cons, Option.some_inj]
    tauto

/-- **What is known after more branches.** -/
theorem walk_later (s : Liveness) : (later : List (List Piece)) → s.PassesLater later
  | [] => ⟨rfl, by simp [Piece.laterTokens]⟩
  | branch :: rest => by
    obtain ⟨houter, hdead⟩ := isDead_later (walk_branch (s.step (.token .bar)) branch)
    have hrest := walk_later ((s.step (.token .bar)).walk (Piece.branchTokens branch)) rest
    refine ⟨?_, ?_⟩ <;> rw [Piece.laterTokens, walk_cons, walk_append]
    · exact hrest.outer.trans houter
    · rw [hrest.isDead, hdead, List.forall_mem_cons]
      simp [step_bar, and_assoc]

end

end Liveness

/-! ## Whole patterns -/

/-- A phrase is dead if all branches of the tree of its tokens are. -/
theorem Phrase.dead_iff {p : Phrase} {tree : SyntaxTree} (h : tree.tokens = p.values) :
    p.dead = true ↔ ∀ branch ∈ tree.branches, DeadBranch branch := by
  obtain ⟨houter, hdead⟩ :=
    Liveness.isDead_body (fun s => s.walk_branch tree.first) (fun s => s.walk_later tree.later) []
  have hwalk : Liveness.neverMatches (p.tokens.map (·.map .token)) =
      ((Liveness.fresh.walk tree.tokens).settle false).outermost.isDead := by
    rw [h, Liveness.neverMatches, Phrase.values, Liveness.walk, List.foldl_map, List.foldl_map]
    rfl
  have hinnermost : ((Liveness.fresh.walk tree.tokens).settle false).outer = [] := by
    rw [Liveness.outer_settle]
    exact houter
  rw [← Liveness.neverMatches_tokens, hwalk, Liveness.outermost, hinnermost]
  exact hdead

variable {encoding : Encoding} {pattern : List Char} {options : Options} {list : NodeList}

/-- **A pattern is seen never to match exactly if all of its branches are dead.** -/
theorem neverMatches_iff_deadBranch (h : NodeList.parse encoding pattern options = .ok list) :
    (∃! tree : SyntaxTree, Token.Splits encoding 0 pattern tree.tokens) ∧
      ∀ tree : SyntaxTree, Token.Splits encoding 0 pattern tree.tokens →
        (list.neverMatches = true ↔ ∀ branch ∈ tree.branches, DeadBranch branch) := by
  obtain ⟨p, hp, hchain, rfl⟩ := NodeList.parse_eq_ok_iff.1 h
  have hvalues {ts : List Token} (hts : Token.Splits encoding 0 pattern ts) : ts = p.values := by
    obtain ⟨pieces, hpieces, rfl⟩ := Token.splits_iff_reads.1 hts
    have hscan := (tokens_of_reads hpieces).symm.trans (tokens_of_reads hp)
    have heq : pieces = p.tokens := congrArg Scan.pieces hscan
    rw [heq]
    rfl
  constructor
  · obtain ⟨tree, htree⟩ := SyntaxTree.exists_of_check hchain
    refine ⟨tree, Token.splits_iff_reads.2 ⟨p.tokens, hp, htree.symm⟩, fun other hother => ?_⟩
    exact SyntaxTree.tokens_injective ((hvalues hother).trans htree.symm)
  · intro tree htree
    rw [← Phrase.dead_iff (hvalues htree), ← Liveness.neverMatches_body p 0 pattern.length]
    rfl

theorem neverMatches_iff_deadBranch_nested :
    ∃ list, NodeList.parse .unicode
        ['(', 'a', '+', '^', '|', '(', 'b', '^', ')', 'x', ')', '|', 'c', '{', '2', '}', '^'] {} = .ok list ∧
      list.neverMatches = true ∧
      ∃ tree : SyntaxTree, Token.Splits .unicode 0
          ['(', 'a', '+', '^', '|', '(', 'b', '^', ')', 'x', ')', '|', 'c', '{', '2', '}', '^'] tree.tokens ∧
        ∀ branch ∈ tree.branches, DeadBranch branch := by
  refine ⟨_, rfl, rfl, ?_⟩
  obtain ⟨⟨tree, htree, -⟩, hiff⟩ := @neverMatches_iff_deadBranch .unicode
    ['(', 'a', '+', '^', '|', '(', 'b', '^', ')', 'x', ')', '|', 'c', '{', '2', '}', '^'] {} _ rfl
  exact ⟨tree, htree, (hiff tree htree).1 rfl⟩

end RegexAutomaton

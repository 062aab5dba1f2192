/-
Syntax trees of patterns.

A branch is a list of pieces: anchors, atoms and groups, the latter two with
the quantifier that follows them, if there is one. A group holds branches of
its own, one at least. `SyntaxTree.tokens` lists the tokens of a tree again,
any tokens that the grammar derives as a pattern are those of a tree
(`Derives.hasTree`), and of no other (`SyntaxTree.tokens_injective`).
-/
import RegexAutomaton.Proofs.Derivation

namespace RegexAutomaton

/-- What a branch is made of. -/
inductive Piece where
  | anchorStart
  | anchorEnd
  | atom (a : Atom) (q? : Option Quantifier)
  /-- A group with its branches, of which there is a first. -/
  | group (first : List Piece) (later : List (List Piece)) (q? : Option Quantifier)

/-- A pattern as its branches. The pattern without symbols has one, without
pieces. -/
structure SyntaxTree where
  first : List Piece
  later : List (List Piece)

/-- The token of a quantifier, if there is one. -/
def Token.ofQuantifier? (q? : Option Quantifier) : List Token := q?.toList.map .quantifier

mutual

/-- The tokens of a piece. -/
def Piece.tokens : Piece → List Token
  | .anchorStart => [.anchorStart]
  | .anchorEnd => [.anchorEnd]
  | .atom a q? => .atom a :: Token.ofQuantifier? q?
  | .group first later q? =>
    .groupOpen :: (Piece.branchTokens first ++ (Piece.laterTokens later ++ .groupClose :: Token.ofQuantifier? q?))

/-- The tokens of a branch. -/
def Piece.branchTokens : List Piece → List Token
  | [] => []
  | piece :: rest => piece.tokens ++ Piece.branchTokens rest

/-- The tokens of the branches after the first one, each with its bar. -/
def Piece.laterTokens : List (List Piece) → List Token
  | [] => []
  | branch :: rest => .bar :: (Piece.branchTokens branch ++ Piece.laterTokens rest)

end

namespace SyntaxTree

/-- The branches of a pattern, from left to right. -/
def branches (tree : SyntaxTree) : List (List Piece) := tree.first :: tree.later

/-- The tokens of a pattern. -/
def tokens (tree : SyntaxTree) : List Token := Piece.branchTokens tree.first ++ Piece.laterTokens tree.later

end SyntaxTree

namespace Piece

/-- Tokens of pieces in a row are those of a branch. -/
theorem exists_branch {parts : List (List Token)} (h : ∀ ts ∈ parts, ∃ piece : Piece, piece.tokens = ts) :
    ∃ branch, branchTokens branch = parts.flatten := by
  induction parts with
  | nil => exact ⟨[], rfl⟩
  | cons ts parts ih =>
    obtain ⟨piece, hpiece⟩ := h ts (by simp)
    obtain ⟨branch, hbranch⟩ := ih fun us hus => h us (by simp [hus])
    exact ⟨piece :: branch, by rw [branchTokens, hpiece, hbranch, List.flatten_cons]⟩

end Piece

namespace Derives

/-- What there is a tree of, for each category. -/
def HasTree : Category → List Token → Prop
  | .pattern, ts | .alternation, ts => ∃ tree : SyntaxTree, tree.tokens = ts
  | .branch, ts => ∃ branch, Piece.branchTokens branch = ts
  | .piece, ts => ∃ piece : Piece, piece.tokens = ts
  | .unit, ts => ∀ q?, ∃ piece : Piece, piece.tokens = ts ++ Token.ofQuantifier? q?

/-- **What the grammar derives has a tree.** -/
theorem hasTree {category : Category} {ts : List Token} (h : Derives category ts) : HasTree category ts := by
  induction h with
  | empty => exact ⟨⟨[], []⟩, rfl⟩
  | whole _ ih => exact ih
  | last _ ih =>
    obtain ⟨branch, rfl⟩ := ih
    exact ⟨⟨branch, []⟩, List.append_nil _⟩
  | bar _ _ ih ih' =>
    obtain ⟨branch, rfl⟩ := ih
    obtain ⟨tree, rfl⟩ := ih'
    exact ⟨⟨branch, tree.branches⟩, rfl⟩
  | pieces _ _ _ ih => exact Piece.exists_branch ih
  | anchorStart => exact ⟨.anchorStart, rfl⟩
  | anchorEnd => exact ⟨.anchorEnd, rfl⟩
  | once _ ih =>
    obtain ⟨piece, hpiece⟩ := ih none
    exact ⟨piece, hpiece.trans (List.append_nil _)⟩
  | repeated _ q ih => exact ih (some q)
  | atom a => exact fun q? => ⟨.atom a q?, rfl⟩
  | group _ ih =>
    intro q?
    obtain ⟨tree, rfl⟩ := ih
    refine ⟨.group tree.first tree.later q?, ?_⟩
    simp [Piece.tokens, SyntaxTree.tokens]

end Derives

/-- The tokens of a pattern that passes the check are those of a tree. -/
theorem SyntaxTree.exists_of_check {p : Phrase}
    (h : List.IsChain Role.Admits (.start :: (p.roles ++ [.finish]))) :
    ∃ tree : SyntaxTree, tree.tokens = p.values :=
  (derives_of_check h).hasTree

/-! ## Tokens have one tree -/

namespace Piece

/-- A piece is over: what comes next is not its quantifier. -/
def Ends (later : List Token) : Prop := ∀ q, later.head? ≠ some (.quantifier q)

/-- A branch is over: what comes next is a bar or the end of the group, or there
is nothing left. -/
def EndsBranch (later : List Token) : Prop :=
  later = [] ∨ ∃ rest, later = .bar :: rest ∨ later = .groupClose :: rest

/-- A body is over. -/
def EndsBody (later : List Token) : Prop := later = [] ∨ ∃ rest, later = .groupClose :: rest

theorem EndsBody.endsBranch {later : List Token} (h : EndsBody later) : EndsBranch later := by
  rcases h with rfl | ⟨rest, rfl⟩
  · exact .inl rfl
  · exact .inr ⟨rest, .inr rfl⟩

theorem EndsBranch.ends {later : List Token} (h : EndsBranch later) : Ends later := by
  rcases h with rfl | ⟨rest, rfl | rfl⟩ <;> exact nofun

theorem ofQuantifier?_append_inj {q? q?' : Option Quantifier} {later later' : List Token} (hlater : Ends later)
    (hlater' : Ends later') (h : Token.ofQuantifier? q? ++ later = Token.ofQuantifier? q?' ++ later') :
    q? = q?' ∧ later = later' := by
  cases q? with
  | none =>
    cases q?' with
    | none => exact ⟨rfl, h⟩
    | some q => exact absurd (congrArg List.head? h) (hlater q)
  | some q =>
    cases q?' with
    | none => exact absurd (congrArg List.head? h).symm (hlater' q)
    | some q' =>
      obtain ⟨hq, hrest⟩ := List.cons.inj h
      obtain rfl := Token.quantifier.inj hq
      exact ⟨rfl, hrest⟩

/-- Pieces are not over before they start. -/
theorem not_endsBranch_cons (piece : Piece) (rest : List Piece) (later : List Token) :
    ¬ EndsBranch (branchTokens (piece :: rest) ++ later) := by
  rintro (hnil | ⟨others, hbar | hclose⟩) <;> cases piece <;> simp_all [branchTokens, tokens]

theorem ends_branchTokens {later : List Token} (hlater : EndsBranch later) (branch : List Piece) :
    Ends (branchTokens branch ++ later) := by
  cases branch with
  | nil => exact hlater.ends
  | cons piece rest => cases piece <;> exact nofun

theorem endsBranch_laterTokens {after : List Token} (hafter : EndsBody after) (later : List (List Piece)) :
    EndsBranch (laterTokens later ++ after) := by
  cases later with
  | nil => exact hafter.endsBranch
  | cons branch rest => exact .inr ⟨_, .inl rfl⟩

mutual

/-- A piece is known from its tokens, whatever follows them. -/
theorem tokens_append_inj {after after' : List Token} (hafter : Ends after) (hafter' : Ends after') :
    (piece piece' : Piece) → piece.tokens ++ after = piece'.tokens ++ after' → piece = piece' ∧ after = after'
  | .anchorStart, piece', h => by cases piece' <;> simp_all [tokens]
  | .anchorEnd, piece', h => by cases piece' <;> simp_all [tokens]
  | .atom a q?, piece', h => by
    cases piece' with
    | atom a' q?' =>
      obtain ⟨ha, hq⟩ := List.cons.inj h
      obtain ⟨rfl, rfl⟩ := ofQuantifier?_append_inj hafter hafter' hq
      obtain rfl := Token.atom.inj ha
      exact ⟨rfl, rfl⟩
    | _ => simp [tokens] at h
  | .group first later q?, piece', h => by
    cases piece' with
    | group first' later' q?' =>
      simp only [tokens, List.cons_append, List.append_assoc, List.cons.injEq, true_and] at h
      have hclose (q? : Option Quantifier) (after : List Token) :
          EndsBody (.groupClose :: (Token.ofQuantifier? q? ++ after)) := .inr ⟨_, rfl⟩
      obtain ⟨rfl, hlater⟩ := branchTokens_append_inj (endsBranch_laterTokens (hclose _ _) _)
        (endsBranch_laterTokens (hclose _ _) _) first first' h
      obtain ⟨rfl, hq⟩ := laterTokens_append_inj (hclose _ _) (hclose _ _) later later' hlater
      obtain ⟨rfl, rfl⟩ := ofQuantifier?_append_inj hafter hafter' (List.cons.inj hq).2
      exact ⟨rfl, rfl⟩
    | _ => simp [tokens] at h

theorem branchTokens_append_inj {after after' : List Token} (hafter : EndsBranch after)
    (hafter' : EndsBranch after') :
    (branch branch' : List Piece) → branchTokens branch ++ after = branchTokens branch' ++ after' →
      branch = branch' ∧ after = after'
  | [], [], h => ⟨rfl, h⟩
  | [], piece :: rest, h => absurd (h ▸ hafter) (not_endsBranch_cons piece rest after')
  | piece :: rest, [], h => absurd (h ▸ hafter') (not_endsBranch_cons piece rest after)
  | piece :: rest, piece' :: rest', h => by
    rw [branchTokens, branchTokens, List.append_assoc, List.append_assoc] at h
    obtain ⟨rfl, hrest⟩ :=
      tokens_append_inj (ends_branchTokens hafter _) (ends_branchTokens hafter' _) piece piece' h
    obtain ⟨rfl, rfl⟩ := branchTokens_append_inj hafter hafter' rest rest' hrest
    exact ⟨rfl, rfl⟩

theorem laterTokens_append_inj {after after' : List Token} (hafter : EndsBody after) (hafter' : EndsBody after') :
    (later later' : List (List Piece)) → laterTokens later ++ after = laterTokens later' ++ after' →
      later = later' ∧ after = after'
  | [], [], h => ⟨rfl, h⟩
  | [], branch :: rest, h => by
    subst h
    rcases hafter with hnil | ⟨others, hclose⟩
    · cases hnil
    · cases hclose
  | branch :: rest, [], h => by
    subst h
    rcases hafter' with hnil | ⟨others, hclose⟩
    · cases hnil
    · cases hclose
  | branch :: rest, branch' :: rest', h => by
    simp only [laterTokens, List.cons_append, List.append_assoc, List.cons.injEq, true_and] at h
    obtain ⟨rfl, hrest⟩ := branchTokens_append_inj (endsBranch_laterTokens hafter _)
      (endsBranch_laterTokens hafter' _) branch branch' h
    obtain ⟨rfl, rfl⟩ := laterTokens_append_inj hafter hafter' rest rest' hrest
    exact ⟨rfl, rfl⟩

end

end Piece

/-- **Tokens are those of one tree at most.** -/
theorem SyntaxTree.tokens_injective : Function.Injective SyntaxTree.tokens := by
  rintro ⟨first, later⟩ ⟨first', later'⟩ h
  have htokens : Piece.branchTokens first ++ (Piece.laterTokens later ++ []) =
      Piece.branchTokens first' ++ (Piece.laterTokens later' ++ []) := by simpa [SyntaxTree.tokens] using h
  obtain ⟨rfl, hlater⟩ := Piece.branchTokens_append_inj (Piece.endsBranch_laterTokens (.inl rfl) _)
    (Piece.endsBranch_laterTokens (.inl rfl) _) first first' htokens
  obtain ⟨rfl, -⟩ := Piece.laterTokens_append_inj (.inl rfl) (.inl rfl) later later' hlater
  rfl

end RegexAutomaton

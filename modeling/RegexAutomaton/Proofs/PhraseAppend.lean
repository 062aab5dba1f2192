/-
One pattern after another.

The tokens of two patterns written one after the other are those of the first
and then those of the second (`Phrase.reads_append`), so the pattern has the
phrase of the first with that of the second at its end, and its outline is put
together in the same way (`Phrase.outline_append`).
-/
import RegexAutomaton.Proofs.Locality
import RegexAutomaton.Proofs.Outline

namespace RegexAutomaton

@[simp] theorem Spanned.shift_zero {α : Type} (s : Spanned α) : s.shift 0 = s := rfl

/-! ## Outlines -/

namespace Outline

/-- An outline with another one at its end. -/
def append : Outline → Outline → Outline
  | nil, o => o
  | leaf kind isLeaf rest, o => leaf kind isLeaf (rest.append o)
  | bar rest, o => bar (rest.append o)
  | group inner rest, o => group inner (rest.append o)

theorem barred_append (o o' : Outline) : (o.append o').barred = (o.barred || o'.barred) := by
  induction o with
  | nil => rfl
  | leaf kind hleaf rest ih => exact ih
  | bar rest ih => rfl
  | group inner rest _ ih => exact ih

end Outline

/-! ## Phrases -/

theorem Token.isLeaf_bar : bar.IsLeaf := ⟨nofun, nofun⟩

theorem Token.isLeaf_atom (a : Atom) : (atom a).IsLeaf := ⟨nofun, nofun⟩

namespace Phrase

/-- A phrase with another one at its end. -/
def append : Phrase → Phrase → Phrase
  | nil, q => q
  | leaf t isLeaf rest, q => leaf t isLeaf (rest.append q)
  | group opening inner closing rest, q => group opening inner closing (rest.append q)

/-- The same phrase further right. -/
def shift (k : Nat) : Phrase → Phrase
  | nil => nil
  | leaf t isLeaf rest => leaf (t.shift k) isLeaf (rest.shift k)
  | group opening inner closing rest => group (opening + k) (inner.shift k) (closing + k) (rest.shift k)

/-- A phrase after a bar. -/
def branch (q : Phrase) : Phrase := leaf ⟨.bar, 0, 1⟩ Token.isLeaf_bar (q.shift 1)

variable {p q : Phrase} {encoding : Encoding} {pattern pattern' : List Char}

@[simp] theorem tokens_append (p q : Phrase) : (p.append q).tokens = p.tokens ++ q.tokens := by
  induction p with
  | nil => rfl
  | leaf t hleaf rest ih => simp [append, tokens, ih]
  | group o inner z rest _ ih => simp [append, tokens, ih]

@[simp] theorem tokens_shift (k : Nat) (p : Phrase) : (p.shift k).tokens = p.tokens.map (·.shift k) := by
  induction p with
  | nil => rfl
  | leaf t hleaf rest ih => simp [shift, tokens, ih]
  | group o inner z rest ihInner ihRest =>
    simp only [shift, tokens, ihInner, ihRest, List.map_cons, List.map_append]
    rfl

@[simp] theorem values_append (p q : Phrase) : (p.append q).values = p.values ++ q.values := by simp [values]

@[simp] theorem values_shift (k : Nat) (p : Phrase) : (p.shift k).values = p.values := by
  simp [values, Function.comp_def]

@[simp] theorem values_branch (q : Phrase) : q.branch.values = .bar :: q.values := by simp [branch]

theorem roles_append (p q : Phrase) : (p.append q).roles = p.roles ++ q.roles := by simp [roles]

theorem roles_shift (k : Nat) (p : Phrase) : (p.shift k).roles = p.roles := by simp [roles]

theorem roles_branch (q : Phrase) : q.branch.roles = .bar :: q.roles := by simp [roles, Token.role, Item.role]

theorem outline_append (p q : Phrase) : (p.append q).outline = p.outline.append q.outline := by
  induction p with
  | nil => rfl
  | leaf t hleaf rest ih =>
    by_cases hbar : t.value = .bar
    · simp [append, outline, hbar, ih, Outline.append]
    · simp [append, outline, hbar, ih, Outline.append]
  | group o inner z rest _ ih => simp [append, outline, ih, Outline.append]

theorem outline_shift (k : Nat) (p : Phrase) : (p.shift k).outline = p.outline := by
  induction p with
  | nil => rfl
  | leaf t hleaf rest ih => simp [shift, outline, ih]
  | group o inner z rest ihInner ihRest => simp [shift, outline, ihInner, ihRest]

theorem outline_branch (q : Phrase) : q.branch.outline = .bar q.outline := by simp [branch, outline, outline_shift]

/-- **A pattern after another adds its phrase to that of the other.** -/
theorem reads_append (hp : (Token.read encoding).Reads 0 pattern p.tokens)
    (hq : (Token.read encoding).Reads 0 pattern' q.tokens) :
    (Token.read encoding).Reads 0 (pattern ++ pattern') (p.append (q.shift pattern.length)).tokens := by
  have hright := Token.reads_append hq pattern.length (.nil _)
  rw [List.append_nil, List.append_nil, Nat.zero_add] at hright
  have hboth := Token.reads_append hp 0 (by rwa [Nat.add_zero, Nat.zero_add])
  simpa using hboth

theorem reads_branch (hq : (Token.read encoding).Reads 0 pattern q.tokens) :
    (Token.read encoding).Reads 0 ('|' :: pattern) q.branch.tokens := by
  have htail := Token.reads_append hq 1 (.nil _)
  rw [List.append_nil, List.append_nil] at htail
  have hbar : Token.read encoding 0 '|' pattern = .ok (.bar, 1) := Token.read_eq_ok_iff.2 (.bar rfl)
  show (Token.read encoding).Reads 0 ('|' :: pattern) (⟨.bar, 0, 1⟩ :: (q.shift 1).tokens)
  rw [tokens_shift]
  exact .cons hbar htail

end Phrase

end RegexAutomaton

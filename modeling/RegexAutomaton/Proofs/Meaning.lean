/-
What the parts of a pattern mean in a text.

A `Meaning` relates the place where a match starts to the place where it ends.
Meanings are put together one after the other, as choices, and by repetition.
-/
import Mathlib.Logic.Basic
import RegexAutomaton.Repetition
import RegexAutomaton.CharSet

namespace RegexAutomaton

/-- Where the matches of a part of a pattern start and end. -/
def Meaning : Type := Nat → Nat → Prop

namespace Meaning

/-- Matches nothing. -/
def never : Meaning := fun _ _ => False

/-- Matches the empty text, anywhere. -/
def empty : Meaning := fun i j => i = j

/-- One after the other. -/
def seq (A B : Meaning) : Meaning := fun i j => ∃ k, A i k ∧ B k j

/-- Either of two. -/
def alt (A B : Meaning) : Meaning := fun i j => A i j ∨ B i j

/-- A number of times, one after the other. -/
def power (A : Meaning) : Nat → Meaning
  | 0 => empty
  | n + 1 => (power A n).seq A

/-- As many times as a repetition allows. -/
def repeated (A : Meaning) (r : Repetition) : Meaning := fun i j =>
  ∃ n, r.least ≤ n ∧ (∀ most, r.most = some most → n ≤ most) ∧ A.power n i j

/-- Only at the start of the text. -/
def atStart : Meaning := fun i j => i = j ∧ i = 0

/-- Only at the end of a text. -/
def atEnd (text : List Char) : Meaning := fun i j => i = j ∧ i = text.length

/-- One symbol of a set. -/
def symbol (text : List Char) (set : CharSet) : Meaning := fun i j =>
  j = i + 1 ∧ ∃ c, text[i]? = some c ∧ set.contains c = true

/-- The given symbols, in order. -/
def run (text : List Char) : List Char → Meaning
  | [] => empty
  | c :: later => fun i j => text[i]? = some c ∧ run text later (i + 1) j

variable {A B C : Meaning}

theorem ext (h : ∀ i j, A i j ↔ B i j) : A = B := funext fun i => funext fun j => propext (h i j)

/-! ## Putting meanings together -/

theorem seq_assoc (A B C : Meaning) : (A.seq B).seq C = A.seq (B.seq C) := by
  apply ext
  intro i j
  constructor
  · intro hmatch
    obtain ⟨l, ⟨k, hA, hB⟩, hC⟩ := hmatch
    exact ⟨k, hA, l, hB, hC⟩
  · intro hmatch
    obtain ⟨k, hA, l, hB, hC⟩ := hmatch
    exact ⟨l, ⟨k, hA, hB⟩, hC⟩

@[simp] theorem empty_seq (A : Meaning) : empty.seq A = A := by
  apply ext
  intro i j
  exact ⟨fun ⟨k, hk, hA⟩ => hk ▸ hA, fun hA => ⟨i, rfl, hA⟩⟩

@[simp] theorem seq_empty (A : Meaning) : A.seq empty = A := by
  apply ext
  intro i j
  exact ⟨fun ⟨k, hA, hk⟩ => hk ▸ hA, fun hA => ⟨j, hA, rfl⟩⟩

@[simp] theorem never_alt (A : Meaning) : never.alt A = A := by
  apply ext
  intro i j
  exact ⟨fun h => h.resolve_left id, .inr⟩

theorem alt_assoc (A B C : Meaning) : (A.alt B).alt C = A.alt (B.alt C) := by
  apply ext
  intro i j
  exact or_assoc

@[simp] theorem never_seq (A : Meaning) : never.seq A = never := by
  apply ext
  intro i j
  exact ⟨fun ⟨k, hk, _⟩ => hk, nofun⟩

@[simp] theorem seq_never (A : Meaning) : A.seq never = never := by
  apply ext
  intro i j
  exact ⟨fun ⟨k, _, hk⟩ => hk, nofun⟩

/-- Symbols in order are the first of them and then the others. -/
theorem run_cons (text : List Char) (c : Char) (later : List Char) :
    run text (c :: later) = (run text [c]).seq (run text later) := by
  apply ext
  intro i j
  constructor
  · intro hmatch
    obtain ⟨hc, hlater⟩ := hmatch
    exact ⟨i + 1, ⟨hc, rfl⟩, hlater⟩
  · intro hmatch
    obtain ⟨k, ⟨hc, rfl⟩, hlater⟩ := hmatch
    exact ⟨hc, hlater⟩

theorem run_singleton (text : List Char) (c : Char) :
    run text [c] = symbol text ⟨false, [.single c]⟩ := by
  apply ext
  intro i j
  simp only [run, empty, symbol, CharSet.contains, List.any_cons, List.any_nil, Bool.or_false,
    CharRange.contains_single, bne_iff_ne, ne_eq, beq_eq_false_iff_ne, not_not]
  constructor
  · intro hmatch
    obtain ⟨hc, rfl⟩ := hmatch
    exact ⟨rfl, c, hc, rfl⟩
  · intro hmatch
    obtain ⟨rfl, c', hc, rfl⟩ := hmatch
    exact ⟨hc, rfl⟩

/-! ## Matching only forward -/

/-- Every match has a symbol in it. -/
def Consumes (A : Meaning) : Prop := ∀ i j, A i j → i < j

theorem consumes_symbol (text : List Char) (set : CharSet) : (symbol text set).Consumes := by
  intro i j hmatch
  obtain ⟨rfl, -⟩ := hmatch
  exact Nat.lt_succ_self i

theorem Consumes.power (h : A.Consumes) (n : Nat) : (A.power (n + 1)).Consumes := by
  induction n with
  | zero =>
    intro i j hmatch
    obtain ⟨k, rfl, hA⟩ := hmatch
    exact h _ _ hA
  | succ n ih =>
    intro i j hmatch
    obtain ⟨k, hpower, hA⟩ := hmatch
    exact Nat.lt_trans (ih _ _ hpower) (h _ _ hA)

theorem Consumes.repeated (h : A.Consumes) {r : Repetition} (hr : r.isOptional = false) :
    (A.repeated r).Consumes := by
  intro i j hmatch
  obtain ⟨n, hleast, -, hpower⟩ := hmatch
  have hne : r.least ≠ 0 := by simpa [Repetition.isOptional] using hr
  obtain ⟨m, rfl⟩ := Nat.exists_eq_succ_of_ne_zero (Nat.ne_of_gt (by omega : 0 < n))
  exact h.power m i j hpower

/-- The start of the text does not come after a symbol. -/
theorem Consumes.seq_atStart (h : A.Consumes) : A.seq atStart = never := by
  apply ext
  intro i j
  constructor
  · intro hmatch
    obtain ⟨k, hA, rfl, rfl⟩ := hmatch
    exact Nat.not_lt_zero _ (h _ _ hA)
  · exact nofun

/-- What never matches does not match any number of times but none. -/
theorem never_repeated {r : Repetition} (hr : r.isOptional = false) : never.repeated r = never := by
  apply ext
  intro i j
  constructor
  · intro hmatch
    obtain ⟨n, hleast, -, hpower⟩ := hmatch
    have hne : r.least ≠ 0 := by simpa [Repetition.isOptional] using hr
    obtain ⟨m, rfl⟩ := Nat.exists_eq_succ_of_ne_zero (Nat.ne_of_gt (by omega : 0 < n))
    obtain ⟨k, -, hk⟩ := hpower
    exact hk
  · exact nofun

end Meaning

end RegexAutomaton

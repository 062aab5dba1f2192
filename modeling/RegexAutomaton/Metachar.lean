/-
The symbols with a meaning of their own in a pattern.
-/

namespace RegexAutomaton

/-- A symbol that does not stand for itself. -/
inductive Metachar where
  | openGroup | closeGroup
  | openBracket | closeBracket
  | openRepeat | closeRepeat
  | dot | star | plus | question
  | bar | caret | dollar
  deriving DecidableEq, Repr

namespace Metachar

/-- The symbol itself. -/
def toChar : Metachar → Char
  | openGroup => '('
  | closeGroup => ')'
  | openBracket => '['
  | closeBracket => ']'
  | openRepeat => '{'
  | closeRepeat => '}'
  | dot => '.'
  | star => '*'
  | plus => '+'
  | question => '?'
  | bar => '|'
  | caret => '^'
  | dollar => '$'

/-- Every symbol with a meaning of its own, the backslash apart. -/
def all : List Metachar :=
  [openGroup, closeGroup, openBracket, closeBracket, openRepeat, closeRepeat,
    dot, star, plus, question, bar, caret, dollar]

/-- The special symbol that `c` is, if it is one. -/
def ofChar? (c : Char) : Option Metachar := all.find? fun m => m.toChar == c

theorem mem_all (m : Metachar) : m ∈ all := by cases m <;> decide

@[simp] theorem ofChar?_toChar (m : Metachar) : ofChar? m.toChar = some m := by
  cases m <;> decide

theorem ofChar?_eq_some_iff {c : Char} {m : Metachar} : ofChar? c = some m ↔ m.toChar = c := by
  refine ⟨fun h => ?_, fun h => h ▸ ofChar?_toChar m⟩
  simpa using List.find?_some h

theorem ofChar?_eq_none_iff {c : Char} : ofChar? c = none ↔ ∀ m : Metachar, m.toChar ≠ c := by
  simp only [ofChar?, List.find?_eq_none, beq_iff_eq]
  exact ⟨fun h m => h m (mem_all m), fun h m _ => h m⟩

end Metachar

end RegexAutomaton

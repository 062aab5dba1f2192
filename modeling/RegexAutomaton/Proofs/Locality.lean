/-
A token is read from its own symbols alone.

What can be read at one place is read in the same way at a place further
right, and whatever follows it (`Token.read_append`); offsets only tell where
something is wrong. So the tokens of two texts written one after the other are
the tokens of the first and then those of the second (`Token.reads_append`).
-/
import RegexAutomaton.Proofs.BracketGrammar
import RegexAutomaton.Proofs.Lexing

namespace RegexAutomaton

/-- The same value further right. -/
def Spanned.shift {α : Type} (k : Nat) (s : Spanned α) : Spanned α := { s with offset := s.offset + k }

@[simp] theorem Spanned.value_shift {α : Type} (k : Nat) (s : Spanned α) : (s.shift k).value = s.value := rfl

/-! ## Brackets -/

namespace Bracket

variable {encoding : Encoding} {offset width : Nat} {rest : List Char}

theorem read_append {set : CharSet} (h : read encoding offset rest = .ok (set, width)) (offset' : Nat)
    (more : List Char) : read encoding offset' (rest ++ more) = .ok (set, width) := by
  obtain ⟨own, later, rfl, -, hread⟩ := exists_own h
  rw [List.append_assoc]
  exact hread offset' (later ++ more)

end Bracket

/-! ## Counted repetitions -/

namespace Repetition

theorem read_append {offset width : Nat} {rest : List Char} {r : Repetition}
    (h : read offset rest = .ok (r, width)) (offset' : Nat) (more : List Char) :
    read offset' (rest ++ more) = .ok (r, width) := by
  obtain ⟨body, right, rfl, hcounts, hwidth⟩ := read_eq_ok_iff.1 h
  exact read_eq_ok_iff.2 ⟨body, right ++ more, by simp, hcounts, hwidth⟩

end Repetition

/-! ## Tokens -/

namespace Token

variable {encoding : Encoding}

/-- **A token is read from its own symbols alone**: neither what follows it nor
how far right it stands makes a difference. -/
theorem read_append {offset width : Nat} {c : Char} {rest : List Char} {t : Token}
    (h : read encoding offset c rest = .ok (t, width)) (k : Nat) (more : List Char) :
    read encoding (offset + k) c (rest ++ more) = .ok (t, width) := by
  rw [read_eq_ok_iff] at h ⊢
  cases h with
  | plain hb hc => exact .plain hb hc
  | escape hc h => exact .escape hc (Escape.read_append h _ more)
  | bracket hc h => exact .bracket hc (Bracket.read_append h _ more)
  | counted hc h => exact .counted hc (Repetition.read_append h _ more)
  | dot hc => exact .dot hc
  | star hc => exact .star hc
  | plus hc => exact .plus hc
  | question hc => exact .question hc
  | anchorStart hc => exact .anchorStart hc
  | anchorEnd hc => exact .anchorEnd hc
  | groupOpen hc => exact .groupOpen hc
  | groupClose hc => exact .groupClose hc
  | bar hc => exact .bar hc

/-- The tokens of a text, moved to the right, and then those of what follows
it. -/
theorem reads_append {offset : Nat} {text text' : List Char} {ts ts' : List (Spanned Token)}
    (h : (read encoding).Reads offset text ts) (k : Nat)
    (h' : (read encoding).Reads (offset + k + text.length) text' ts') :
    (read encoding).Reads (offset + k) (text ++ text') (ts.map (·.shift k) ++ ts') := by
  induction h with
  | nil offset => simpa using h'
  | @cons offset c rest t width ts head tail ih =>
    obtain ⟨-, hfit⟩ := fits_read encoding head
    have hdrop := Reader.drop_cons_append hfit c text'
    have hplace : offset + width + k + ((c :: rest).drop width).length =
        offset + k + (c :: rest).length := by
      rw [List.length_drop]
      simp only [List.length_cons]
      omega
    rw [hplace] at ih
    have hrest := ih h'
    rw [← hdrop, Nat.add_right_comm] at hrest
    exact .cons (read_append head k text') hrest

end Token

end RegexAutomaton

/-
Where a bracket ends.

A bracket whose elements can be read ends where `Bracket.extent?` says, and if the fault
is that its end is missing then `Bracket.extent?` finds none either
(`Bracket.extent?_agrees`): no other part of a bracket can have that fault.
-/
import RegexAutomaton.Proofs.ReadErrors

namespace RegexAutomaton

/-! ## What the fault may be -/

theorem Numeral.fault_of_valueOf {base : Base} {value offset : Nat} {run : List Char} {e : SyntaxError}
    (h : valueOf base value offset run = .error e) : e.fault = base.fault := by
  obtain ⟨left, c, right, m, -, -, -, rfl⟩ := exists_blamed h
  rfl

namespace Escape

variable {encoding : Encoding} {offset : Nat} {rest : List Char} {e : SyntaxError}

theorem fault_of_readCode {places : Nat} {short : Fault} (h : readCode encoding places short offset rest = .error e) :
    e.fault = short ∨ e.fault = .badHexDigit ∨ e.fault = .unrepresentable := by
  unfold readCode at h
  split at h
  · cases h
    exact .inl rfl
  · split at h
    · next hvalue =>
      cases h
      exact .inr (.inl (Numeral.fault_of_valueOf hvalue))
    · split at h
      · cases h
      · cases h
        exact .inr (.inr rfl)

/-- No bracket is missed in an escape. -/
theorem fault_of_read (h : read encoding offset rest = .error e) : e.fault ≠ .unclosedBracket := by
  have code {places : Nat} {short : Fault} {rest : List Char} (hshort : short ≠ .unclosedBracket)
      (h : readCode encoding places short offset rest = .error e) : e.fault ≠ .unclosedBracket := by
    rcases fault_of_readCode h with hfault | hfault | hfault <;> rw [hfault]
    · exact hshort
    · decide
    · decide
  cases rest with
  | nil =>
    cases h
    exact nofun
  | cons c rest =>
    simp only [read] at h
    split at h
    · exact code (by decide) h
    · split at h
      · exact code (by decide) h
      · repeat' split at h
        all_goals cases h

end Escape

namespace Bracket

variable {encoding : Encoding} {first offset : Nat} {rest : List Char} {e : SyntaxError}

/-- An element is not missing the end of the bracket. -/
theorem fault_of_element {c : Char} (h : element encoding first offset c rest = .error (.failed e)) :
    e.fault ≠ .unclosedBracket := by
  unfold element at h
  split at h
  · cases h
  · split at h
    · split at h
      · cases h
      · next hread =>
        cases h
        exact Escape.fault_of_read hread
    · cases h

/-! ## The end of a bracket -/

/-- **Both ways to look for the end of a bracket agree**: where it can be read it is found
at the end of what is read, and where it is missing it is not found. -/
theorem extent?_agrees (encoding : Encoding) (offset : Nat) (rest : List Char) :
    (∀ set width, read encoding offset rest = .ok (set, width) → extent? rest = some width) ∧
      ∀ e, read encoding offset rest = .error e → e.fault = .unclosedBracket → extent? rest = none := by
  refine ⟨fun set width h => extent?_of_read h, fun e h hfault => ?_⟩
  have hfits := fits_element encoding (offset + openingWidth rest)
  unfold read at h
  simp only at h
  split at h
  · next hranges =>
    cases h
    rw [(ranges_error hranges).1] at hfault
    cases hfault
  split at h
  · next hreason =>
    rw [extent?_eq_scan encoding offset rest fun e he => by simp [hreason] at he, hreason]
    rfl
  · next hreason =>
    cases h
    obtain ⟨left, c, right, -, hread⟩ := Reader.exists_of_reason hfits hreason
    exact absurd hfault (fault_of_element hread)
  · cases h

/-- In `[]a]b` both find the second closing bracket, in `[]a` neither finds one. -/
theorem extent?_agrees_leading_close :
    extent? ("]a]b".toList) = some 4 ∧ extent? ("]a".toList) = none :=
  ⟨(extent?_agrees .unicode 0 "]a]b".toList).1 ⟨false, [.single ']', .single 'a']⟩ 4 (by decide),
    (extent?_agrees .unicode 0 "]a".toList).2 ⟨.unclosedBracket, 0⟩ (by decide) rfl⟩

end Bracket

end RegexAutomaton

/-
Whole numbers as they are written in a pattern: in decimal, or in
hexadecimal after `0x`, with spaces and tabs allowed around them.

A numeral denotes at most `greatest`. What is wrong with a run that is no
numeral is blamed on the first symbol that is no digit or that makes the
value too large, and on the place where a digit was due if there is none.
`valueOf_append` reads a run of digits in two parts.
-/
import RegexAutomaton.SyntaxError

namespace RegexAutomaton

namespace Numeral

/-- The greatest number that a numeral may denote: the greatest of 32 binary
digits. -/
def greatest : Nat := 0xFFFFFFFF

/-- The base in which a numeral is written. -/
inductive Base where
  | decimal
  | hexadecimal
  deriving DecidableEq, Repr

namespace Base

/-- How many digits the base has. -/
def size : Base → Nat
  | decimal => 10
  | hexadecimal => 16

/-- What is wrong with a run that is no numeral in this base. -/
def fault : Base → Fault
  | decimal => .badDecimalDigit
  | hexadecimal => .badHexDigit

end Base

/-- The value of a digit of either base; the letters count in both cases. -/
def digitValue? (c : Char) : Option Nat :=
  if '0' ≤ c ∧ c ≤ '9' then some (c.toNat - '0'.toNat)
  else if 'a' ≤ c ∧ c ≤ 'f' then some (c.toNat - 'a'.toNat + 10)
  else if 'A' ≤ c ∧ c ≤ 'F' then some (c.toNat - 'A'.toNat + 10)
  else none

/-- The value of `c` as a digit of the base. -/
def Base.digit? (base : Base) (c : Char) : Option Nat :=
  (digitValue? c).filter fun d => d < base.size

/-- Read digits after others that denote `value`. The first digit is at
`offset`. -/
def valueOf (base : Base) : (value offset : Nat) → List Char → Except SyntaxError Nat
  | value, _, [] => .ok value
  | value, offset, c :: rest =>
    match base.digit? c with
    | none => .error ⟨base.fault, offset⟩
    | some d =>
      if value * base.size + d ≤ greatest then
        valueOf base (value * base.size + d) (offset + 1) rest
      else .error ⟨base.fault, offset⟩

/-- The blanks allowed around a number. -/
def isBlank (c : Char) : Bool := c == ' ' || c == '\t'

/-- How many blanks a run starts with. -/
def leadingBlanks (run : List Char) : Nat := (run.takeWhile isBlank).length

/-- A run without the blanks at its two ends. -/
def trim (run : List Char) : List Char :=
  ((run.dropWhile isBlank).reverse.dropWhile isBlank).reverse

/-- Read a run as a number in the given base. The run starts at `offset`. -/
def readIn (base : Base) (offset : Nat) (run : List Char) : Except SyntaxError Nat :=
  match trim run with
  | [] => .error ⟨base.fault, offset + leadingBlanks run⟩
  | c :: rest => valueOf base 0 (offset + leadingBlanks run) (c :: rest)

/-- What follows the mark of a hexadecimal number. -/
def afterHexMark? : List Char → Option (List Char)
  | zero :: mark :: rest => if zero = '0' ∧ (mark = 'x' ∨ mark = 'X') then some rest else none
  | _ => none

/-- Read a run as a number, in the base that it announces. The run starts at
`offset`. -/
def read (offset : Nat) (run : List Char) : Except SyntaxError Nat :=
  match afterHexMark? (trim run) with
  | some digits => readIn .hexadecimal (offset + leadingBlanks run + 2) digits
  | none => readIn .decimal offset run

/-- The decimal text of a number. -/
def text (n : Nat) : List Char := Nat.toDigits 10 n

theorem valueOf_append {base : Base} {value offset n : Nat} {left right : List Char}
    (h : valueOf base value offset left = .ok n) :
    valueOf base value offset (left ++ right) = valueOf base n (offset + left.length) right := by
  induction left generalizing value offset with
  | nil => cases h; rfl
  | cons c left ih =>
    simp only [valueOf] at h
    split at h
    · cases h
    · rename_i d hd
      split at h
      · rename_i hle
        simp only [List.cons_append, valueOf, hd, if_pos hle, ih h, List.length_cons]
        rw [Nat.add_right_comm, Nat.add_assoc]
      · cases h

end Numeral

end RegexAutomaton

/-
Symbols written with a backslash.

`read` gives the symbol that an escape stands for, and `indexOf?` looks for a
symbol outside escapes without reading them. `write` gives a text that stands
for a symbol, escaped only where it has to be. A control symbol or one
beyond ASCII is written by its code point, in two hexadecimal digits or in
four; one beyond that stands for itself.
-/
import RegexAutomaton.Encoding
import RegexAutomaton.Metachar
import RegexAutomaton.Numeral

namespace RegexAutomaton

namespace Escape

/-- The symbol that announces an escape. -/
def backslash : Char := '\\'

/-- Read the code point that exactly `places` hexadecimal digits give, in an
escape whose backslash is at `offset` and whose first digit is two symbols
further. The escape spans the digits and those two symbols. -/
def readCode (encoding : Encoding) (places : Nat) (short : Fault) (offset : Nat)
    (rest : List Char) : Except SyntaxError (Char × Nat) :=
  if rest.length < places then .error ⟨short, offset⟩
  else
    match Numeral.valueOf .hexadecimal 0 (offset + 2) (rest.take places) with
    | .error e => .error e
    | .ok n =>
      match encoding.symbol? n with
      | some c => .ok (c, places + 2)
      | none => .error ⟨.unrepresentable, offset⟩

/-- Read the escape whose backslash is at `offset`, given what follows the
backslash: the symbol it stands for and how many symbols it spans. -/
def read (encoding : Encoding) (offset : Nat) : List Char → Except SyntaxError (Char × Nat)
  | [] => .error ⟨.danglingEscape, offset⟩
  | c :: rest =>
    if c = 'x' then readCode encoding 2 .shortByteEscape offset rest
    else if c = 'u' then readCode encoding 4 .shortWideEscape offset rest
    else if c = 'n' then .ok ('\n', 2)
    else if c = 'r' then .ok ('\r', 2)
    else if c = 't' then .ok ('\t', 2)
    else .ok (c, 2)

/-- Where the first `target` outside every escape stands, each escape taken
to be two symbols. -/
def indexOf? (target : Char) : List Char → Option Nat
  | [] => none
  | c :: rest =>
    if c = target then some 0
    else if c = backslash then
      match rest with
      | [] => none
      | _ :: rest => (indexOf? target rest).map (· + 2)
    else (indexOf? target rest).map (· + 1)

/-- The hexadecimal digit of a value below sixteen. -/
def hexDigit (d : Nat) : Char :=
  if d < 10 then Char.ofNat ('0'.toNat + d) else Char.ofNat ('A'.toNat + (d - 10))

/-- The last `places` hexadecimal digits of a number. -/
def hexDigits : (places : Nat) → Nat → List Char
  | 0, _ => []
  | places + 1, n => hexDigits places (n / 16) ++ [hexDigit (n % 16)]

/-- A text that reads back as the symbol itself. -/
def write (c : Char) : List Char :=
  if c = '\n' then [backslash, 'n']
  else if c = '\r' then [backslash, 'r']
  else if c = '\t' then [backslash, 't']
  else if c = backslash ∨ (Metachar.ofChar? c).isSome then [backslash, c]
  else if 0x20 ≤ c.toNat ∧ c.toNat ≤ 0x7E then [c]
  else if c.toNat ≤ 0xFF then backslash :: 'x' :: hexDigits 2 c.toNat
  else if c.toNat ≤ 0xFFFF then backslash :: 'u' :: hexDigits 4 c.toNat
  else [c]

/-- A text that reads back as the given symbols. -/
def writeAll (symbols : List Char) : List Char := symbols.flatMap write

theorem digit?_hexDigit : ∀ {d : Nat}, d < 16 →
    Numeral.Base.digit? .hexadecimal (hexDigit d) = some d
  | 0, _ | 1, _ | 2, _ | 3, _ | 4, _ | 5, _ | 6, _ | 7, _ | 8, _ | 9, _
  | 10, _ | 11, _ | 12, _ | 13, _ | 14, _ | 15, _ => by decide
  | _ + 16, h => absurd h (by omega)

theorem length_hexDigits (places n : Nat) : (hexDigits places n).length = places := by
  induction places generalizing n with
  | zero => rfl
  | succ places ih => rw [hexDigits, List.length_append, ih, List.length_singleton]

/-- Digits written are digits read, as long as the places suffice. -/
theorem valueOf_hexDigits {places n : Nat} (offset : Nat) (h : n < Nat.pow 16 places)
    (hn : n ≤ Numeral.greatest) :
    Numeral.valueOf .hexadecimal 0 offset (hexDigits places n) = .ok n := by
  induction places generalizing n with
  | zero =>
    obtain rfl : n = 0 := Nat.lt_one_iff.1 h
    rfl
  | succ places ih =>
    have hdiv : n / 16 < Nat.pow 16 places := Nat.div_lt_of_lt_mul (Nat.mul_comm .. ▸ h)
    have hval : n / 16 * 16 + n % 16 = n := by omega
    rw [hexDigits, Numeral.valueOf_append (ih hdiv (by omega))]
    simp only [Numeral.valueOf, digit?_hexDigit (show n % 16 < 16 by omega), Numeral.Base.size,
      hval, if_pos hn]

end Escape

end RegexAutomaton

/-
The two alphabets a pattern may be written in. Symbols are `Char`s in both:
a byte is the character of the same code point.
-/

namespace RegexAutomaton

/-- The alphabet of a pattern and of the text it is matched against. -/
inductive Encoding where
  /-- The symbols are the bytes. -/
  | byte
  /-- The symbols are the Unicode scalar values. -/
  | unicode
  deriving DecidableEq, Repr

namespace Encoding

/-- The symbol with a given code point, if the alphabet has one. -/
def symbol? : Encoding → Nat → Option Char
  | byte, n => if n < 256 then some (Char.ofNat n) else none
  | unicode, n => if n.isValidChar then some (Char.ofNat n) else none

/-- Whether `c` is a symbol of the alphabet. -/
def Has (encoding : Encoding) (c : Char) : Prop := encoding.symbol? c.toNat = some c

instance (encoding : Encoding) (c : Char) : Decidable (encoding.Has c) :=
  inferInstanceAs (Decidable (_ = _))

theorem has_unicode (c : Char) : unicode.Has c := by
  have h : c.toNat.isValidChar := c.valid
  simp [Has, symbol?, h]

theorem has_byte_iff (c : Char) : byte.Has c ↔ c.toNat < 256 := by
  simp [Has, symbol?]

theorem toNat_ofNat {n : Nat} (h : n.isValidChar) : (Char.ofNat n).toNat = n := by
  rw [Char.ofNat, dif_pos h]
  rfl

theorem toNat_of_symbol? {encoding : Encoding} {n : Nat} {c : Char}
    (h : encoding.symbol? n = some c) : c.toNat = n := by
  cases encoding <;> simp only [symbol?, Option.ite_none_right_eq_some, Option.some.injEq] at h <;>
    obtain ⟨hn, rfl⟩ := h
  · exact toNat_ofNat (.inl (by omega))
  · exact toNat_ofNat hn

end Encoding

end RegexAutomaton

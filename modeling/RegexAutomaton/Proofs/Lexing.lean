/-
How a pattern splits into tokens, said without reading.

`Token.WrittenAt` lists the ways a token can be written, one for each kind,
and `Token.Splits` follows a pattern token by token. A pattern splits exactly
if its tokens can be read to the end (`splits_iff_reads`).
-/
import RegexAutomaton.Proofs.RepetitionGrammar

namespace RegexAutomaton

namespace Token

/-- A token stands at the symbol `c`, which has the given offset and is
followed by `rest`; it spans `width` symbols. -/
inductive WrittenAt (encoding : Encoding) (offset : Nat) (c : Char) (rest : List Char) :
    Token → (width : Nat) → Prop
  /-- A symbol with no meaning of its own stands for itself. -/
  | plain (hb : c ≠ Escape.backslash) (hc : ∀ m : Metachar, m.toChar ≠ c) :
      WrittenAt encoding offset c rest (atom (.literal c)) 1
  | escape {symbol : Char} {width : Nat} (hc : c = Escape.backslash)
      (h : Escape.read encoding offset rest = .ok (symbol, width)) :
      WrittenAt encoding offset c rest (atom (.literal symbol)) width
  | bracket {set : CharSet} {width : Nat} (hc : c = '[')
      (h : Bracket.read encoding offset rest = .ok (set, width)) :
      WrittenAt encoding offset c rest (atom (.bracket set)) width
  | dot (hc : c = '.') : WrittenAt encoding offset c rest (atom .dot) 1
  | star (hc : c = '*') : WrittenAt encoding offset c rest (quantifier .star) 1
  | plus (hc : c = '+') : WrittenAt encoding offset c rest (quantifier .plus) 1
  | question (hc : c = '?') : WrittenAt encoding offset c rest (quantifier .question) 1
  | counted {r : Repetition} {width : Nat} (hc : c = '{')
      (h : Repetition.read offset rest = .ok (r, width)) :
      WrittenAt encoding offset c rest (quantifier (.counted r)) width
  | anchorStart (hc : c = '^') : WrittenAt encoding offset c rest anchorStart 1
  | anchorEnd (hc : c = '$') : WrittenAt encoding offset c rest anchorEnd 1
  | groupOpen (hc : c = '(') : WrittenAt encoding offset c rest groupOpen 1
  | groupClose (hc : c = ')') : WrittenAt encoding offset c rest groupClose 1
  | bar (hc : c = '|') : WrittenAt encoding offset c rest bar 1

/-- The text, whose first symbol has the given offset, is made of these tokens
from one end to the other. -/
inductive Splits (encoding : Encoding) : (offset : Nat) → List Char → List Token → Prop
  | nil (offset : Nat) : Splits encoding offset [] []
  | cons {offset : Nat} {c : Char} {rest : List Char} {t : Token} {width : Nat} {ts : List Token}
      (head : WrittenAt encoding offset c rest t width)
      (tail : Splits encoding (offset + width) ((c :: rest).drop width) ts) :
      Splits encoding offset (c :: rest) (t :: ts)

variable {encoding : Encoding} {offset width : Nat} {c : Char} {rest : List Char} {t : Token}

theorem read_of_special {m : Metachar} (hc : c = m.toChar) :
    read encoding offset c rest = readSpecial encoding offset rest m := by
  have hb : c ≠ Escape.backslash := by
    rw [hc]
    cases m <;> decide
  simp only [read, Glyph.read, if_neg hb, Metachar.ofChar?_eq_some_iff.2 hc.symm]

theorem writtenAt_of_readSpecial {m : Metachar} (hc : c = m.toChar)
    (h : readSpecial encoding offset rest m = .ok (t, width)) :
    WrittenAt encoding offset c rest t width := by
  have one {u : Token} (h : (.ok (u, 1) : Except SyntaxError (Token × Nat)) = .ok (t, width)) :
      u = t ∧ 1 = width := Prod.mk.inj (Except.ok.inj h)
  cases m with
  | openGroup => obtain ⟨rfl, rfl⟩ := one h; exact .groupOpen hc
  | closeGroup => obtain ⟨rfl, rfl⟩ := one h; exact .groupClose hc
  | openBracket =>
    obtain ⟨found, hread, hfound⟩ := map_eq_ok_iff.1 h
    obtain ⟨rfl, rfl⟩ := Prod.mk.inj hfound
    exact .bracket hc hread
  | closeBracket => cases h
  | openRepeat =>
    obtain ⟨found, hread, hfound⟩ := map_eq_ok_iff.1 h
    obtain ⟨rfl, rfl⟩ := Prod.mk.inj hfound
    exact .counted hc hread
  | closeRepeat => cases h
  | dot => obtain ⟨rfl, rfl⟩ := one h; exact .dot hc
  | star => obtain ⟨rfl, rfl⟩ := one h; exact .star hc
  | plus => obtain ⟨rfl, rfl⟩ := one h; exact .plus hc
  | question => obtain ⟨rfl, rfl⟩ := one h; exact .question hc
  | bar => obtain ⟨rfl, rfl⟩ := one h; exact .bar hc
  | caret => obtain ⟨rfl, rfl⟩ := one h; exact .anchorStart hc
  | dollar => obtain ⟨rfl, rfl⟩ := one h; exact .anchorEnd hc

/-- What can be read as a token is a token that is written there. -/
theorem read_eq_ok_iff :
    read encoding offset c rest = .ok (t, width) ↔ WrittenAt encoding offset c rest t width := by
  constructor
  · intro h
    by_cases hb : c = Escape.backslash
    · simp only [read, Glyph.read, if_pos hb] at h
      cases hread : Escape.read encoding offset rest with
      | error e => rw [hread] at h; cases h
      | ok found =>
        rw [hread] at h
        obtain ⟨rfl, rfl⟩ := Prod.mk.inj (Except.ok.inj h)
        exact .escape hb hread
    · cases hm : Metachar.ofChar? c with
      | none =>
        simp only [read, Glyph.read, if_neg hb, hm] at h
        obtain ⟨rfl, rfl⟩ := Prod.mk.inj (Except.ok.inj h)
        exact .plain hb (Metachar.ofChar?_eq_none_iff.1 hm)
      | some m =>
        have hc := (Metachar.ofChar?_eq_some_iff.1 hm).symm
        rw [read_of_special hc] at h
        exact writtenAt_of_readSpecial hc h
  · intro h
    cases h with
    | plain hb hc => simp only [read, Glyph.read, if_neg hb, Metachar.ofChar?_eq_none_iff.2 hc]
    | escape hc h => simp only [read, Glyph.read, if_pos hc, h, Except.map]
    | bracket hc h =>
      rw [read_of_special (m := .openBracket) hc]
      simp only [readSpecial, h, Except.map]
    | counted hc h =>
      rw [read_of_special (m := .openRepeat) hc]
      simp only [readSpecial, h, Except.map]
    | dot hc => exact read_of_special (m := .dot) hc
    | star hc => exact read_of_special (m := .star) hc
    | plus hc => exact read_of_special (m := .plus) hc
    | question hc => exact read_of_special (m := .question) hc
    | anchorStart hc => exact read_of_special (m := .caret) hc
    | anchorEnd hc => exact read_of_special (m := .dollar) hc
    | groupOpen hc => exact read_of_special (m := .openGroup) hc
    | groupClose hc => exact read_of_special (m := .closeGroup) hc
    | bar hc => exact read_of_special (m := .bar) hc

theorem WrittenAt.fits (h : WrittenAt encoding offset c rest t width) :
    0 < width ∧ width ≤ rest.length + 1 := by
  cases h with
  | escape hc h =>
    obtain ⟨x, digits, more, rfl, rfl, -⟩ := Escape.digits_of_read h
    simp only [List.length_append, List.length_cons]
    omega
  | bracket hc h => exact Bracket.width_le_of_extent? (Bracket.extent?_of_read h)
  | counted hc h =>
    obtain ⟨body, more, rfl, -, rfl⟩ := Repetition.read_eq_ok_iff.1 h
    simp only [List.length_append, List.length_cons]
    omega
  | _ => omega

theorem fits_read (encoding : Encoding) : (read encoding).Fits :=
  fun _ _ _ _ _ h => (read_eq_ok_iff.1 h).fits

/-- A pattern splits into tokens exactly if they can be read one after the
other. -/
theorem splits_iff_reads {text : List Char} {ts : List Token} :
    Splits encoding offset text ts ↔
      ∃ pieces, (read encoding).Reads offset text pieces ∧ pieces.map (·.value) = ts := by
  constructor
  · intro h
    induction h with
    | nil offset => exact ⟨[], .nil offset, rfl⟩
    | cons head tail ih =>
      obtain ⟨pieces, hreads, rfl⟩ := ih
      exact ⟨_ :: pieces, .cons (read_eq_ok_iff.2 head) hreads, rfl⟩
  · intro hsplit
    obtain ⟨pieces, h, rfl⟩ := hsplit
    induction h with
    | nil offset => exact .nil offset
    | cons head tail ih => exact .cons (read_eq_ok_iff.1 head) ih

end Token

/-- The tokens of a pattern that can be read to its end. -/
theorem tokens_of_reads {encoding : Encoding} {pattern : List Char} {pieces : List (Spanned Token)}
    (h : (Token.read encoding).Reads 0 pattern pieces) :
    tokens encoding pattern = ⟨pieces, pattern.length, none⟩ := by
  rw [tokens, Reader.scan, h.scanFrom (Token.fits_read encoding), Nat.zero_add]

end RegexAutomaton

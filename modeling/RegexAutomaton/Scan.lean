/-
Reading a text from left to right in pieces.

A `Reader` is given the offset of a symbol, the symbol and what follows it,
and answers with a value and the number of symbols that the value spans, or
with the reason for which reading ends there. `Reader.scan` reads again and
again, each time at the symbol after the previous piece.

`scanFrom_skip` says that symbols inside a piece play no part in the rest of
the scan, and `scanFrom_ok` and `scanFrom_error` say what one reading adds.
-/

namespace RegexAutomaton

/-- A value read from a text, where it starts, and how many symbols it spans. -/
structure Spanned (α : Type) where
  value : α
  offset : Nat
  width : Nat
  deriving DecidableEq, Repr

namespace Spanned

/-- The same place with another value. -/
def map {α β : Type} (f : α → β) (s : Spanned α) : Spanned β :=
  ⟨f s.value, s.offset, s.width⟩

/-- The offset just after the value. -/
def finish {α : Type} (s : Spanned α) : Nat := s.offset + s.width

end Spanned

/-- What a scan found: its pieces in order, the offset where it ended, and the
reason for ending there, which is missing at the end of the text. -/
structure Scan (α ε : Type) where
  pieces : List (Spanned α)
  stop : Nat
  reason : Option ε
  deriving DecidableEq, Repr

/-- How to read one piece, given an offset, the symbol there and the symbols
after it. -/
abbrev Reader (α ε : Type) := Nat → Char → List Char → Except ε (α × Nat)

namespace Reader

variable {α ε : Type} (read : Reader α ε)

/-- Scan a text whose first symbol has the given offset, after skipping its
first `skip` symbols. -/
def scanFrom : (skip offset : Nat) → List Char → Scan α ε
  | _, offset, [] => ⟨[], offset, none⟩
  | skip + 1, offset, _ :: rest => scanFrom skip (offset + 1) rest
  | 0, offset, c :: rest =>
    match read offset c rest with
    | .ok (value, width) =>
      let later := scanFrom (width - 1) (offset + 1) rest
      { later with pieces := ⟨value, offset, width⟩ :: later.pieces }
    | .error reason => ⟨[], offset, some reason⟩

/-- Scan a whole text. -/
def scan (text : List Char) : Scan α ε := scanFrom read 0 0 text

@[simp] theorem scanFrom_nil (skip offset : Nat) :
    scanFrom read skip offset [] = ⟨[], offset, none⟩ := by
  cases skip <;> rfl

theorem scanFrom_skip (skip offset : Nat) (text : List Char) (h : skip ≤ text.length) :
    scanFrom read skip offset text = scanFrom read 0 (offset + skip) (text.drop skip) := by
  induction skip generalizing offset text with
  | zero => rfl
  | succ skip ih =>
    cases text with
    | nil => simp at h
    | cons c rest =>
      rw [scanFrom, ih (offset + 1) rest (by simpa using h), List.drop_succ_cons,
        Nat.add_right_comm, Nat.add_assoc]

theorem scanFrom_ok {offset : Nat} {c : Char} {rest : List Char} {value : α} {width : Nat}
    (h : read offset c rest = .ok (value, width)) (hpos : 0 < width)
    (hfit : width ≤ rest.length + 1) :
    scanFrom read 0 offset (c :: rest) =
      let later := scanFrom read 0 (offset + width) ((c :: rest).drop width)
      { later with pieces := ⟨value, offset, width⟩ :: later.pieces } := by
  obtain ⟨n, rfl⟩ : ∃ n, width = n + 1 := ⟨width - 1, by omega⟩
  have hskip := scanFrom_skip read n (offset + 1) rest (by omega)
  have hplace : offset + 1 + n = offset + (n + 1) := by omega
  rw [hplace] at hskip
  simp only [scanFrom, h, Nat.add_sub_cancel, List.drop_succ_cons, hskip]

theorem scanFrom_error {offset : Nat} {c : Char} {rest : List Char} {reason : ε}
    (h : read offset c rest = .error reason) :
    scanFrom read 0 offset (c :: rest) = ⟨[], offset, some reason⟩ := by
  simp only [scanFrom, h]

end Reader

end RegexAutomaton

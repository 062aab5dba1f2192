/-
How often something repeats: at least, and at most if there is a limit.

Four repetitions have a short text of their own, which for one time is empty;
every other is written by its counts between braces. `Repetition.read` reads
what stands between braces: one number for an exact count, or two around a
comma, where a blank on the left stands for zero and a blank on the right for
no limit.
-/
import RegexAutomaton.Escape

namespace RegexAutomaton

/-- A least and a greatest count; without the latter there is no limit. -/
structure Repetition where
  least : Nat
  most : Option Nat
  deriving DecidableEq, Repr

namespace Repetition

/-- Exactly one time, which is what no quantifier means. -/
def once : Repetition := ⟨1, some 1⟩

/-- Any number of times. -/
def star : Repetition := ⟨0, none⟩

/-- One time or more. -/
def plus : Repetition := ⟨1, none⟩

/-- One time or not at all. -/
def question : Repetition := ⟨0, some 1⟩

/-- Whether no time at all is enough. -/
def isOptional (r : Repetition) : Bool := r.least == 0

/-- Whether more than one time is allowed. -/
def isRepeatable (r : Repetition) : Bool :=
  match r.most with
  | none => true
  | some most => 1 < most

/-- Whether the counts are in order. -/
def InOrder (r : Repetition) : Prop := ∀ most, r.most = some most → r.least ≤ most

/-- The repetition with the given counts, which must be in order; if they are
not, the symbol at `offset` is to blame. -/
def between (least : Nat) (most : Option Nat) (offset : Nat) : Except SyntaxError Repetition :=
  match most with
  | none => .ok ⟨least, none⟩
  | some n => if n < least then .error ⟨.invertedRepeat, offset⟩ else .ok ⟨least, some n⟩

/-- The repetition as it is written after an atom. -/
def text (r : Repetition) : List Char :=
  if r = once then []
  else if r = star then ['*']
  else if r = plus then ['+']
  else if r = question then ['?']
  else
    match r.most with
    | none => '{' :: Numeral.text r.least ++ [',', '}']
    | some most =>
      if r.least = most then '{' :: Numeral.text most ++ ['}']
      else '{' :: Numeral.text r.least ++ ',' :: Numeral.text most ++ ['}']

/-- Read a count that may be left out. The run starts at `offset`. -/
def readCount? (offset : Nat) (run : List Char) : Except SyntaxError (Option Nat) :=
  if run.all Numeral.isBlank then .ok none else (Numeral.read offset run).map some

/-- Read what stands between the braces whose first one is at `offset`. The first comma
separates the counts, even right after a backslash: no number has a backslash in it, and
to pass over escaped commas would blame the same symbol (`Indexed.readCounts_eq`). -/
def readCounts (offset : Nat) (body : List Char) : Except SyntaxError Repetition :=
  let left := body.takeWhile (· ≠ ',')
  match body.dropWhile (· ≠ ',') with
  | [] => (Numeral.read (offset + 1) body).map fun n => ⟨n, some n⟩
  | _ :: right => do
    let least ← readCount? (offset + 1) left
    let most ← readCount? (offset + 1 + left.length + 1) right
    between (least.getD 0) most offset

/-- Read the counted repetition whose opening brace is at `offset`, given what
follows the brace: the repetition and how many symbols it spans. -/
def read (offset : Nat) (rest : List Char) : Except SyntaxError (Repetition × Nat) :=
  match Escape.indexOf? '}' rest with
  | none => .error ⟨.unclosedRepeat, offset⟩
  | some close => (readCounts offset (rest.take close)).map (·, close + 2)

end Repetition

end RegexAutomaton

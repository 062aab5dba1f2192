/-
From a pattern to its automaton.
-/
import RegexAutomaton.Automaton.Build

namespace RegexAutomaton

/-- Why a pattern has no automaton. -/
inductive CompileError where
  /-- The pattern is not well formed. -/
  | malformed (error : SyntaxError)
  deriving DecidableEq, Repr

/-- The error as a sentence. -/
def CompileError.message : CompileError → String
  | malformed error => "failed to parse pattern: " ++ error.message

/-- Compile a pattern. -/
def compile (encoding : Encoding) (pattern : List Char) (options : Options) :
    Except CompileError Automaton :=
  match NodeList.parse encoding pattern options with
  | .ok list => .ok (.ofNodeList list)
  | .error e => .error (.malformed e)

theorem exists_parse_of_compile {encoding : Encoding} {pattern : List Char} {options : Options} {a : Automaton}
    (h : compile encoding pattern options = .ok a) :
    ∃ list, NodeList.parse encoding pattern options = .ok list ∧ a = .ofNodeList list := by
  unfold compile at h
  split at h
  · next list hparse => exact ⟨list, hparse, (Except.ok.inj h).symm⟩
  · cases h

end RegexAutomaton

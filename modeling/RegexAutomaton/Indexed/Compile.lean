/-
From a pattern to its automaton, by index.
-/
import RegexAutomaton.Compile
import RegexAutomaton.Indexed.Assembly
import RegexAutomaton.Indexed.Building
import RegexAutomaton.Indexed.Passes

namespace RegexAutomaton

namespace Indexed

/-- Read a pattern. -/
def parse (encoding : Encoding) (pattern : List Char) (options : Options) : Checked SyntaxError NodeList := do
  let tables ← tables? pattern
  let list ← assemble encoding pattern tables
  runPasses options list

/-- Compile a pattern. -/
def compile (encoding : Encoding) (pattern : List Char) (options : Options) : Checked CompileError Automaton := do
  let list ← (parse encoding pattern options).adapt .malformed
  build list

end Indexed

end RegexAutomaton

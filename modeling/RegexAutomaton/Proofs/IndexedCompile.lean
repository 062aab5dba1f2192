/-
Compiling by index is never stuck.

Whatever the pattern, well formed or not, every access is within bounds, no difference is
negative, no number read from digits is too large for its word, and every walk goes
forward, the one over the tokens up to the end of the pattern. The answer is that of
`compile` (`compile_by_index`).
-/
import RegexAutomaton.Indexed.Compile
import RegexAutomaton.Proofs.IndexedAssembly
import RegexAutomaton.Proofs.IndexedBuilding
import RegexAutomaton.Proofs.IndexedPasses

namespace RegexAutomaton

namespace Indexed

open Checked

/-- Reading by index gives a list, or the error, that reading gives. -/
theorem parse_eq (encoding : Encoding) (pattern : List Char) (options : Options) :
    parse encoding pattern options = answer (NodeList.parse encoding pattern options) := by
  obtain ⟨tables, htables, hmarks⟩ := @tables?_eq SyntaxError pattern
  rw [parse, htables, answer_ok_bind, assemble_eq hmarks, NodeList.parse]
  cases hread : NodeList.read encoding ((Markers.ofPattern? pattern).getD .empty) pattern with
  | error e => rfl
  | ok list => exact runPasses_eq hread options

/-- The nodes of a pattern are linked among themselves. -/
theorem inRange_of_parse {encoding : Encoding} {pattern : List Char} {options : Options} {list : NodeList}
    (h : NodeList.parse encoding pattern options = .ok list) :
    Node.Wired [] 0 list.nodes ∧ Node.InRange list.nodes := by
  obtain ⟨read, hread, rfl⟩ := map_eq_ok_iff.1 h
  refine ⟨Pass.wired_runAll _ (Node.wired_of_read hread), ?_⟩
  rw [NodeList.after, Options.passes, Pass.runAll_append]
  exact Node.inRange_linkNodes _

/-- **Compiling by index always has an answer, the one that compiling has.** -/
theorem compile_by_index (encoding : Encoding) (pattern : List Char) (options : Options) :
    compile encoding pattern options = answer (RegexAutomaton.compile encoding pattern options) := by
  rw [compile, parse_eq, RegexAutomaton.compile]
  cases hparse : NodeList.parse encoding pattern options with
  | error e => rfl
  | ok list =>
    obtain ⟨hwired, hrange⟩ := inRange_of_parse hparse
    exact build_eq hwired hrange

end Indexed

end RegexAutomaton

/-
Coalescing by index.

Before each round of the loop the nodes on the left are as `coalesce` makes them, but
for the first node of a run that may go on (`Joining.inside`): that node has the symbols
of the run up to here. Offsets that never go down keep every length from going below
zero.
-/
import RegexAutomaton.Indexed.Passes
import RegexAutomaton.Proofs.LiteralRuns
import RegexAutomaton.Proofs.Reads

namespace RegexAutomaton

namespace Indexed

open Checked Coalesce

variable {ε : Type}

/-- What the rounds before index `i` keep up. -/
inductive Joining (nodes : List Node) (i : Nat) : Option Nat × List Node → Prop
  /-- No run is open. -/
  | apart {done : List Node} (hlength : done.length = i)
      (hnodes : RegexAutomaton.coalesce nodes = done ++ rewrite false (nodes.drop i)) :
      Joining nodes i (none, done ++ nodes.drop i)
  /-- The last nodes are of a run, the first of which has its symbols up to here. -/
  | inside {done inner : List Node} {first : Node} {symbols : List Char} {last : Nat}
      (hlength : done.length + 1 + inner.length = i) (hfirst : ∀ node ∈ nodes.drop i, first.offset ≤ node.offset)
      (hnodes : RegexAutomaton.coalesce nodes =
        done ++ joinedAll first symbols last (nodes.drop i) :: (inner ++ rewrite true (nodes.drop i))) :
      Joining nodes i (some done.length, done ++ joined first symbols last :: (inner ++ nodes.drop i))

theorem onlySymbol?_eq (kind : NodeKind) :
    (onlySymbol? kind : Checked ε _) =
      answer (.ok (match kind with
        | .literal [c] => some c
        | _ => none)) := by
  cases kind with
  | literal run => rcases run with _ | ⟨c, _ | ⟨d, run⟩⟩ <;> rfl
  | _ => rfl

/-- What a round goes by is whether the node is a lone literal. -/
theorem lone?_eq (left : List Node) (node : Node) (rest : List Node) {i : Nat} (hi : i = left.length) :
    (if (left ++ node :: rest)[i + 1]?.any (·.kind.repetition?.isSome) then none
      else match node.kind with
        | .literal [c] => some c
        | _ => none) = lone? node rest := by
  have hnext : (left ++ node :: rest)[i + 1]?.any (·.kind.repetition?.isSome) = quantifierFirst rest := by
    have hplace : i + 1 - left.length = 0 + 1 := by omega
    rw [List.getElem?_append_right (by omega), hplace, List.getElem?_cons_succ]
    cases rest <;> rfl
  rw [hnext, lone?]
  cases node.kind with
  | literal run => rcases run with _ | ⟨c, _ | ⟨d, run⟩⟩ <;> simp
  | _ => simp

/-- A round, with what it goes by. -/
theorem coalesceStep_eq (head : Option Nat) (left : List Node) (node : Node) (rest : List Node) {i : Nat}
    (hi : i = left.length) :
    (coalesceStep (head, left ++ node :: rest) i : Checked ε _) =
      join (left ++ node :: rest) i node (lone? node rest) head := by
  rw [coalesceStep, entry_middle left node rest hi, answer_ok_bind, onlySymbol?_eq, answer_ok_bind,
    ← lone?_eq left node rest hi]

/-- A symbol joins the run whose first node stands before `inner`. -/
theorem join_eq (done inner rest : List Node) {first node : Node} (symbols : List Char) (last : Nat) (c : Char)
    (hle : first.offset ≤ node.finish) {i : Nat} (hi : i = (done ++ joined first symbols last :: inner).length) :
    (join (done ++ joined first symbols last :: inner ++ node :: rest) i node (some c) (some done.length) :
        Checked ε _) =
      answer (.ok (some done.length,
        done ++ joined first (symbols ++ [c]) node.finish :: (inner ++ [{ node with kind := .inert }] ++ rest))) := by
  have hlist (first : Node) (later : List Node) :
      done ++ first :: inner ++ later = done ++ first :: (inner ++ later) := by
    rw [List.append_assoc, List.cons_append]
  have hi' : i = (done ++ joined first (symbols ++ [c]) node.finish :: inner).length := by
    rw [hi, List.length_append, List.length_append]
    rfl
  rw [join, hlist, entry_middle done _ _ rfl, answer_ok_bind]
  refine (congrArg (· >>= _) (sub_eq hle)).trans ?_
  rw [answer_ok_bind, change_middle done _ _ _ rfl, answer_ok_bind]
  refine (congrArg (fun l => change l i _ >>= _) (hlist _ _).symm).trans ?_
  refine (congrArg (· >>= _) (change_middle _ node _ _ hi')).trans ?_
  rw [answer_ok_bind, hlist, List.append_assoc, List.singleton_append]
  rfl

/-- A round of the loop is never stuck. -/
theorem exists_coalesceStep {nodes : List Node} (hordered : (nodes.map (·.offset)).Pairwise (· ≤ ·)) {i : Nat}
    (hi : i < nodes.length) {s : Option Nat × List Node} (h : Joining nodes i s) :
    ∃ s', (coalesceStep s i : Checked ε _) = answer (.ok s') ∧ Joining nodes (i + 1) s' := by
  obtain ⟨node, hnode⟩ : ∃ node, nodes[i]? = some node := ⟨_, List.getElem?_eq_getElem hi⟩
  have hdrop := drop_of_getElem? hnode
  have hoffsets : ∀ later ∈ nodes.drop (i + 1), node.offset ≤ later.offset := by
    have hpairs := hordered.sublist ((List.drop_sublist i nodes).map (·.offset))
    rw [hdrop, List.map_cons, List.pairwise_cons] at hpairs
    exact fun later hlater => hpairs.1 _ (List.mem_map_of_mem hlater)
  cases h with
  | @apart done hlength hnodes =>
    have hnext : (done ++ [node]).length = i + 1 := by rw [List.length_append, hlength]; rfl
    have hlist : done ++ nodes.drop i = done ++ [node] ++ nodes.drop (i + 1) := by
      rw [hdrop, List.append_assoc, List.singleton_append]
    rw [hdrop] at hnodes
    rw [hdrop, coalesceStep_eq none done node _ hlength.symm, ← hdrop]
    cases hlone : lone? node (nodes.drop (i + 1)) with
    | none =>
      rw [hlist]
      refine ⟨_, rfl, .apart hnext ?_⟩
      rw [hnodes, rewrite_of_not_lone hlone, List.append_assoc, List.singleton_append]
    | some c =>
      have hinside : Joining nodes (i + 1) (some done.length,
          done ++ joined node [c] node.finish :: ([] ++ nodes.drop (i + 1))) := by
        refine .inside ?_ ?_ ?_
        · rw [List.length_nil, hlength]
        · exact hoffsets
        · rw [hnodes, rewrite_lone hlone, List.nil_append]
      rw [joined_of_lone? hlone, List.nil_append, ← hdrop, hlength] at hinside
      exact ⟨_, rfl, hinside⟩
  | @inside done inner first symbols last hlength hfirst hnodes =>
    have hleft : i = (done ++ joined first symbols last :: inner).length := by
      rw [List.length_append, List.length_cons]
      omega
    have hlist (first : Node) (inner later : List Node) :
        done ++ first :: (inner ++ later) = done ++ first :: inner ++ later := by
      rw [List.append_assoc, List.cons_append]
    rw [hdrop] at hfirst hnodes
    rw [hdrop, hlist, coalesceStep_eq _ _ node _ hleft]
    cases hlone : lone? node (nodes.drop (i + 1)) with
    | none =>
      refine ⟨_, rfl, ?_⟩
      have hagain : done ++ joined first symbols last :: inner ++ node :: nodes.drop (i + 1) =
          done ++ joined first symbols last :: inner ++ [node] ++ nodes.drop (i + 1) := by
        rw [List.append_assoc _ [node], List.singleton_append]
      rw [hagain]
      refine .apart ?_ ?_
      · rw [List.length_append, ← hleft]
        rfl
      · rw [hnodes, joinedAll_of_not_lone hlone, rewrite_of_not_lone hlone, hlist, List.append_assoc _ [node],
          List.singleton_append]
    | some c =>
      have hle : first.offset ≤ node.finish := Nat.le_trans (hfirst node List.mem_cons_self) (Nat.le_add_right ..)
      have hnext : Joining nodes (i + 1) (some done.length, done ++ joined first (symbols ++ [c]) node.finish ::
          (inner ++ [{ node with kind := .inert }] ++ nodes.drop (i + 1))) := by
        refine .inside ?_ (fun later hlater => ?_) ?_
        · rw [List.length_append, ← Nat.add_assoc, hlength]
          rfl
        · exact hfirst later (List.mem_cons_of_mem _ hlater)
        · rw [hnodes, joinedAll_of_lone hlone, rewrite_lone_inside hlone, List.append_assoc, List.singleton_append]
      exact ⟨_, join_eq done inner _ symbols last c hle hleft, hnext⟩

/-- **Runs of literals are joined by index as from the left.** -/
theorem coalesce_eq {nodes : List Node} (hordered : (nodes.map (·.offset)).Pairwise (· ≤ ·)) :
    (coalesce nodes : Checked ε _) = answer (.ok (RegexAutomaton.coalesce nodes)) := by
  have hfirst : Joining nodes 0 (none, nodes) := @Joining.apart nodes 0 [] rfl rfl
  have hround (i : Nat) (hi : i < nodes.length) (s : Option Nat × List Node) (h : Joining nodes i s) :
      ∃ s', (coalesceStep s i : Checked ε _) = answer (.ok s') ∧ Joining nodes (i + 1) s' :=
    exists_coalesceStep hordered hi h
  obtain ⟨⟨head, current⟩, hloop, hlast⟩ := exists_foldlM_range hfirst hround
  rw [coalesce, hloop, answer_ok_bind]
  have hdrop : nodes.drop nodes.length = [] := List.drop_length
  cases hlast with
  | apart _ hnodes =>
    rw [hdrop] at hnodes ⊢
    rw [hnodes]
    rfl
  | @inside done inner first symbols last _ _ hnodes =>
    rw [hdrop] at hnodes ⊢
    rw [hnodes, joinedAll_nil]
    rfl

end Indexed

end RegexAutomaton

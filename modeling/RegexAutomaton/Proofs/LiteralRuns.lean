/-
Runs of lone literals in a list of nodes.

Coalescing keeps a node, joins a run into its first node (`Coalesce.joinedAll`), or leaves
a node of the run behind it inert (`rewrite_induction`).
-/
import RegexAutomaton.Proofs.RewritingOrder

namespace RegexAutomaton

namespace Coalesce

/-- The first node of a run with its symbols, up to the offset where they end. -/
def joined (first : Node) (symbols : List Char) (last : Nat) : Node :=
  { first with kind := .literal symbols, length := last - first.offset }

/-- The first node of a run once it has the run that the rest starts with. -/
def joinedAll (first : Node) (symbols : List Char) (last : Nat) (rest : List Node) : Node :=
  joined first (symbols ++ (run rest).map (·.1)) (((run rest).getLast?.map (·.2)).getD last)

variable {node first : Node} {rest : List Node} {c : Char} {symbols : List Char} {last : Nat}

theorem joined_of_lone? (h : lone? node rest = some c) : joined node [c] node.finish = node := by
  have hlength : node.finish - node.offset = node.length := Nat.add_sub_cancel_left ..
  rw [joined, hlength, ← (lone?_eq_some h).1]

theorem rewrite_lone (h : lone? node rest = some c) :
    rewrite false (node :: rest) = joinedAll node [c] node.finish rest :: rewrite true rest := by
  rw [rewrite, h]
  rfl

theorem rewrite_lone_inside (h : lone? node rest = some c) :
    rewrite true (node :: rest) = { node with kind := .inert } :: rewrite true rest := by
  rw [rewrite, h]
  rfl

theorem joinedAll_nil (first : Node) (symbols : List Char) (last : Nat) :
    joinedAll first symbols last [] = joined first symbols last := by
  simp [joinedAll, run]

theorem joinedAll_of_not_lone (h : lone? node rest = none) :
    joinedAll first symbols last (node :: rest) = joined first symbols last := by
  rw [joinedAll, run, h]
  simp

theorem joinedAll_of_lone (h : lone? node rest = some c) :
    joinedAll first symbols last (node :: rest) = joinedAll first (symbols ++ [c]) node.finish rest := by
  rw [joinedAll, joinedAll, run, h]
  cases run rest <;> simp [List.getLast?_cons]

/-- **Coalescing goes on node by node**, inside a run or not. -/
theorem rewrite_induction {motive : Bool → List Node → List Node → Prop} (nil : ∀ inside, motive inside [] [])
    (keep : ∀ inside node rest, lone? node rest = none → motive false rest (rewrite false rest) →
      motive inside (node :: rest) (node :: rewrite false rest))
    (first : ∀ node rest c, lone? node rest = some c → motive true rest (rewrite true rest) →
      motive false (node :: rest) (joinedAll node [c] node.finish rest :: rewrite true rest))
    (later : ∀ node rest c, lone? node rest = some c → motive true rest (rewrite true rest) →
      motive true (node :: rest) ({ node with kind := .inert } :: rewrite true rest))
    (inside : Bool) (nodes : List Node) : motive inside nodes (rewrite inside nodes) := by
  induction nodes generalizing inside with
  | nil => exact nil inside
  | cons node rest ih =>
    cases hlone : lone? node rest with
    | none =>
      rw [rewrite_of_not_lone hlone]
      exact keep inside node rest hlone (ih false)
    | some c =>
      cases inside with
      | true =>
        rw [rewrite_lone_inside hlone]
        exact later node rest c hlone (ih true)
      | false =>
        rw [rewrite_lone hlone]
        exact first node rest c hlone (ih true)

theorem ne_inert_of_lone (h : lone? node rest = some c) : node.kind ≠ .inert := by
  rw [(lone?_eq_some h).1]
  exact nofun

/-- Where the run of lone literals ends that nodes from `place` on start with. -/
def runEnd (place : Nat) (nodes : List Node) : Nat := ((run nodes).getLast?.map (·.2)).getD place

theorem runEnd_of_not_lone (h : lone? node rest = none) (place : Nat) : runEnd place (node :: rest) = place := by
  simp [runEnd, run, h]

theorem runEnd_of_lone (h : lone? node rest = some c) (place : Nat) :
    runEnd place (node :: rest) = runEnd node.finish rest := by
  simp only [runEnd, run, h, List.getLast?_cons]
  cases (run rest).getLast? <;> rfl

end Coalesce

end RegexAutomaton

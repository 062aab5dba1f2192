/-
Falling back, seen from the node that falls back.

The walk that finds all fallbacks goes from left to right and hands nodes from
book to book. From a node on, its fallback is found by looking to the right
(`nextBranch?`): what the books hold at any place is what they promise to the
nodes in them (`mem_fallbacks_iff`), so both ways agree (`fallback?_eq`).
-/
import Mathlib.Tactic.Tauto
import RegexAutomaton.Automaton.Build

namespace RegexAutomaton

namespace Node

/-- How many alternations are open after a node. -/
def depthAfter (opened : Nat) (node : Node) : Nat :=
  match node.kind with
  | .alternationStart => opened + 1
  | .alternationEnd => opened - 1
  | _ => opened

/-- How many alternations are open after some nodes. -/
def depthFrom (opened : Nat) (nodes : List Node) : Nat := nodes.foldl depthAfter opened

/-- The first node that bears a state, found without leaving the alternation
that lies `depth` levels up. The first node looked at has the given index. -/
def bearer? : (depth index : Nat) → List Node → Option Nat
  | _, _, [] => none
  | depth, index, node :: rest =>
    match node.kind with
    | .alternationStart => bearer? (depth + 1) (index + 1) rest
    | .alternationEnd =>
      match depth with
      | 0 => none
      | depth + 1 => bearer? depth (index + 1) rest
    | kind => if kind.bearsState then some index else bearer? depth (index + 1) rest

/-- The entry of the next branch, for a node with `opened` alternations around
it: what follows the next bar of the innermost of them that has one left.
`depth` counts the alternations that opened since. -/
def nextBranch? : (opened depth index : Nat) → List Node → Option Nat
  | _, _, _, [] => none
  | opened, depth, index, node :: rest =>
    match node.kind with
    | .alternationStart => nextBranch? opened (depth + 1) (index + 1) rest
    | .alternationEnd =>
      match depth with
      | 0 => nextBranch? (opened - 1) 0 (index + 1) rest
      | depth + 1 => nextBranch? opened depth (index + 1) rest
    | .bar =>
      if depth = 0 ∧ 0 < opened then bearer? 0 (index + 1) rest
      else nextBranch? opened depth (index + 1) rest
    | _ => nextBranch? opened depth (index + 1) rest

variable {node : Node} {opened depth index : Nat} {rest nodes : List Node}

/-- Outside all alternations there is no next branch. -/
theorem nextBranch?_zero (depth index : Nat) (nodes : List Node) : nextBranch? 0 depth index nodes = none := by
  induction nodes generalizing depth index with
  | nil => rfl
  | cons node rest ih =>
    simp only [nextBranch?, Nat.lt_irrefl, and_false, if_false, Nat.zero_sub, ih]
    split
    · rfl
    · split <;> rfl
    · rfl
    · rfl

/-- A node that is no part of an alternation is passed over. -/
theorem nextBranch?_cons_of_ne (hstart : node.kind ≠ .alternationStart) (hend : node.kind ≠ .alternationEnd)
    (hbar : node.kind ≠ .bar) : nextBranch? opened depth index (node :: rest) =
      nextBranch? opened depth (index + 1) rest := by
  rw [nextBranch?.eq_def]
  cases hkind : node.kind <;> simp_all

/-- A node that bears a state is no part of an alternation. -/
theorem ne_of_bearsState (h : node.kind.bearsState = true) :
    node.kind ≠ .alternationStart ∧ node.kind ≠ .alternationEnd ∧ node.kind ≠ .bar := by
  refine ⟨?_, ?_, ?_⟩ <;> intro hkind <;> simp [hkind, NodeKind.bearsState] at h

theorem bearer?_cons_of_bears (h : node.kind.bearsState = true) :
    bearer? depth index (node :: rest) = some index := by
  rw [bearer?.eq_def]
  cases hkind : node.kind <;> simp_all [NodeKind.bearsState]

/-- The node at an index falls back, when looked at from there. -/
def FallsBack (books index : Nat) (nodes : List Node) (x y : Nat) : Prop :=
  ∃ k node, nodes[k]? = some node ∧ node.kind.bearsState = true ∧ x = index + k ∧
    nextBranch? (depthFrom books (nodes.take k)) 0 (x + 1) (nodes.drop (k + 1)) = some y

theorem fallsBack_cons_iff {books x y : Nat} :
    FallsBack books index (node :: rest) x y ↔
      (node.kind.bearsState = true ∧ x = index ∧ nextBranch? books 0 (index + 1) rest = some y) ∨
        FallsBack (node.depthAfter books) (index + 1) rest x y := by
  constructor
  · rintro ⟨k, other, hother, hbears, rfl, hnext⟩
    cases k with
    | zero =>
      obtain rfl : node = other := by simpa using hother
      exact .inl ⟨hbears, rfl, hnext⟩
    | succ k => exact .inr ⟨k, other, hother, hbears, by omega, hnext⟩
  · rintro (⟨hbears, rfl, hnext⟩ | ⟨k, other, hother, hbears, rfl, hnext⟩)
    · exact ⟨0, node, rfl, hbears, rfl, hnext⟩
    · exact ⟨k + 1, other, hother, hbears, by omega, hnext⟩

end Node

namespace Book

open Node

variable {node : Node} {index x y : Nat} {rest : List Node}

/-- What some books promise to a node in them, when `depth` alternations inside
the first of them are open as well. -/
def Promise : (depth : Nat) → List Book → (index : Nat) → List Node → (x y : Nat) → Prop
  | _, [], _, _, _, _ => False
  | depth, b :: outer, index, nodes, x, y =>
    (x ∈ b.pending ∧ nextBranch? (outer.length + 1) depth index nodes = some y) ∨
      (x ∈ b.awaiting ∧ bearer? depth index nodes = some y) ∨
      Promise (depth + 1) outer index nodes x y

@[simp] theorem length_noteAll (indices : List Nat) (books : List Book) :
    (noteAll indices books).length = books.length := by
  cases books <;> rfl

/-- Nodes put down in the innermost book look for its next branch. -/
theorem promise_noteAll {depth : Nat} {indices : List Nat} {books : List Book} {nodes : List Node} :
    Promise depth (noteAll indices books) index nodes x y ↔
      (x ∈ indices ∧ nextBranch? books.length depth index nodes = some y) ∨
        Promise depth books index nodes x y := by
  cases books with
  | nil => simp [noteAll, Promise, nextBranch?_zero]
  | cons b outer =>
    simp only [noteAll, note, Promise, List.mem_append, List.length_cons]
    tauto

theorem length_after (index : Nat) (node : Node) (books : List Book) :
    (after index node.kind books).length = node.depthAfter books.length := by
  unfold after Node.depthAfter
  cases hkind : node.kind <;> cases books <;> simp [NodeKind.bearsState]

/-- A node that opens, ends or divides no alternation leaves open what the
books promise. -/
theorem promise_cons_of_idle (hstart : node.kind ≠ .alternationStart)
    (hend : node.kind ≠ .alternationEnd) (hbar : node.kind ≠ .bar) (hidle : node.kind.bearsState = false)
    (depth : Nat) (books : List Book) :
    Promise depth books index (node :: rest) x y ↔ Promise depth books (index + 1) rest x y := by
  have hentry (depth : Nat) : bearer? depth index (node :: rest) = bearer? depth (index + 1) rest := by
    rw [bearer?.eq_def]
    cases hkind : node.kind <;> simp_all
  induction books generalizing depth with
  | nil => rfl
  | cons b outer ih => simp only [Promise, nextBranch?_cons_of_ne hstart hend hbar, hentry, ih]

/-- A node that bears a state keeps the promises to the nodes that wait. -/
theorem promise_cons_of_bears (h : node.kind.bearsState = true) (depth : Nat) (books : List Book) :
    Promise depth books index (node :: rest) x y ↔
      (x ∈ books.flatMap (·.awaiting) ∧ index = y) ∨
        Promise depth (books.map settle) (index + 1) rest x y := by
  obtain ⟨hstart, hend, hbar⟩ := ne_of_bearsState h
  induction books generalizing depth with
  | nil => simp [Promise]
  | cons b outer ih =>
    simp only [Promise, nextBranch?_cons_of_ne hstart hend hbar, bearer?_cons_of_bears h, ih, List.map_cons,
      List.flatMap_cons, List.mem_append, settle, List.length_map, Option.some.injEq, List.not_mem_nil,
      false_and, false_or]
    tauto

theorem promise_cons_of_start (hkind : node.kind = .alternationStart) (depth : Nat) (books : List Book) :
    Promise depth books index (node :: rest) x y ↔ Promise (depth + 1) books (index + 1) rest x y := by
  induction books generalizing depth with
  | nil => rfl
  | cons b outer ih => simp only [Promise, nextBranch?, bearer?, hkind, ih]

/-- The end of an alternation, seen by the books around it. -/
theorem promise_cons_of_end (hkind : node.kind = .alternationEnd) (depth : Nat) (books : List Book) :
    Promise (depth + 1) books index (node :: rest) x y ↔ Promise depth books (index + 1) rest x y := by
  induction books generalizing depth with
  | nil => rfl
  | cons b outer ih => simp only [Promise, nextBranch?, bearer?, hkind, ih]

/-- A bar, seen by the books around its alternation. -/
theorem promise_cons_of_bar (hkind : node.kind = .bar) (depth : Nat) (books : List Book) :
    Promise (depth + 1) books index (node :: rest) x y ↔ Promise (depth + 1) books (index + 1) rest x y := by
  induction books generalizing depth with
  | nil => rfl
  | cons b outer ih => simp [Promise, nextBranch?, bearer?, hkind, ih, NodeKind.bearsState]

theorem mem_found (h : node.kind.bearsState = true) {books : List Book} :
    (x, y) ∈ found index node.kind books ↔ x ∈ books.flatMap (·.awaiting) ∧ index = y := by
  rw [found, if_pos h, List.mem_map]
  constructor
  · rintro ⟨x', hx, heq⟩
    obtain ⟨rfl, rfl⟩ := Prod.mk.inj heq
    exact ⟨hx, rfl⟩
  · rintro ⟨hx, rfl⟩
    exact ⟨x, hx, rfl⟩

/-- **One node of the walk**: what the books promise before it is what is found
at it and what the books promise after it, to the node itself as well. -/
theorem promise_step (books : List Book) :
    (node.kind.bearsState = true ∧ x = index ∧ nextBranch? books.length 0 (index + 1) rest = some y) ∨
        Promise 0 books index (node :: rest) x y ↔
      (x, y) ∈ found index node.kind books ∨
        Promise 0 (after index node.kind books) (index + 1) rest x y := by
  by_cases hbears : node.kind.bearsState = true
  · obtain ⟨hstart, hend, hbar⟩ := ne_of_bearsState hbears
    have hafter : after index node.kind books = noteAll [index] (books.map settle) := by
      unfold after
      split <;> simp_all
    rw [hafter, mem_found hbears, promise_noteAll, promise_cons_of_bears hbears, List.length_map,
      List.mem_singleton]
    tauto
  · have hfound : found index node.kind books = [] := by simp [found, hbears]
    simp only [hbears, hfound, List.not_mem_nil, Bool.false_eq_true, false_and, false_or]
    by_cases hstart : node.kind = .alternationStart
    · simp [hstart, after, promise_cons_of_start, Promise, empty]
    by_cases hbar : node.kind = .bar
    · cases books with
      | nil => simp [hbar, after, Promise]
      | cons b outer =>
        simp only [hbar, after, turn, Promise, promise_cons_of_bar hbar, nextBranch?, bearer?,
          List.mem_append, List.not_mem_nil, false_and, false_or]
        simp [NodeKind.bearsState]
        tauto
    by_cases hend : node.kind = .alternationEnd
    · cases books with
      | nil => simp [hend, after, Promise]
      | cons b outer =>
        simp only [hend, after, Promise, promise_cons_of_end hend, promise_noteAll, nextBranch?, bearer?]
        simp
    · have hafter : after index node.kind books = books := by
        unfold after
        split <;> simp_all
      rw [hafter, promise_cons_of_idle hstart hend hbar (by simpa using hbears)]

/-- **What the walk finds** is what the books promise, and for each node of the
walk its next branch. -/
theorem mem_fallbacks_iff (books : List Book) (index : Nat) (nodes : List Node) :
    (x, y) ∈ fallbacks books index nodes ↔
      Promise 0 books index nodes x y ∨ FallsBack books.length index nodes x y := by
  induction nodes generalizing books index with
  | nil =>
    have hpromise (depth : Nat) : ¬ Promise depth books index [] x y := by
      induction books generalizing depth with
      | nil => exact id
      | cons b outer ih => simp [Promise, nextBranch?, bearer?, ih]
    simp [fallbacks, FallsBack, hpromise]
  | cons node rest ih =>
    rw [fallbacks, List.mem_append, ih, length_after, fallsBack_cons_iff, ← or_assoc, ← promise_step]
    tauto

end Book

/-- A look-up finds the only value that a key has. -/
theorem lookup_eq_of_mem_iff {α β : Type} [BEq α] [LawfulBEq α] {pairs : List (α × β)} {x : α}
    {found : Option β} (h : ∀ y, (x, y) ∈ pairs ↔ found = some y) : pairs.lookup x = found := by
  induction pairs with
  | nil =>
    cases found with
    | none => rfl
    | some y => simpa using h y
  | cons pair pairs ih =>
    obtain ⟨key, value⟩ := pair
    by_cases hkey : x = key
    · subst hkey
      rw [List.lookup_cons_self, (h value).1 (by simp)]
    · rw [List.lookup_cons, beq_eq_false_iff_ne.2 hkey]
      exact ih fun y => by simpa [hkey] using h y

namespace Node

/-- **A node falls back to the entry of the next branch.** -/
theorem fallback?_eq {nodes : List Node} {index : Nat} {node : Node} (hnode : nodes[index]? = some node)
    (hbears : node.kind.bearsState = true) :
    fallback? nodes index =
      nextBranch? (depthFrom 0 (nodes.take index)) 0 (index + 1) (nodes.drop (index + 1)) := by
  refine lookup_eq_of_mem_iff fun y => ?_
  rw [Book.mem_fallbacks_iff]
  constructor
  · rintro (hpromise | ⟨k, other, hother, -, hk, hnext⟩)
    · exact hpromise.elim
    · obtain rfl : index = k := by omega
      exact hnext
  · intro hnext
    exact .inr ⟨index, node, hnode, hbears, (Nat.zero_add index).symm, hnext⟩

end Node

end RegexAutomaton

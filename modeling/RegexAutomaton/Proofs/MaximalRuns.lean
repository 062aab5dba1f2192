/-
Which literals are joined, and what else joining does.

A literal of one symbol is lone if no quantifier follows it (`Node.LoneAt`), and a run is
as many lone literals in a row as there are (`Node.LiteralRun`). What becomes of a node
depends on whether it is a lone literal and whether there is one before it
(`Coalesce.getElem?_rewrite`), so a run is joined into its first node
(`LiteralRun.joined`). The nodes that are joined to others are those of each run but its
first, and no two runs share a node (`exists_runs`).
-/
import Mathlib.Algebra.BigOperators.Group.Finset.Piecewise
import Mathlib.Order.Interval.Finset.Nat
import RegexAutomaton.Proofs.Alternations
import RegexAutomaton.Proofs.NodeSpans

namespace RegexAutomaton

/-! ## Runs -/

namespace Node

/-- The node at an index is a literal of one symbol, and no quantifier follows it. -/
def LoneAt (nodes : List Node) (i : Nat) (c : Char) : Prop :=
  kindAt? nodes i = some (.literal [c]) ∧ ∀ kind, kindAt? nodes (i + 1) = some kind → kind.repetition? = none

/-- The nodes from `first` on, up to the one before `last`, are lone literals, and no
lone literal stands on either side of them. -/
structure LiteralRun (nodes : List Node) (first last : Nat) : Prop where
  lt : first < last
  lone : ∀ i, first ≤ i → i < last → ∃ c, LoneAt nodes i c
  starts : ∀ i c, i + 1 = first → ¬ LoneAt nodes i c
  ends : ∀ c, ¬ LoneAt nodes last c

/-- The run from `first` up to `last` has been joined: its first node holds the symbols of
all of them in order and reaches as far as the last of them, and nothing is left of the
others. -/
structure JoinedAt (nodes nodes' : List Node) (first last : Nat) : Prop where
  head : ∀ start finish, nodes[first]? = some start → nodes[last - 1]? = some finish → ∃ symbols length,
    nodes'[first]? = some { start with kind := .literal symbols, length } ∧
      ((nodes.take last).drop first).map (·.kind) = symbols.map (.literal [·]) ∧
      start.offset + length = finish.finish
  others : ∀ i node, first < i → i < last → nodes[i]? = some node → nodes'[i]? = some { node with kind := .inert }

/-- Every run of `nodes` has been joined, the nodes in no run are what they were, and all
nodes of each run but its first are counted. -/
structure JoinsRuns (nodes nodes' : List Node) (count : Nat) : Prop where
  joined : ∀ first last, LiteralRun nodes first last → JoinedAt nodes nodes' first last
  kept : ∀ i, (∀ first last, LiteralRun nodes first last → ¬ (first ≤ i ∧ i < last)) → nodes'[i]? = nodes[i]?
  counted : ∃ runs : Finset (Nat × Nat), (∀ first last, (first, last) ∈ runs ↔ LiteralRun nodes first last) ∧
    count = ∑ run ∈ runs, (run.2 - run.1 - 1)

end Node

/-! ## Node by node -/

namespace Coalesce

open Node

variable {nodes : List Node} {inside : Bool} {node : Node} {c : Char} {i : Nat}

/-- The symbol of the lone literal at an index. -/
def loneAt? (nodes : List Node) (i : Nat) : Option Char :=
  nodes[i]?.bind fun node => lone? node (nodes.drop (i + 1))

/-- Whether a lone literal stands right before an index; `inside` says so of the first. -/
def goesOn (inside : Bool) (nodes : List Node) : (i : Nat) → Bool
  | 0 => inside
  | i + 1 => (loneAt? nodes i).isSome

/-- What becomes of a node with `rest` behind it, if a lone literal stands right before
it or not. -/
def treated (inside : Bool) (node : Node) (rest : List Node) : Node :=
  match lone? node rest with
  | none => node
  | some c => if inside then { node with kind := .inert } else joinedAll node [c] node.finish rest

theorem rewrite_cons (inside : Bool) (node : Node) (rest : List Node) :
    rewrite inside (node :: rest) = treated inside node rest :: rewrite (lone? node rest).isSome rest := by
  unfold treated
  cases hlone : lone? node rest with
  | none => exact rewrite_of_not_lone hlone inside
  | some c =>
    cases inside with
    | true => exact rewrite_lone_inside hlone
    | false => exact rewrite_lone hlone

/-- **What becomes of a node** is told by the lone literals around it. -/
theorem getElem?_rewrite (inside : Bool) (nodes : List Node) (i : Nat) :
    (rewrite inside nodes)[i]? =
      nodes[i]?.map fun node => treated (goesOn inside nodes i) node (nodes.drop (i + 1)) := by
  induction nodes generalizing inside i with
  | nil => cases inside <;> rfl
  | cons node rest ih =>
    rw [rewrite_cons]
    cases i with
    | zero => rfl
    | succ i =>
      rw [List.getElem?_cons_succ, List.getElem?_cons_succ, ih]
      cases i <;> rfl

theorem loneAt?_eq_some_iff : loneAt? nodes i = some c ↔ LoneAt nodes i c := by
  have hnext : quantifierFirst (nodes.drop (i + 1)) = false ↔
      ∀ kind, kindAt? nodes (i + 1) = some kind → kind.repetition? = none := by
    rw [kindAt?, ← List.head?_drop]
    cases nodes.drop (i + 1) <;> simp [quantifierFirst]
  rw [LoneAt, ← hnext, loneAt?, kindAt?]
  cases nodes[i]? with
  | none => simp
  | some node =>
    simp only [Option.bind_some, Option.map_some, Option.some.injEq]
    constructor
    · exact lone?_eq_some
    · rintro ⟨hkind, hnext⟩
      rw [lone?, hkind]
      simp [hnext]

theorem loneAt?_eq_none (h : ∀ c, ¬ LoneAt nodes i c) : loneAt? nodes i = none := by
  rw [Option.eq_none_iff_forall_ne_some]
  exact fun c hc => h c (loneAt?_eq_some_iff.1 hc)

theorem isSome_loneAt?_iff : (loneAt? nodes i).isSome = true ↔ ∃ c, LoneAt nodes i c := by
  simp only [Option.isSome_iff_exists, loneAt?_eq_some_iff]

theorem lone?_of_loneAt (hnode : nodes[i]? = some node) (h : LoneAt nodes i c) :
    lone? node (nodes.drop (i + 1)) = some c := by
  rw [← loneAt?_eq_some_iff.2 h, loneAt?, hnode, Option.bind_some]

/-- Where no lone literal stands, no run starts. -/
theorem run_drop_eq_nil (h : ∀ c, ¬ LoneAt nodes i c) : run (nodes.drop i) = [] := by
  cases hnode : nodes[i]? with
  | none =>
    rw [List.drop_eq_nil_of_le (List.getElem?_eq_none_iff.1 hnode)]
    rfl
  | some node =>
    have hlone := loneAt?_eq_none h
    rw [loneAt?, hnode, Option.bind_some] at hlone
    rw [drop_of_getElem? hnode, run, hlone]

theorem exists_node_of_loneAt (h : LoneAt nodes i c) :
    ∃ node, nodes[i]? = some node ∧ node.kind = .literal [c] := exists_of_kindAt? h.1

theorem run_drop_of_loneAt (hnode : nodes[i]? = some node) (h : LoneAt nodes i c) :
    run (nodes.drop i) = (c, node.finish) :: run (nodes.drop (i + 1)) := by
  rw [drop_of_getElem? hnode, run, lone?_of_loneAt hnode h]

end Coalesce

namespace Node

open Coalesce

variable {nodes : List Node} {first last first' last' i : Nat}

theorem LiteralRun.exists_node (h : LiteralRun nodes first last) (hfirst : first ≤ i) (hlast : i < last) :
    ∃ c node, LoneAt nodes i c ∧ nodes[i]? = some node ∧ node.kind = .literal [c] := by
  obtain ⟨c, hc⟩ := h.lone i hfirst hlast
  obtain ⟨node, hnode, hkind⟩ := exists_node_of_loneAt hc
  exact ⟨c, node, hc, hnode, hkind⟩

/-! ### Every lone literal is in one run -/

theorem exists_first {p : Nat → Prop} (hi : p i) :
    ∃ first ≤ i, (∀ j, first ≤ j → j ≤ i → p j) ∧ ∀ j, j + 1 = first → ¬ p j := by
  induction i with
  | zero => exact ⟨0, Nat.le_refl 0, fun j _ hj => Nat.le_zero.1 hj ▸ hi, fun j hj => by cases hj⟩
  | succ i ih =>
    by_cases hbefore : p i
    · obtain ⟨first, hle, hall, hstarts⟩ := ih hbefore
      refine ⟨first, Nat.le_succ_of_le hle, fun j hfirst hj => ?_, hstarts⟩
      rcases Nat.le_succ_iff.1 hj with hj | rfl
      · exact hall j hfirst hj
      · exact hi
    · refine ⟨i + 1, Nat.le_refl _, fun j hfirst hj => Nat.le_antisymm hj hfirst ▸ hi, fun j hj => ?_⟩
      obtain rfl := Nat.succ.inj hj
      exact hbefore

/-- **Every lone literal is in a run.** -/
theorem exists_literalRun (h : ∃ c, LoneAt nodes i c) :
    ∃ first last, LiteralRun nodes first last ∧ first ≤ i ∧ i < last := by
  have hout : ∃ last, i ≤ last ∧ ∀ c, ¬ LoneAt nodes last c := by
    obtain ⟨c, hc⟩ := h
    refine ⟨nodes.length, Nat.le_of_lt (lt_length_of_kindAt? hc.1), fun c hc => ?_⟩
    exact Nat.lt_irrefl _ (lt_length_of_kindAt? hc.1)
  classical
  obtain ⟨first, hfirst, hbefore, hstarts⟩ := exists_first (p := fun i => ∃ c, LoneAt nodes i c) h
  obtain ⟨hle, hends⟩ := Nat.find_spec hout
  have hlt : i < Nat.find hout := by
    obtain ⟨c, hc⟩ := h
    refine Nat.lt_of_le_of_ne hle fun heq => ?_
    rw [← heq] at hends
    exact hends c hc
  refine ⟨first, Nat.find hout, ⟨by omega, fun j hj hjlast => ?_, fun j c hj hc => hstarts j hj ⟨c, hc⟩, hends⟩,
    hfirst, hlt⟩
  rcases Nat.lt_or_ge i j with hij | hji
  · have hin := Nat.find_min hout hjlast
    simpa [Nat.le_of_lt hij] using hin
  · exact hbefore j hj hji

/-- Of two runs that share a node, neither starts or ends inside the other. -/
theorem LiteralRun.le (h : LiteralRun nodes first last) (h' : LiteralRun nodes first' last')
    (hi : first ≤ i ∧ i < last) (hi' : first' ≤ i ∧ i < last') : first ≤ first' ∧ last' ≤ last := by
  constructor
  · by_contra hlt
    obtain ⟨j, rfl⟩ : ∃ j, first = j + 1 := ⟨first - 1, by omega⟩
    obtain ⟨c, hc⟩ := h'.lone j (by omega) (by omega)
    exact h.starts j c rfl hc
  · by_contra hlt
    obtain ⟨c, hc⟩ := h'.lone last (by omega) (by omega)
    exact h.ends c hc

/-- **No two runs share a node.** -/
theorem LiteralRun.eq (h : LiteralRun nodes first last) (h' : LiteralRun nodes first' last')
    (hi : first ≤ i ∧ i < last) (hi' : first' ≤ i ∧ i < last') : first = first' ∧ last = last' := by
  obtain ⟨hfirst, hlast⟩ := h.le h' hi hi'
  obtain ⟨hfirst', hlast'⟩ := h'.le h hi' hi
  exact ⟨Nat.le_antisymm hfirst hfirst', Nat.le_antisymm hlast' hlast⟩

/-! ### What becomes of a run -/

/-- From any node of a run on, the list starts with the rest of the run. -/
theorem LiteralRun.map_run (h : LiteralRun nodes first last) (hfirst : first ≤ i) (hlast : i ≤ last) :
    ((nodes.take last).drop i).map (·.kind) = ((run (nodes.drop i)).map (·.1)).map (.literal [·]) := by
  induction hn : last - i generalizing i with
  | zero =>
    obtain rfl : i = last := by omega
    rw [run_drop_eq_nil h.ends, List.drop_eq_nil_of_le (List.length_take_le ..)]
    rfl
  | succ n ih =>
    have hlt : i < last := by omega
    obtain ⟨c, node, hc, hnode, hkind⟩ := h.exists_node hfirst hlt
    have htake : (nodes.take last)[i]? = some node := by rw [List.getElem?_take_of_lt hlt, hnode]
    rw [run_drop_of_loneAt hnode hc, drop_of_getElem? htake, List.map_cons, ih (by omega) hlt (by omega), hkind]
    rfl

/-- The run that is left behind a node of a run ends where the last node does. -/
theorem LiteralRun.runEnd_eq (h : LiteralRun nodes first last) {node finish : Node} (hfirst : first ≤ i)
    (hlast : i < last) (hnode : nodes[i]? = some node) (hfinish : nodes[last - 1]? = some finish) :
    runEnd node.finish (nodes.drop (i + 1)) = finish.finish := by
  induction hn : last - 1 - i generalizing i node with
  | zero =>
    obtain rfl : i = last - 1 := by omega
    obtain rfl := Option.some.inj (hnode.symm.trans hfinish)
    have hend : last - 1 + 1 = last := by omega
    rw [hend, runEnd, run_drop_eq_nil h.ends]
    rfl
  | succ n ih =>
    have hlt : i + 1 < last := by omega
    obtain ⟨c, later, hc, hlater, -⟩ := h.exists_node (Nat.le_succ_of_le hfirst) hlt
    have hlone := lone?_of_loneAt hlater hc
    rw [drop_of_getElem? hlater, runEnd_of_lone hlone]
    exact ih (Nat.le_succ_of_le hfirst) hlt hlater (by omega)

/-- **A run is joined into its first node**, in nodes that lie side by side. -/
theorem LiteralRun.joined (h : LiteralRun nodes first last) {place stop : Nat} (habut : Abut place (spans nodes) stop) :
    JoinedAt nodes (coalesce nodes) first last where
  head := by
    intro start finish hstart hfinish
    obtain ⟨c, node, hc, hnode, hkind⟩ := h.exists_node (Nat.le_refl first) h.lt
    obtain rfl := Option.some.inj (hnode.symm.trans hstart)
    have hlone := lone?_of_loneAt hnode hc
    have hbefore : goesOn false nodes first = false := by
      cases first with
      | zero => rfl
      | succ i => rw [goesOn, loneAt?_eq_none fun c => h.starts i c rfl]; rfl
    have hsymbols := h.map_run (Nat.le_refl first) (Nat.le_of_lt h.lt)
    rw [run_drop_of_loneAt hnode hc] at hsymbols
    have hend := finish_joinedAll [c] (abut_behind habut hnode (ne_inert_of_lone hlone))
    rw [h.runEnd_eq (Nat.le_refl first) h.lt hnode hfinish] at hend
    refine ⟨_, _, ?_, hsymbols, hend⟩
    rw [coalesce, getElem?_rewrite, hnode, Option.map_some, hbefore, treated, hlone]
    rfl
  others := by
    intro i node hfirst hlast hnode
    obtain ⟨j, rfl⟩ : ∃ j, i = j + 1 := ⟨i - 1, by omega⟩
    obtain ⟨c, hc⟩ := h.lone (j + 1) (Nat.le_of_lt hfirst) hlast
    have hbefore : goesOn false nodes (j + 1) = true := isSome_loneAt?_iff.2 (h.lone j (by omega) (by omega))
    rw [coalesce, getElem?_rewrite, hnode, Option.map_some, hbefore, treated, lone?_of_loneAt hnode hc]
    rfl

/-- **A node in no run is not changed.** -/
theorem getElem?_coalesce (h : ∀ first last, LiteralRun nodes first last → ¬ (first ≤ i ∧ i < last)) :
    (coalesce nodes)[i]? = nodes[i]? := by
  have hnone : ∀ c, ¬ LoneAt nodes i c := by
    intro c hc
    obtain ⟨first, last, hrun, hi⟩ := exists_literalRun ⟨c, hc⟩
    exact h first last hrun hi
  rw [coalesce, getElem?_rewrite]
  cases hnode : nodes[i]? with
  | none => rfl
  | some node =>
    have hlone := loneAt?_eq_none hnone
    rw [loneAt?, hnode, Option.bind_some] at hlone
    rw [Option.map_some, treated, hlone]

/-! ### How many nodes are joined -/

/-- The indices of the lone literals right behind another one; `inside` says whether one
stands right before the first node. -/
def followers (inside : Bool) (nodes : List Node) : Finset Nat :=
  (Finset.range nodes.length).filter fun i => goesOn inside nodes i = true ∧ (loneAt? nodes i).isSome = true

end Node

namespace Coalesce

theorem count_cons (inside : Bool) (node : Node) (rest : List Node) :
    count inside (node :: rest) =
      count (lone? node rest).isSome rest + if inside = true ∧ (lone? node rest).isSome = true then 1 else 0 := by
  rw [count]
  cases lone? node rest with
  | none => simp
  | some c => simp [Nat.add_comm]

/-- The nodes that become inert are the lone literals right behind another one. -/
theorem count_eq_card (inside : Bool) (nodes : List Node) :
    count inside nodes = (Node.followers inside nodes).card := by
  rw [Node.followers, Finset.card_filter]
  induction nodes generalizing inside with
  | nil => rfl
  | cons node rest ih =>
    have hlater (i : Nat) : goesOn inside (node :: rest) (i + 1) = goesOn (lone? node rest).isSome rest i := by
      cases i <;> rfl
    rw [count_cons, ih, List.length_cons, Finset.sum_range_succ']
    simp only [hlater]
    rfl

/-- What is joined is not joined again. -/
theorem count_rewrite (inside : Bool) (nodes : List Node) :
    count false (rewrite inside nodes) = 0 ∧ (inside = true → count true (rewrite inside nodes) = 0) := by
  have hkeep (inside : Bool) {node : Node} {rest : List Node} (hlone : lone? node rest = none)
      (h : count false rest = 0) : count inside (node :: rest) = 0 := by
    rw [count_cons, hlone]
    simpa using h
  induction inside, nodes using rewrite_induction with
  | nil inside => exact ⟨rfl, fun _ => rfl⟩
  | keep inside node rest hlone ih =>
    have hagain : lone? node (rewrite false rest) = none := (lone?_rewrite ..).trans hlone
    exact ⟨hkeep false hagain ih.1, fun _ => hkeep true hagain ih.1⟩
  | first node rest c hlone ih =>
    refine ⟨?_, nofun⟩
    rw [count_cons]
    cases lone? (joinedAll node [c] node.finish rest) (rewrite true rest) with
    | none => simpa using ih.1
    | some c => simpa using ih.2 rfl
  | later node rest c hlone ih => exact ⟨hkeep false rfl ih.1, fun _ => hkeep true rfl ih.1⟩

end Coalesce

namespace Node

open Coalesce

variable {nodes : List Node} {i : Nat}

/-- A lone literal behind another one is inside a run. -/
theorem mem_followers_iff :
    i ∈ followers false nodes ↔ ∃ first last, LiteralRun nodes first last ∧ first < i ∧ i < last := by
  simp only [followers, Finset.mem_filter, Finset.mem_range, isSome_loneAt?_iff]
  constructor
  · rintro ⟨-, hbefore, hlone⟩
    obtain ⟨first, last, hrun, hfirst, hlast⟩ := exists_literalRun hlone
    refine ⟨first, last, hrun, Nat.lt_of_le_of_ne hfirst ?_, hlast⟩
    rintro rfl
    cases first with
    | zero => cases hbefore
    | succ j =>
      obtain ⟨c, hc⟩ := isSome_loneAt?_iff.1 hbefore
      exact hrun.starts j c rfl hc
  · rintro ⟨first, last, hrun, hfirst, hlast⟩
    obtain ⟨j, rfl⟩ : ∃ j, i = j + 1 := ⟨i - 1, by omega⟩
    obtain ⟨c, hc⟩ := hrun.lone (j + 1) (Nat.le_of_lt hfirst) hlast
    exact ⟨lt_length_of_kindAt? hc.1, isSome_loneAt?_iff.2 (hrun.lone j (by omega) (by omega)), c, hc⟩

theorem LiteralRun.le_length {first last : Nat} (h : LiteralRun nodes first last) : last ≤ nodes.length := by
  have hlt := h.lt
  obtain ⟨c, hc⟩ := h.lone (last - 1) (by omega) (by omega)
  have hlast := lt_length_of_kindAt? hc.1
  omega

/-- **The nodes that are joined to others** are those of each run but its first. -/
theorem exists_runs (nodes : List Node) :
    ∃ runs : Finset (Nat × Nat), (∀ first last, (first, last) ∈ runs ↔ LiteralRun nodes first last) ∧
      coalesceCount nodes = ∑ run ∈ runs, (run.2 - run.1 - 1) := by
  classical
  let places := Finset.range (nodes.length + 1)
  let runs := (places ×ˢ places).filter fun run => LiteralRun nodes run.1 run.2
  have hmem (first last : Nat) : (first, last) ∈ runs ↔ LiteralRun nodes first last := by
    simp only [runs, places, Finset.mem_filter, Finset.mem_product, Finset.mem_range, and_iff_right_iff_imp]
    intro h
    have hlt := h.lt
    have hle := h.le_length
    omega
  refine ⟨runs, hmem, ?_⟩
  have hunion : followers false nodes = runs.biUnion fun run => Finset.Ioo run.1 run.2 := by
    ext i
    simp only [mem_followers_iff, Finset.mem_biUnion, Prod.exists, hmem, Finset.mem_Ioo]
  have hdisjoint : (runs : Set (Nat × Nat)).PairwiseDisjoint fun run => Finset.Ioo run.1 run.2 := by
    rintro ⟨first, last⟩ hrun ⟨first', last'⟩ hrun' hne
    refine Finset.disjoint_left.2 fun i hi hi' => hne ?_
    rw [Finset.mem_Ioo] at hi hi'
    obtain ⟨rfl, rfl⟩ := ((hmem ..).1 hrun).eq ((hmem ..).1 hrun') ⟨Nat.le_of_lt hi.1, hi.2⟩ ⟨Nat.le_of_lt hi'.1, hi'.2⟩
    rfl
  rw [coalesceCount, count_eq_card, hunion, Finset.card_biUnion hdisjoint]
  simp only [Nat.card_Ioo]

/-! ## Whole patterns -/

/-- Passes leave no gap. -/
theorem abut_runAll (passes : List Pass) {place stop : Nat} (h : Abut place (spans nodes) stop) :
    Abut place (spans (Pass.runAll passes nodes)) stop := by
  refine Pass.runAll_induction (motive := fun nodes => Abut place (spans nodes) stop) (fun nodes h => ?collapse)
    (fun nodes h => ?coalesce) (fun nodes h => ?link) passes h
  case collapse => exact Collapse.abut_rewrite nodes _ _ h
  case coalesce => exact Coalesce.abut_rewrite false nodes _ _ h
  case link => exact (spans_linkNodes nodes).symm ▸ h

end Node

/-- Wherever markers are put, items lie side by side. -/
theorem Markers.abut_weave (m : Markers) {first stop : Nat} {ts : List (Spanned Token)}
    (h : Spanned.Tiles first ts stop) (opened : Nat) : Abut first (Phrase.spans (m.weave stop opened ts)) stop := by
  have hmarkers (opened place : Nat) : Abut place (Phrase.spans (m.itemsAt opened place)) place := by
    unfold itemsAt
    split <;> split <;> simp [Phrase.spans, Abut]
  induction ts generalizing first opened with
  | nil =>
    obtain rfl : first = stop := h
    exact hmarkers opened first
  | cons t ts ih =>
    obtain ⟨rfl, -, hrest⟩ := h
    rw [weave, Phrase.spans, List.map_append, List.map_cons]
    exact Abut.append_iff.2 ⟨t.offset, hmarkers opened t.offset, rfl, ih hrest _⟩

namespace NodeList

open Node

variable {encoding : Encoding} {markers : Markers} {pattern : List Char} {list : NodeList}

theorem exists_abut_of_read (h : read encoding markers pattern = .ok list) :
    ∃ stop, Abut 0 (spans list.nodes) stop := by
  obtain ⟨-, -, rfl⟩ := map_eq_ok_iff.1 h
  have htiles := (Reader.tiles_scanFrom (Token.fits_read encoding) 0 pattern).1
  refine ⟨(tokens encoding pattern).stop, ?_⟩
  rw [ofItems, spans_append, spans_ofItems]
  exact Abut.append_iff.2 ⟨_, markers.abut_weave htiles 0, rfl, rfl, rfl⟩

/-- **Joining literals joins the runs of lone literals**, whatever passes have been done
before, and done again it finds nothing to join. -/
theorem joinsRuns_of_read (h : read encoding markers pattern = .ok list) (passes : List Pass) :
    let nodes := Pass.runAll passes list.nodes
    JoinsRuns nodes (coalesce nodes) (coalesceCount nodes) ∧
      coalesce (coalesce nodes) = coalesce nodes ∧ coalesceCount (coalesce nodes) = 0 := by
  obtain ⟨stop, habut⟩ := exists_abut_of_read h
  have hpasses := abut_runAll passes habut
  exact ⟨⟨fun first last hrun => hrun.joined hpasses, fun i hi => getElem?_coalesce hi, exists_runs _⟩,
    coalesce_idem _, (Coalesce.count_rewrite false _).1⟩

/-- The literal before the star is in no run, and the alternation parts two of them. -/
theorem joinsRuns_of_read_quantified :
    ∃ list, read .unicode ((Markers.ofPattern? ['a', 'b', '*', 'c', 'd', '(', 'e', '|', 'f', ')', 'x', 'y', 'z']).getD
        .empty) ['a', 'b', '*', 'c', 'd', '(', 'e', '|', 'f', ')', 'x', 'y', 'z'] = .ok list ∧
      let nodes := Pass.runAll [.collapse] list.nodes
      coalesceCount nodes = 3 ∧ JoinsRuns nodes (coalesce nodes) (coalesceCount nodes) ∧
        coalesce (coalesce nodes) = coalesce nodes ∧ coalesceCount (coalesce nodes) = 0 := by
  refine ⟨_, rfl, rfl, ?_⟩
  exact @joinsRuns_of_read .unicode ((Markers.ofPattern?
    ['a', 'b', '*', 'c', 'd', '(', 'e', '|', 'f', ')', 'x', 'y', 'z']).getD .empty)
    ['a', 'b', '*', 'c', 'd', '(', 'e', '|', 'f', ')', 'x', 'y', 'z'] _ rfl [.collapse]

end NodeList

end RegexAutomaton

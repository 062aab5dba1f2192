/-
Alternations in a list of nodes.

An alternation reaches from its start to the end that closes it, and a bar
belongs to the innermost alternation around it. How deep alternations are
nested before a node, its `level`, tells both: an alternation is a stretch above the
level of its start (`alternation_iff`), and the bars that part the alternations
around a node from what is right of it are those to which the level does not
rise (`exists_directBar_iff`).
-/
import Mathlib.Data.Nat.Find
import Mathlib.Tactic.ByContra
import RegexAutomaton.Proofs.NextBranch

namespace RegexAutomaton

namespace Node

/-- The kind of the node at an index. -/
def kindAt? (nodes : List Node) (index : Nat) : Option NodeKind := nodes[index]?.map (·.kind)

/-- The end that closes an alternation, in the nodes after its start. The first
of them has the given index; `depth` further alternations are open. -/
def closing? : (depth index : Nat) → List Node → Option Nat
  | _, _, [] => none
  | depth, index, node :: rest =>
    match node.kind with
    | .alternationStart => closing? (depth + 1) (index + 1) rest
    | .alternationEnd =>
      match depth with
      | 0 => some index
      | depth + 1 => closing? depth (index + 1) rest
    | _ => closing? depth (index + 1) rest

/-- There is an alternation with its start at `a` and its end at `e`. -/
def Alternation (nodes : List Node) (a e : Nat) : Prop :=
  kindAt? nodes a = some .alternationStart ∧ closing? 0 (a + 1) (nodes.drop (a + 1)) = some e

/-- The bar at `b` belongs to the alternation from `a` to `e` and to none inside
it. -/
structure DirectBar (nodes : List Node) (a e b : Nat) : Prop where
  bar : kindAt? nodes b = some .bar
  inside : a < b ∧ b < e
  innermost : ∀ a' e', Alternation nodes a' e' → a' < b → b < e' → a' ≤ a

/-- The bar at `b` ends the branch of the node at `i` in the innermost alternation
around the node that has a bar right of it. -/
structure EndOfBranch (nodes : List Node) (i a e b : Nat) : Prop where
  alternation : Alternation nodes a e
  around : a < i ∧ i < e
  direct : DirectBar nodes a e b
  right : i < b
  first : ∀ b', DirectBar nodes a e b' → i < b' → b ≤ b'
  innermost : ∀ a' e' b', Alternation nodes a' e' → a' < i → i < e' → DirectBar nodes a' e' b' → i < b' → a' ≤ a

/-! ## Levels -/

/-- By how much a node changes how deep alternations are nested. -/
def delta (node : Node) : Int :=
  match node.kind with
  | .alternationStart => 1
  | .alternationEnd => -1
  | _ => 0

/-- How many more alternations some nodes open than close. -/
def net : List Node → Int
  | [] => 0
  | node :: rest => node.delta + net rest

/-- How deep alternations are nested before an index. -/
def level (nodes : List Node) (index : Nat) : Int := net (nodes.take index)

variable {node : Node} {nodes rest : List Node} {a b d e i j k : Nat}

@[simp] theorem net_nil : net [] = 0 := rfl

@[simp] theorem net_cons (node : Node) (nodes : List Node) : net (node :: nodes) = node.delta + net nodes := rfl

@[simp] theorem net_append (nodes nodes' : List Node) : net (nodes ++ nodes') = net nodes + net nodes' := by
  induction nodes with
  | nil => exact (Int.zero_add _).symm
  | cons node nodes ih => rw [List.cons_append, net_cons, net_cons, ih, Int.add_assoc]

@[simp] theorem level_zero (nodes : List Node) : level nodes 0 = 0 := rfl

@[simp] theorem level_cons (node : Node) (nodes : List Node) (k : Nat) :
    level (node :: nodes) (k + 1) = node.delta + level nodes k := by
  simp [level]

theorem level_drop (nodes : List Node) (i k : Nat) : level (nodes.drop i) k = level nodes (i + k) - level nodes i := by
  simp only [level, List.take_add, net_append]
  omega

theorem level_length (nodes : List Node) : level nodes nodes.length = net nodes := by
  rw [level, List.take_length]

theorem level_succ (h : nodes[i]? = some node) : level nodes (i + 1) = level nodes i + node.delta := by
  rw [level, List.take_add_one, h, net_append, level]
  simp

theorem exists_of_kindAt? {kind : NodeKind} (h : kindAt? nodes i = some kind) :
    ∃ node, nodes[i]? = some node ∧ node.kind = kind := Option.map_eq_some_iff.1 h

theorem lt_length_of_kindAt? {kind : NodeKind} (h : kindAt? nodes i = some kind) : i < nodes.length := by
  obtain ⟨node, hnode, -⟩ := exists_of_kindAt? h
  exact (List.getElem?_eq_some_iff.1 hnode).1

theorem level_start (h : kindAt? nodes a = some .alternationStart) : level nodes (a + 1) = level nodes a + 1 := by
  obtain ⟨node, hnode, hkind⟩ := exists_of_kindAt? h
  rw [level_succ hnode, delta, hkind]

theorem level_bar (h : kindAt? nodes b = some .bar) : level nodes (b + 1) = level nodes b := by
  obtain ⟨node, hnode, hkind⟩ := exists_of_kindAt? h
  rw [level_succ hnode, delta, hkind]
  exact Int.add_zero _

theorem level_bears (h : nodes[i]? = some node) (hbears : node.kind.bearsState = true) :
    level nodes (i + 1) = level nodes i := by
  obtain ⟨hstart, hend, -⟩ := ne_of_bearsState hbears
  rw [level_succ h, delta.eq_def]
  split <;> simp_all

/-- No node changes the level by more than one. -/
theorem level_step (nodes : List Node) (i : Nat) :
    level nodes (i + 1) ≤ level nodes i + 1 ∧ level nodes i ≤ level nodes (i + 1) + 1 := by
  cases hnode : nodes[i]? with
  | none =>
    have hlen : nodes.length ≤ i := List.getElem?_eq_none_iff.1 hnode
    rw [level, level, List.take_of_length_le hlen, List.take_of_length_le (by omega)]
    omega
  | some node =>
    rw [level_succ hnode, delta]
    split <;> omega

/-- Where the level rises there is a start. -/
theorem kindAt?_of_lt (h : level nodes i < level nodes (i + 1)) : kindAt? nodes i = some .alternationStart := by
  cases hnode : nodes[i]? with
  | none =>
    have hlen : nodes.length ≤ i := List.getElem?_eq_none_iff.1 hnode
    rw [level, level, List.take_of_length_le hlen, List.take_of_length_le (by omega)] at h
    omega
  | some node =>
    rw [level_succ hnode, delta] at h
    rw [kindAt?, hnode, Option.map_some]
    split at h
    · next hkind => rw [hkind]
    · omega
    · omega

/-! ## The ends of an alternation -/

/-- The level comes to lie below that of the first node, and `depth` more levels
below it, with the node at `k`. -/
def Closes (depth : Nat) (nodes : List Node) (k : Nat) : Prop :=
  k < nodes.length ∧ level nodes (k + 1) = -(depth + 1) ∧ ∀ m ≤ k, -(depth : Int) ≤ level nodes m

theorem closes_cons_zero (depth : Nat) (node : Node) (rest : List Node) :
    Closes depth (node :: rest) 0 ↔ node.delta = -(depth + 1) := by
  simp [Closes]

theorem closes_cons_succ {depth depth' : Nat} (h : (depth' : Int) = depth + node.delta) :
    Closes depth (node :: rest) (k + 1) ↔ Closes depth' rest k := by
  have hall : (∀ m ≤ k + 1, -(depth : Int) ≤ level (node :: rest) m) ↔ ∀ m ≤ k, -(depth' : Int) ≤ level rest m := by
    constructor
    · intro hall m hm
      have := hall (m + 1) (by omega)
      rw [level_cons] at this
      omega
    · intro hall m hm
      cases m with
      | zero =>
        rw [level_zero]
        omega
      | succ m =>
        have := hall m (by omega)
        rw [level_cons]
        omega
  rw [Closes, Closes, hall, level_cons, List.length_cons]
  refine and_congr (by omega) (and_congr ?_ Iff.rfl)
  omega

/-- The walk finds where the level comes to lie below that of the start. -/
theorem closing?_eq_some_iff (depth index : Nat) (nodes : List Node) :
    closing? depth index nodes = some e ↔ ∃ k, e = index + k ∧ Closes depth nodes k := by
  have hcons {depth depth' : Nat} {node : Node} {rest : List Node} (index : Nat)
      (hfirst : ¬ Closes depth (node :: rest) 0) (h : (depth' : Int) = depth + node.delta) :
      (∃ k, e = index + k ∧ Closes depth (node :: rest) k) ↔ ∃ k, e = index + 1 + k ∧ Closes depth' rest k := by
    constructor
    · rintro ⟨k, rfl, hk⟩
      cases k with
      | zero => exact absurd hk hfirst
      | succ k => exact ⟨k, by omega, (closes_cons_succ h).1 hk⟩
    · rintro ⟨k, rfl, hk⟩
      exact ⟨k + 1, by omega, (closes_cons_succ h).2 hk⟩
  induction nodes generalizing depth index with
  | nil => simp [closing?, Closes]
  | cons node rest ih =>
    rw [closing?.eq_def]
    simp only
    split
    · next hkind =>
      have hdelta : node.delta = 1 := by rw [delta, hkind]
      exact (ih _ _).trans (hcons index (by rw [closes_cons_zero]; omega) (by rw [hdelta]; rfl)).symm
    · next hkind =>
      have hdelta : node.delta = -1 := by rw [delta, hkind]
      cases depth with
      | zero =>
        have hfirst : Closes 0 (node :: rest) 0 := (closes_cons_zero 0 node rest).2 hdelta
        simp only [Option.some.injEq]
        constructor
        · rintro rfl
          exact ⟨0, rfl, hfirst⟩
        · rintro ⟨k, rfl, -, -, hk⟩
          by_contra hne
          have := hk 1 (by omega)
          rw [hfirst.2.1] at this
          omega
      | succ depth => exact (ih _ _).trans (hcons index (by rw [closes_cons_zero]; omega) (by omega)).symm
    · next hstart hend =>
      have hdelta : node.delta = 0 := by
        rw [delta.eq_def]
        split <;> simp_all
      exact (ih _ _).trans (hcons index (by rw [closes_cons_zero]; omega) (by omega)).symm

/-- **An alternation is a stretch above the level of its start.** -/
theorem alternation_iff : Alternation nodes a e ↔
    kindAt? nodes a = some .alternationStart ∧ a < e ∧ e < nodes.length ∧ level nodes (e + 1) = level nodes a ∧
      ∀ m, a < m → m ≤ e → level nodes a < level nodes m := by
  unfold Alternation
  refine and_congr_right fun hstart => ?_
  have hlevel := level_start hstart
  rw [closing?_eq_some_iff]
  simp only [Closes, level_drop, List.length_drop, hlevel]
  constructor
  · rintro ⟨k, rfl, hk, hend, hall⟩
    refine ⟨by omega, by omega, ?_, fun m hm hle => ?_⟩
    · rw [show a + 1 + k + 1 = a + 1 + (k + 1) by omega]
      omega
    · have := hall (m - (a + 1)) (by omega)
      rw [show a + 1 + (m - (a + 1)) = m by omega] at this
      omega
  · rintro ⟨hlt, hlen, hend, hall⟩
    refine ⟨e - (a + 1), by omega, by omega, ?_, fun m hm => ?_⟩
    · rw [show a + 1 + (e - (a + 1) + 1) = e + 1 by omega]
      omega
    · have := hall (a + 1 + m) (by omega) (by omega)
      omega

/-! ## Bars right of a node -/

/-- No end comes before its start, and every start has its end. -/
structure Balanced (nodes : List Node) : Prop where
  sane : ∀ i, 0 ≤ level nodes i
  settled : net nodes = 0

/-- Left of a node below the top level there is a last place with a lower level. -/
theorem exists_lower_left (hpos : 0 < level nodes b) :
    ∃ a < b, level nodes a < level nodes b ∧ ∀ m, a < m → m ≤ b → level nodes b ≤ level nodes m := by
  have hsome : ∃ m, m < b ∧ level nodes (b - 1 - m) < level nodes b := by
    have hb : 0 < b := by
      by_contra hb
      obtain rfl : b = 0 := by omega
      simp at hpos
    exact ⟨b - 1, by omega, by rwa [Nat.sub_self, level_zero]⟩
  classical
  obtain ⟨hm, hlow⟩ := Nat.find_spec hsome
  refine ⟨b - 1 - Nat.find hsome, by omega, hlow, fun m hm' hle => ?_⟩
  rcases Nat.lt_or_eq_of_le hle with hlt | rfl
  · have := Nat.find_min hsome (m := b - 1 - m) (by omega)
    rw [show b - 1 - (b - 1 - m) = m by omega] at this
    omega
  · exact Int.le_refl _

/-- Right of it there is a first place after which the level is lower. -/
theorem exists_lower_right (h : Balanced nodes) (hlt : b < nodes.length) (hpos : 0 < level nodes b) :
    ∃ e, b ≤ e ∧ e < nodes.length ∧ level nodes (e + 1) < level nodes b ∧
      ∀ m, b ≤ m → m ≤ e → level nodes b ≤ level nodes m := by
  have hlast : level nodes (b + (nodes.length - b)) < level nodes b := by
    rwa [show b + (nodes.length - b) = nodes.length by omega, level_length, h.settled]
  have hsome : ∃ m, level nodes (b + m) < level nodes b := ⟨nodes.length - b, hlast⟩
  classical
  have hfirst := Nat.find_spec hsome
  have hle := Nat.find_min' hsome hlast
  have hmin {m : Nat} (hm : m < Nat.find hsome) : level nodes b ≤ level nodes (b + m) :=
    Int.not_lt.1 (Nat.find_min hsome hm)
  generalize Nat.find hsome = first at hfirst hle hmin
  have hne : first ≠ 0 := by
    rintro rfl
    exact absurd hfirst (Int.lt_irrefl _)
  refine ⟨b + first - 1, by omega, by omega, ?_, fun m hm hle => ?_⟩
  · rwa [show b + first - 1 + 1 = b + first by omega]
  · have := hmin (m := m - b) (by omega)
    rwa [show b + (m - b) = m by omega] at this

/-- Around a bar below the top level there is an alternation, inside which the
level does not fall below that of the bar on the left of the bar. -/
theorem exists_alternation (h : Balanced nodes) (hbar : kindAt? nodes b = some .bar) (hpos : 0 < level nodes b) :
    ∃ a e, Alternation nodes a e ∧ a < b ∧ b < e ∧ ∀ m, a < m → m ≤ b → level nodes b ≤ level nodes m := by
  obtain ⟨a, ha, hlow, hleft⟩ := exists_lower_left hpos
  obtain ⟨e, hbe, hlen, hdown, hright⟩ := exists_lower_right h (lt_length_of_kindAt? hbar) hpos
  have hne : b ≠ e := by
    rintro rfl
    rw [level_bar hbar] at hdown
    omega
  have hup := hleft (a + 1) (by omega) (by omega)
  have hlast := hright e hbe (Nat.le_refl e)
  have hstep := level_step nodes a
  have hstep' := level_step nodes e
  refine ⟨a, e, alternation_iff.2 ⟨kindAt?_of_lt (by omega), by omega, hlen, by omega, fun m hm hle => ?_⟩,
    ha, by omega, hleft⟩
  by_cases hmb : m ≤ b
  · have := hleft m hm hmb
    omega
  · have := hright m (by omega) hle
    omega

/-- The bar at `b` is one to which the level does not rise from `i` on. -/
structure Parts (nodes : List Node) (i b : Nat) : Prop where
  bar : kindAt? nodes b = some .bar
  right : i < b
  nested : 0 < level nodes b
  low : ∀ m, i < m → m ≤ b → level nodes b ≤ level nodes m

/-- **The bars right of a node that belong to the alternations around it** are
those to which the level does not rise. -/
theorem exists_directBar_iff (h : Balanced nodes) (hnode : nodes[i]? = some node)
    (hbears : node.kind.bearsState = true) :
    (∃ a e, Alternation nodes a e ∧ a < i ∧ i < e ∧ DirectBar nodes a e b ∧ i < b) ↔ Parts nodes i b := by
  constructor
  · rintro ⟨a, e, halt, ha, he, ⟨hbar, ⟨hab, hbe⟩, hinnermost⟩, hib⟩
    obtain ⟨hstart, -, -, -, hall⟩ := alternation_iff.1 halt
    have habove := hall b hab (by omega)
    have hpos := h.sane a
    -- No other alternation is between this one and the bar, so the bar lies just one level higher.
    have hlevel : level nodes b ≤ level nodes a + 1 := by
      obtain ⟨a', e', halt', ha', he', hleft⟩ := exists_alternation h hbar (by omega)
      have hle := hinnermost a' e' halt' ha' he'
      rw [← level_start hstart]
      exact hleft (a + 1) (by omega) (by omega)
    refine ⟨hbar, hib, by omega, fun m hm hle => ?_⟩
    have := hall m (by omega) (by omega)
    omega
  · rintro ⟨hbar, hib, hpos, hlow⟩
    obtain ⟨a, e, halt, ha, he, hleft⟩ := exists_alternation h hbar hpos
    obtain ⟨hstart, -, -, -, hall⟩ := alternation_iff.1 halt
    have hup := level_start hstart
    have habove := hall b ha (by omega)
    have hai : a < i := by
      by_contra hge
      have hsame := level_bears hnode hbears
      rcases Nat.eq_or_lt_of_le (Nat.le_of_not_lt hge) with rfl | hlt
      · omega
      · have := hlow a hlt (by omega)
        omega
    refine ⟨a, e, halt, hai, by omega, ⟨hbar, ⟨ha, he⟩, fun a' e' halt' ha' he' => ?_⟩, hib⟩
    by_contra hgt
    have hbetween := (alternation_iff.1 halt').2.2.2.2 b ha' (by omega)
    have := hleft a' (by omega) (by omega)
    omega

/-- The end of a branch is the first of these bars. -/
theorem EndOfBranch.parts (hend : EndOfBranch nodes i a e b) (h : Balanced nodes) (hnode : nodes[i]? = some node)
    (hbears : node.kind.bearsState = true) : Parts nodes i b ∧ ∀ b', Parts nodes i b' → b ≤ b' := by
  obtain ⟨halt, ⟨ha, he⟩, hdirect, hib, hfirst, hinnermost⟩ := hend
  refine ⟨(exists_directBar_iff h hnode hbears).1 ⟨a, e, halt, ha, he, hdirect, hib⟩, fun b' hb' => ?_⟩
  obtain ⟨a', e', halt', ha', he', hdirect', hib'⟩ := (exists_directBar_iff h hnode hbears).2 hb'
  have hle := hinnermost a' e' b' halt' ha' he' hdirect' hib'
  rcases Nat.eq_or_lt_of_le hle with rfl | hlt
  · obtain rfl : e' = e := Option.some.inj (halt'.2.symm.trans halt.2)
    exact hfirst b' hdirect' hib'
  · -- The bar belongs to an alternation further out, so it is not in this one.
    by_contra hbefore
    have hinside := hdirect.inside
    have := hdirect'.innermost a e halt (by omega) (by omega)
    omega

/-- If an alternation around a node has a bar right of it, its branch has an
end. -/
theorem exists_endOfBranch (h : Balanced nodes) (hnode : nodes[i]? = some node) (hbears : node.kind.bearsState = true)
    (hparts : ∃ b, Parts nodes i b) : ∃ a e b, EndOfBranch nodes i a e b := by
  classical
  have hb := Nat.find_spec hparts
  have hmin {b' : Nat} (hb' : Parts nodes i b') : Nat.find hparts ≤ b' := Nat.find_min' hparts hb'
  generalize Nat.find hparts = b at hb hmin
  obtain ⟨a, e, halt, ha, he, hdirect, hib⟩ := (exists_directBar_iff h hnode hbears).2 hb
  refine ⟨a, e, b, halt, ⟨ha, he⟩, hdirect, hib, fun b' hdirect' hib' => ?_,
    fun a' e' b' halt' ha' he' hdirect' hib' => ?_⟩
  · exact hmin ((exists_directBar_iff h hnode hbears).1 ⟨a, e, halt, ha, he, hdirect', hib'⟩)
  · have hle := hmin ((exists_directBar_iff h hnode hbears).1 ⟨a', e', halt', ha', he', hdirect', hib'⟩)
    have hinside := hdirect'.inside
    exact hdirect.innermost a' e' halt' (by omega) (by omega)

/-! ## Lists that are balanced -/

theorem level_append (nodes nodes' : List Node) (i : Nat) :
    level (nodes ++ nodes') i = level nodes i + level nodes' (i - nodes.length) := by
  rw [level, List.take_append, net_append, level, level]

theorem balanced_nil : Balanced [] := ⟨fun i => by simp [level], rfl⟩

theorem Balanced.append {nodes nodes' : List Node} (h : Balanced nodes) (h' : Balanced nodes') :
    Balanced (nodes ++ nodes') := by
  refine ⟨fun i => ?_, by rw [net_append, h.settled, h'.settled, Int.add_zero]⟩
  rw [level_append]
  exact Int.add_nonneg (h.sane _) (h'.sane _)

theorem Balanced.cons (h : Balanced nodes) (hnode : node.delta = 0) : Balanced (node :: nodes) := by
  refine ⟨fun i => ?_, by rw [net_cons, hnode, h.settled, Int.add_zero]⟩
  cases i with
  | zero => exact Int.le_refl 0
  | succ i =>
    rw [level_cons, hnode, Int.zero_add]
    exact h.sane i

/-- The ends of an alternation may stand around a balanced list. -/
theorem Balanced.enclose {start stop : Node} (h : Balanced nodes) (hstart : start.delta = 1) (hstop : stop.delta = -1) :
    Balanced (start :: (nodes ++ [stop])) := by
  refine ⟨fun i => ?_, by simp [hstart, hstop, h.settled]⟩
  cases i with
  | zero => exact Int.le_refl 0
  | succ i =>
    have hsane := h.sane i
    rw [level_cons, level_append, hstart]
    cases i - nodes.length with
    | zero =>
      rw [level_zero]
      omega
    | succ k =>
      have hnil : level [] k = 0 := by simp [level]
      rw [level_cons, hstop, hnil]
      omega

end Node

end RegexAutomaton

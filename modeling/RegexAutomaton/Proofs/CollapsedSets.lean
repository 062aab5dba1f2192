/-
Which alternations become sets, and what else collapsing does.

The bars that belong to an alternation part it into branches (`Node.Branch`). It becomes
a set exactly if each of its branches is one node, and that node a symbol, a bracket that
is not negated, or a dot (`Node.OfChoices`). Such an alternation stands in the list as
`Collapse.Stands` says (`OfChoices.exists_stands`), which tells what becomes of each of its
nodes; the nodes of no such alternation stay what they are.
-/
import Mathlib.Data.Set.Card
import RegexAutomaton.Guard
import RegexAutomaton.Proofs.ChoiceAlternations
import RegexAutomaton.Proofs.ForwardWalk

namespace RegexAutomaton

/-! ## Branches -/

namespace NodeKind

/-- What may be a branch of an alternation that becomes a set. -/
inductive IsChoice : NodeKind → Prop
  | literal (c : Char) : IsChoice (.literal [c])
  | bracket {set : CharSet} (plain : set.negated = false) : IsChoice (.bracket set)
  | dot : IsChoice .dot

/-- A match of the node may start with the symbol. -/
def Takes (kind : NodeKind) (c : Char) : Prop :=
  ∃ guard, Guard.ofKind? kind = some guard ∧ guard.matchesFirst c = true

theorem isChoice_iff {kind : NodeKind} : kind.IsChoice ↔ ∃ set, Collapse.choice? kind = some set := by
  constructor
  · intro h
    cases h with
    | literal c => exact ⟨_, rfl⟩
    | @bracket set plain =>
      have hplain : ¬ set.negated = true := by rw [plain]; exact Bool.false_ne_true
      exact ⟨set, if_neg hplain⟩
    | dot => exact ⟨_, rfl⟩
  · rintro ⟨set, hset⟩
    rcases Collapse.choice?_eq_some hset with ⟨c, rfl, -⟩ | ⟨rfl, plain⟩ | ⟨rfl, -⟩
    · exact .literal c
    · exact .bracket plain
    · exact .dot

end NodeKind

namespace Guard

/-- The plainest guard for a set, by what the set is. -/
theorem ofSet_cases (s : CharSet) :
    (s = .any ∧ ofSet s = dot) ∨ (∃ c, s = ⟨false, [.single c]⟩ ∧ ofSet s = literal c) ∨
      (∃ lo hi, s = ⟨false, [⟨lo, hi⟩]⟩ ∧ ofSet s = range lo hi) ∨ ofSet s = set s := by
  unfold ofSet
  split
  · next hany => exact .inl ⟨CharSet.isAny_iff.1 hany, rfl⟩
  split
  · next r hnegated hmembers =>
    obtain ⟨negated, members⟩ := s
    obtain rfl : negated = false := hnegated
    obtain rfl : members = [r] := hmembers
    obtain ⟨lo, hi⟩ := r
    split
    · next hsingle =>
      obtain rfl : lo = hi := beq_iff_eq.1 hsingle
      exact .inr (.inl ⟨lo, rfl, rfl⟩)
    · exact .inr (.inr (.inl ⟨lo, hi, rfl, rfl⟩))
  · exact .inr (.inr (.inr rfl))

/-- The plainest guard for a set holds what the set does. -/
theorem matchesFirst_ofSet (s : CharSet) (c : Char) : (ofSet s).matchesFirst c = s.contains c := by
  rcases ofSet_cases s with ⟨rfl, h⟩ | ⟨d, rfl, h⟩ | ⟨lo, hi, rfl, h⟩ | h <;> rw [h]
  · rfl
  · simp [matchesFirst, CharSet.contains]
  · simp [matchesFirst, CharSet.contains, CharRange.contains]
  · rfl

end Guard

/-- A choice takes the symbols of its set. -/
theorem Collapse.takes_iff_of_choice? {kind : NodeKind} {set : CharSet} (h : choice? kind = some set) (c : Char) :
    kind.Takes c ↔ set.contains c = true := by
  rcases choice?_eq_some h with ⟨d, rfl, rfl⟩ | ⟨rfl, -⟩ | ⟨rfl, rfl⟩
  · simp [NodeKind.Takes, Guard.ofKind?, Guard.ofRun, Guard.matchesFirst, CharSet.contains]
  · simp [NodeKind.Takes, Guard.ofKind?, Guard.matchesFirst_ofSet]
  · simp [NodeKind.Takes, Guard.ofKind?, Guard.matchesFirst]

namespace Node

/-- The nodes from `first` on, up to the one at `last`, are a branch of the alternation
from `a` to `e`. -/
structure Branch (nodes : List Node) (a e first last : Nat) : Prop where
  starts : first = a + 1 ∨ ∃ b, DirectBar nodes a e b ∧ first = b + 1
  ends : last = e ∨ DirectBar nodes a e last
  le : first ≤ last
  undivided : ∀ b, first ≤ b → b < last → ¬ DirectBar nodes a e b

/-- Each branch of the alternation from `a` to `e` is exactly one node, and a choice. -/
def OfChoices (nodes : List Node) (a e : Nat) : Prop :=
  ∀ first last, Branch nodes a e first last →
    last = first + 1 ∧ ∃ kind, kindAt? nodes first = some kind ∧ kind.IsChoice

variable {nodes : List Node} {a e first : Nat}

/-- Wherever a branch starts there is one. -/
theorem exists_branch (hfirst : first = a + 1 ∨ ∃ b, DirectBar nodes a e b ∧ first = b + 1) (hle : first ≤ e) :
    ∃ last ≤ e, Branch nodes a e first last := by
  have hsome : ∃ last, first ≤ last ∧ (last = e ∨ DirectBar nodes a e last) := ⟨e, hle, .inl rfl⟩
  classical
  obtain ⟨hfirst', hlast⟩ := Nat.find_spec hsome
  refine ⟨Nat.find hsome, Nat.find_min' hsome ⟨hle, .inl rfl⟩, hfirst, hlast, hfirst', fun b hb hlt hbar => ?_⟩
  exact Nat.find_min hsome hlt ⟨hb, .inr hbar⟩

theorem exists_drop_of_kindAt? {kind : NodeKind} {i : Nat} (h : kindAt? nodes i = some kind) :
    ∃ node, nodes.drop i = node :: nodes.drop (i + 1) ∧ node.kind = kind := by
  obtain ⟨node, hnode, hkind⟩ := exists_of_kindAt? h
  exact ⟨node, drop_of_getElem? hnode, hkind⟩

/-- **From the start of a branch on, single choices stand up to the end of the
alternation.** -/
theorem OfChoices.exists_choices (h : OfChoices nodes a e)
    (hfirst : first = a + 1 ∨ ∃ b, DirectBar nodes a e b ∧ first = b + 1) (hle : first ≤ e) :
    ∃ inner sets, Collapse.Choices inner sets ∧ nodes.drop first = inner ++ nodes.drop e ∧
      first + inner.length = e := by
  induction hn : e - first using Nat.strongRecOn generalizing first with
  | ind n ih =>
    subst hn
    obtain ⟨last, hlast, hbranch⟩ := exists_branch hfirst hle
    obtain ⟨rfl, kind, hkind, hchoice⟩ := h first last hbranch
    obtain ⟨set, hset⟩ := NodeKind.isChoice_iff.1 hchoice
    obtain ⟨node, hdrop, rfl⟩ := exists_drop_of_kindAt? hkind
    rcases hbranch.ends with rfl | hbar
    · exact ⟨[node], [set], .one hset, hdrop, rfl⟩
    · obtain ⟨separator, hdrop', hseparator⟩ := exists_drop_of_kindAt? hbar.bar
      have hinside := hbar.inside
      obtain ⟨inner, sets, hinner, hrest, hlength⟩ :=
        ih (e - (first + 1 + 1)) (by omega) (.inr ⟨_, hbar, rfl⟩) (by omega) rfl
      refine ⟨node :: separator :: inner, set :: sets, .more hset hseparator hinner, ?_, ?_⟩
      · rw [hdrop, hdrop', hrest]
        rfl
      · simp only [List.length_cons]
        omega

/-- Where the level falls there is an end. -/
theorem kindAt?_of_gt {i : Nat} (h : level nodes (i + 1) < level nodes i) :
    kindAt? nodes i = some .alternationEnd := by
  cases hnode : nodes[i]? with
  | none =>
    have hlen : nodes.length ≤ i := List.getElem?_eq_none_iff.1 hnode
    rw [level, level, List.take_of_length_le hlen, List.take_of_length_le (by omega)] at h
    omega
  | some node =>
    rw [level_succ hnode, delta] at h
    rw [kindAt?, hnode, Option.map_some]
    split at h
    · omega
    · next hkind => rw [hkind]
    · omega

theorem Alternation.kindAt?_finish (h : Alternation nodes a e) : kindAt? nodes e = some .alternationEnd := by
  obtain ⟨-, hlt, -, hlevel, hall⟩ := alternation_iff.1 h
  have habove := hall e hlt (Nat.le_refl e)
  exact kindAt?_of_gt (by omega)

/-- An alternation of choices stands in the list. -/
theorem OfChoices.exists_stands (h : OfChoices nodes a e) (halt : Alternation nodes a e) :
    ∃ left start inner finish sets right, Collapse.Stands nodes left start inner finish sets right ∧
      left.length = a ∧ a + 1 + inner.length = e := by
  have hlt : a < e := (alternation_iff.1 halt).2.1
  obtain ⟨start, hdrop, hstart⟩ := exists_drop_of_kindAt? halt.1
  obtain ⟨finish, hdrop', hfinish⟩ := exists_drop_of_kindAt? halt.kindAt?_finish
  obtain ⟨inner, sets, hinner, hbody, hlength⟩ := h.exists_choices (.inl rfl) hlt
  refine ⟨nodes.take a, start, inner, finish, sets, nodes.drop (e + 1), ⟨?_, hstart, hinner, hfinish⟩, ?_, hlength⟩
  · rw [Collapse.whole, List.cons_append, List.append_assoc, List.singleton_append, ← hdrop', ← hbody, ← hdrop,
      List.take_append_drop]
  · exact List.length_take_of_le (Nat.le_of_lt (lt_length_of_kindAt? halt.1))

end Node

/-! ## Where an alternation of single choices stands -/

namespace Collapse

variable {nodes inner left right : List Node} {sets : List CharSet} {start finish : Node} {a e i k : Nat}

/-- Choices and bars take turns. -/
theorem Choices.kind_of_getElem? (h : Choices inner sets) {node : Node} (hnode : inner[k]? = some node) :
    (k % 2 = 0 → ∃ set, choice? node.kind = some set) ∧ (k % 2 = 1 → node.kind = .bar) := by
  induction h generalizing k with
  | one hchoice =>
    cases k with
    | zero =>
      obtain rfl := Option.some.inj hnode
      exact ⟨fun _ => ⟨_, hchoice⟩, nofun⟩
    | succ k => cases hnode
  | more hchoice hbar _ ih =>
    match k with
    | 0 =>
      obtain rfl := Option.some.inj hnode
      exact ⟨fun _ => ⟨_, hchoice⟩, nofun⟩
    | 1 =>
      obtain rfl := Option.some.inj hnode
      exact ⟨nofun, fun _ => hbar⟩
    | k + 2 =>
      have hlater := ih hnode
      rwa [← Nat.add_mod_right k 2] at hlater

/-- The sets are those of the nodes that are choices. -/
theorem Choices.mem_iff (h : Choices inner sets) {set : CharSet} :
    set ∈ sets ↔ ∃ node ∈ inner, choice? node.kind = some set := by
  induction h with
  | one hchoice => simp [hchoice, eq_comm]
  | @more branch separator rest set' sets hchoice hbar _ ih =>
    have hnone : choice? separator.kind = none := by rw [hbar]; rfl
    simp [ih, hchoice, hnone, eq_comm]

theorem Choices.balanced (h : Choices inner sets) : Node.Balanced inner := by
  have hdelta {node : Node} (hnode : node.kind = .bar ∨ ∃ set, choice? node.kind = some set) : node.delta = 0 := by
    rcases hnode with hbar | ⟨set, hset⟩
    · rw [Node.delta, hbar]
    · rcases choice?_eq_some hset with ⟨c, hkind, -⟩ | ⟨hkind, -⟩ | ⟨hkind, -⟩ <;> rw [Node.delta, hkind]
  induction h with
  | one hchoice => exact Node.balanced_nil.cons (hdelta (.inr ⟨_, hchoice⟩))
  | more hchoice hbar _ ih => exact (ih.cons (hdelta (.inl hbar))).cons (hdelta (.inr ⟨_, hchoice⟩))

namespace Stands

variable (h : Stands nodes left start inner finish sets right)

include h

theorem drop_left : nodes.drop left.length = start :: (inner ++ finish :: right) := by
  rw [h.eq, List.drop_left]
  simp [whole]

theorem drop_inner : nodes.drop (left.length + 1) = inner ++ finish :: right := drop_succ_of_drop h.drop_left

theorem getElem?_inner (hk : k < inner.length) : nodes[left.length + 1 + k]? = inner[k]? := by
  rw [← List.getElem?_drop, h.drop_inner, List.getElem?_append_left hk]

theorem getElem?_finish : nodes[left.length + 1 + inner.length]? = some finish := by
  rw [← List.getElem?_drop, h.drop_inner, List.getElem?_append_right (Nat.le_refl _), Nat.sub_self]
  rfl

theorem alternation : Node.Alternation nodes left.length (left.length + 1 + inner.length) :=
  Node.alternation_of_balanced h.inner.balanced h.start h.finish h.drop_left

/-- No alternation starts inside. -/
theorem le_of_start (hi : Node.kindAt? nodes i = some .alternationStart) (hlast : i ≤ left.length + 1 + inner.length) :
    i ≤ left.length := by
  by_contra hlt
  obtain ⟨node, hnode, hkind⟩ := Node.exists_of_kindAt? hi
  rcases h.mem_inner_or_eq hnode (Nat.lt_of_not_le hlt) hlast with ⟨-, hmem⟩ | ⟨-, rfl⟩
  · exact h.inner.ne_start node hmem hkind
  · rw [h.finish] at hkind
    cases hkind

theorem directBar_iff {b : Nat} : Node.DirectBar nodes left.length (left.length + 1 + inner.length) b ↔
    ∃ k < inner.length, k % 2 = 1 ∧ b = left.length + 1 + k := by
  constructor
  · rintro ⟨hbar, ⟨ha, he⟩, -⟩
    obtain ⟨k, rfl⟩ := Nat.exists_eq_add_of_le (Nat.succ_le_of_lt ha)
    obtain ⟨node, hnode, hkind⟩ := Node.exists_of_kindAt? hbar
    rw [h.getElem?_inner (by omega)] at hnode
    refine ⟨k, by omega, ?_, rfl⟩
    by_contra heven
    obtain ⟨set, hset⟩ := (h.inner.kind_of_getElem? hnode).1 (by omega)
    rw [hkind] at hset
    cases hset
  · rintro ⟨k, hk, hodd, rfl⟩
    have hnode : nodes[left.length + 1 + k]? = some inner[k] := by
      rw [h.getElem?_inner hk, List.getElem?_eq_getElem hk]
    refine ⟨?_, ⟨by omega, by omega⟩, fun a' e' halt ha' he' => h.le_of_start halt.1 (by omega)⟩
    rw [Node.kindAt?, hnode, Option.map_some,
      (h.inner.kind_of_getElem? (List.getElem?_eq_getElem hk)).2 hodd]

/-- **The branches are the nodes of the choices.** -/
theorem branch_iff {first last : Nat} :
    Node.Branch nodes left.length (left.length + 1 + inner.length) first last ↔
      ∃ k < inner.length, k % 2 = 0 ∧ first = left.length + 1 + k ∧ last = first + 1 := by
  have hodd := length_of_choices h.inner
  constructor
  · rintro ⟨hstarts, hends, hle, hundivided⟩
    obtain ⟨k, hk, heven, rfl⟩ : ∃ k < inner.length, k % 2 = 0 ∧ first = left.length + 1 + k := by
      rcases hstarts with rfl | ⟨b, hb, rfl⟩
      · exact ⟨0, by omega, rfl, rfl⟩
      · obtain ⟨k, hk, hkodd, rfl⟩ := h.directBar_iff.1 hb
        exact ⟨k + 1, by omega, by omega, rfl⟩
    obtain ⟨m, hm, hmodd, rfl⟩ : ∃ m ≤ inner.length, m % 2 = 1 ∧ last = left.length + 1 + m := by
      rcases hends with rfl | hb
      · exact ⟨inner.length, Nat.le_refl _, hodd, rfl⟩
      · obtain ⟨m, hm, hmodd, rfl⟩ := h.directBar_iff.1 hb
        exact ⟨m, Nat.le_of_lt hm, hmodd, rfl⟩
    refine ⟨k, hk, heven, rfl, ?_⟩
    by_contra hne
    exact hundivided (left.length + 1 + (k + 1)) (by omega) (by omega)
      (h.directBar_iff.2 ⟨k + 1, by omega, by omega, rfl⟩)
  · rintro ⟨k, hk, heven, rfl, rfl⟩
    refine ⟨?_, ?_, Nat.le_succ _, fun b hb hlt hbar => ?_⟩
    · by_cases hzero : k = 0
      · exact .inl (by omega)
      · exact .inr ⟨left.length + 1 + (k - 1), h.directBar_iff.2 ⟨k - 1, by omega, by omega, rfl⟩, by omega⟩
    · by_cases hlast : k + 1 = inner.length
      · exact .inl (by omega)
      · exact .inr (h.directBar_iff.2 ⟨k + 1, by omega, by omega, rfl⟩)
    · obtain ⟨m, hm, hmodd, rfl⟩ := h.directBar_iff.1 hbar
      omega

/-- The branches are choices. -/
theorem ofChoices : Node.OfChoices nodes left.length (left.length + 1 + inner.length) := by
  intro first last hbranch
  obtain ⟨k, hk, heven, rfl, rfl⟩ := h.branch_iff.1 hbranch
  refine ⟨rfl, inner[k].kind, ?_, ?_⟩
  · rw [Node.kindAt?, h.getElem?_inner hk, List.getElem?_eq_getElem hk, Option.map_some]
  · exact NodeKind.isChoice_iff.2 ((h.inner.kind_of_getElem? (List.getElem?_eq_getElem hk)).1 heven)

/-- The set holds what one of the branches takes. -/
theorem contains_union_iff (c : Char) : (CharSet.union sets).contains c = true ↔
    ∃ first last kind, Node.Branch nodes left.length (left.length + 1 + inner.length) first last ∧
      Node.kindAt? nodes first = some kind ∧ kind.Takes c := by
  rw [CharSet.contains_union h.inner.forall_plain]
  constructor
  · rintro ⟨set, hset, hc⟩
    obtain ⟨node, hnode, hchoice⟩ := h.inner.mem_iff.1 hset
    obtain ⟨k, hk, rfl⟩ := List.getElem_of_mem hnode
    have heven : k % 2 = 0 := by
      by_contra hodd
      have hbar := (h.inner.kind_of_getElem? (List.getElem?_eq_getElem hk)).2 (by omega)
      rw [hbar] at hchoice
      cases hchoice
    refine ⟨_, _, inner[k].kind, h.branch_iff.2 ⟨k, hk, heven, rfl, rfl⟩, ?_, (takes_iff_of_choice? hchoice c).2 hc⟩
    rw [Node.kindAt?, h.getElem?_inner hk, List.getElem?_eq_getElem hk, Option.map_some]
  · rintro ⟨first, last, kind, hbranch, hkind, hc⟩
    obtain ⟨k, hk, heven, rfl, rfl⟩ := h.branch_iff.1 hbranch
    rw [Node.kindAt?, h.getElem?_inner hk, List.getElem?_eq_getElem hk, Option.map_some] at hkind
    obtain rfl := Option.some.inj hkind
    obtain ⟨set, hset⟩ := (h.inner.kind_of_getElem? (List.getElem?_eq_getElem hk)).1 heven
    exact ⟨set, h.inner.mem_iff.2 ⟨_, List.getElem_mem hk, hset⟩, (takes_iff_of_choice? hset c).1 hc⟩

/-- What collapsing makes of the nodes from the start of the alternation on. -/
theorem drop_collapse : (collapse nodes).drop left.length =
    replaced start inner finish sets ++ rewrite false right := by
  have hlist : nodes = left ++ start :: (inner ++ finish :: right) := by rw [h.eq]; simp [whole]
  have hwhole := rewrite_whole h.start h.inner h.finish right
  rw [whole, List.cons_append, List.append_assoc, List.singleton_append] at hwhole
  rw [collapse, hlist, rewrite_append_of_blocks (blocks_start h.start), hwhole]
  exact List.drop_left' (length_rewrite false left)

theorem getElem?_collapse_start : (collapse nodes)[left.length]? = some (start.asSet finish sets) :=
  getElem?_of_drop h.drop_collapse

theorem drop_collapse_inner : (collapse nodes).drop (left.length + 1) =
    inner.map hollow ++ { finish with kind := .collapsedEnd } :: rewrite false right := by
  refine drop_succ_of_drop (a := start.asSet finish sets) ?_
  rw [h.drop_collapse, replaced, List.cons_append, List.append_assoc, List.singleton_append]

theorem getElem?_collapse_inner (hk : k < inner.length) :
    (collapse nodes)[left.length + 1 + k]? = some (hollow inner[k]) := by
  rw [← List.getElem?_drop, h.drop_collapse_inner, List.getElem?_append_left (by simpa using hk)]
  simp [hk]

theorem getElem?_collapse_finish :
    (collapse nodes)[left.length + 1 + inner.length]? = some { finish with kind := .collapsedEnd } := by
  have hdrop := drop_add_of_drop h.drop_collapse_inner
  rw [List.length_map] at hdrop
  exact getElem?_of_drop hdrop

end Stands

/-- **What is part of no such alternation is not changed.** -/
theorem getElem?_rewrite (nodes : List Node) : ∀ i, (rewrite false nodes)[i]? = nodes[i]? ∨
    ∃ left start inner finish sets right, Stands nodes left start inner finish sets right ∧
      left.length ≤ i ∧ i ≤ left.length + 1 + inner.length := by
  induction nodes using rewrite_induction with
  | nil => exact fun i => .inl rfl
  | keep node rest _ ih =>
    intro i
    cases i with
    | zero => exact .inl rfl
    | succ i =>
      rcases ih i with hsame | ⟨left, start, inner, finish, sets, right, hstands, hfirst, hlast⟩
      · exact .inl hsame
      · refine .inr ⟨node :: left, start, inner, finish, sets, right,
          ⟨?_, hstands.start, hstands.inner, hstands.finish⟩, ?_⟩
        · rw [List.cons_append, ← hstands.eq]
        · rw [List.length_cons]
          omega
  | set start inner finish sets right hstart hinner hfinish ih =>
    intro i
    have hlength : (replaced start inner finish sets).length = (whole start inner finish).length := by
      simp [replaced, whole]
    have hwhole : (whole start inner finish).length = inner.length + 2 := by simp [whole]
    by_cases hi : i < (whole start inner finish).length
    · exact .inr ⟨[], start, inner, finish, sets, right, ⟨rfl, hstart, hinner, hfinish⟩, Nat.zero_le _, by simp; omega⟩
    · rw [List.getElem?_append_right (by omega), List.getElem?_append_right (by omega), hlength]
      rcases ih (i - (whole start inner finish).length) with
        hsame | ⟨left, start', inner', finish', sets', right', hstands, hfirst, hlast⟩
      · exact .inl hsame
      · refine .inr ⟨whole start inner finish ++ left, start', inner', finish', sets', right',
          ⟨?_, hstands.start, hstands.inner, hstands.finish⟩, ?_⟩
        · rw [List.append_assoc, ← hstands.eq]
        · rw [List.length_append]
          omega

end Collapse

namespace Node

variable {nodes : List Node} {a e i : Nat}

/-- **Alternations of choices start where choices follow a start.** -/
theorem exists_ofChoices_iff : (∃ e, Alternation nodes a e ∧ OfChoices nodes a e) ↔
    kindAt? nodes a = some .alternationStart ∧ (Collapse.choices? (nodes.drop (a + 1))).isSome = true := by
  constructor
  · rintro ⟨e, halt, hchoices⟩
    obtain ⟨left, start, inner, finish, sets, right, hstands, rfl, -⟩ := hchoices.exists_stands halt
    refine ⟨halt.1, ?_⟩
    rw [hstands.drop_inner, Collapse.choices?_of_choices hstands.inner hstands.finish]
    rfl
  · rintro ⟨hstart, hsome⟩
    obtain ⟨⟨sets, finish⟩, hchoices⟩ := Option.isSome_iff_exists.1 hsome
    obtain ⟨inner, right, hbody, hfinish, hinner⟩ := Collapse.choices?_eq_some hchoices
    obtain ⟨start, hdrop, hstart'⟩ := exists_drop_of_kindAt? hstart
    have hleft : (nodes.take a).length = a := List.length_take_of_le (Nat.le_of_lt (lt_length_of_kindAt? hstart))
    have hstands : Collapse.Stands nodes (nodes.take a) start inner finish sets right := by
      refine ⟨?_, hstart', hinner, hfinish⟩
      rw [Collapse.whole, List.cons_append, List.append_assoc, List.singleton_append, ← hbody, ← hdrop,
        List.take_append_drop]
    have halt := hstands.alternation
    have hof := hstands.ofChoices
    rw [hleft] at halt hof
    exact ⟨_, halt, hof⟩

/-- The number of alternations of choices. -/
theorem encard_ofChoices (nodes : List Node) :
    {a | ∃ e, Alternation nodes a e ∧ OfChoices nodes a e}.encard = collapseCount nodes := by
  simp only [exists_ofChoices_iff]
  induction nodes with
  | nil => simp [kindAt?, collapseCount]
  | cons node rest ih =>
    have hsplit : {a | kindAt? (node :: rest) a = some .alternationStart ∧
          (Collapse.choices? ((node :: rest).drop (a + 1))).isSome = true} =
        {a | a = 0 ∧ node.kind = .alternationStart ∧ (Collapse.choices? rest).isSome = true} ∪
          Nat.succ '' {a | kindAt? rest a = some .alternationStart ∧
            (Collapse.choices? (rest.drop (a + 1))).isSome = true} := by
      ext a
      cases a <;> simp [kindAt?]
    rw [hsplit, Set.encard_union_eq, Nat.succ_injective.encard_image, ih, collapseCount, Nat.cast_add]
    · congr 1
      by_cases hhead : node.kind = .alternationStart ∧ (Collapse.choices? rest).isSome = true
      · simp [hhead]
      · simp [hhead]
    · rw [Set.disjoint_left]
      rintro _ ⟨rfl, -⟩ ⟨a, -, ha⟩
      cases ha

/-! ## What collapsing does to a list -/

/-- The alternation from `a` to `e` has become a set: what one of its branches takes is
at its start, and nothing is left of the rest. -/
structure BecomesSet (nodes nodes' : List Node) (a e : Nat) : Prop where
  start : ∀ start finish, nodes[a]? = some start → nodes[e]? = some finish → ∃ set : CharSet,
    nodes'[a]? = some { start with kind := .collapsedStart set, length := finish.offset - start.offset } ∧
      ∀ c, set.contains c = true ↔
        ∃ first last kind, Branch nodes a e first last ∧ kindAt? nodes first = some kind ∧ kind.Takes c
  finish : ∀ finish, nodes[e]? = some finish → nodes'[e]? = some { finish with kind := .collapsedEnd }
  between : ∀ i node, a < i → i < e → nodes[i]? = some node → nodes'[i]? = some { node with kind := .inert }

theorem OfChoices.becomesSet (h : OfChoices nodes a e) (halt : Alternation nodes a e) :
    BecomesSet nodes (collapse nodes) a e := by
  obtain ⟨left, start, inner, finish, sets, right, hstands, rfl, rfl⟩ := h.exists_stands halt
  refine ⟨fun start' finish' hstart hfinish => ?_, fun finish' hfinish => ?_, fun i node hfirst hlast hnode => ?_⟩
  · obtain rfl := Option.some.inj (hstands.getElem?_left.symm.trans hstart)
    obtain rfl := Option.some.inj (hstands.getElem?_finish.symm.trans hfinish)
    exact ⟨.union sets, hstands.getElem?_collapse_start, hstands.contains_union_iff⟩
  · obtain rfl := Option.some.inj (hstands.getElem?_finish.symm.trans hfinish)
    exact hstands.getElem?_collapse_finish
  · obtain ⟨k, rfl⟩ := Nat.exists_eq_add_of_le (Nat.succ_le_of_lt hfirst)
    have hk : k < inner.length := by omega
    rw [hstands.getElem?_inner hk, List.getElem?_eq_getElem hk] at hnode
    obtain rfl := Option.some.inj hnode
    exact hstands.getElem?_collapse_inner hk

/-- A node that is changed belongs to an alternation of choices. -/
theorem getElem?_collapse (h : ∀ a e, Alternation nodes a e → OfChoices nodes a e → ¬ (a ≤ i ∧ i ≤ e)) :
    (collapse nodes)[i]? = nodes[i]? := by
  rcases Collapse.getElem?_rewrite nodes i with hsame | ⟨left, start, inner, finish, sets, right, hstands, hi⟩
  · exact hsame
  · exact absurd hi (h _ _ hstands.alternation hstands.ofChoices)

/-- The start of an alternation that has become a set was that of an alternation of
choices. -/
theorem OfChoices.of_collapsed (halt : Alternation nodes a e) {set : CharSet}
    (h : kindAt? (collapse nodes) a = some (.collapsedStart set)) : OfChoices nodes a e := by
  rcases Collapse.getElem?_rewrite nodes a with
    hsame | ⟨left, start, inner, finish, sets, right, hstands, hfirst, hlast⟩
  · have hkind : kindAt? nodes a = some (.collapsedStart set) := by
      rw [← h, kindAt?, kindAt?, collapse, hsame]
    rw [halt.1] at hkind
    cases hkind
  · obtain rfl : a = left.length := Nat.le_antisymm (hstands.le_of_start halt.1 hlast) hfirst
    obtain rfl := Option.some.inj (halt.2.symm.trans hstands.alternation.2)
    exact hstands.ofChoices

/-- **Collapsing turns the alternations of choices into sets**, and no others; it leaves
all other nodes as they are, and counts the alternations that it rewrites. -/
theorem collapse_iff_ofChoices (nodes : List Node) :
    (∀ a e, Alternation nodes a e →
        ((∃ set, kindAt? (collapse nodes) a = some (.collapsedStart set)) ↔ OfChoices nodes a e) ∧
          (OfChoices nodes a e → BecomesSet nodes (collapse nodes) a e)) ∧
      (∀ i, (∀ a e, Alternation nodes a e → OfChoices nodes a e → ¬ (a ≤ i ∧ i ≤ e)) →
        (collapse nodes)[i]? = nodes[i]?) ∧
      {a | ∃ e, Alternation nodes a e ∧ OfChoices nodes a e}.encard = collapseCount nodes := by
  refine ⟨fun a e halt => ⟨⟨?_, fun h => ?_⟩, fun h => h.becomesSet halt⟩, fun i h => getElem?_collapse h,
    encard_ofChoices nodes⟩
  · rintro ⟨set, hset⟩
    exact .of_collapsed halt hset
  · obtain ⟨left, start, inner, finish, sets, right, hstands, rfl, -⟩ := h.exists_stands halt
    refine ⟨.union sets, ?_⟩
    rw [kindAt?, hstands.getElem?_collapse_start, Option.map_some]
    rfl

/-- The inner alternation becomes a set, the outer one has a group as a branch. -/
example : (NodeList.read .unicode ((Markers.ofPattern? ['(', 'x', '|', '(', 'b', '|', 'c', ')', ')']).getD .empty)
    ['(', 'x', '|', '(', 'b', '|', 'c', ')', ')']).map (fun list => collapseCount list.nodes) = .ok 1 := by rfl

end Node

end RegexAutomaton

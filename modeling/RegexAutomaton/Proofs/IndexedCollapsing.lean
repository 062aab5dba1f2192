/-
Collapsing by index.

The loop rewrites an alternation when it comes to its end, `collapse` when it comes to
its start. No round of the loop changes what `collapse` makes of the nodes
(`rewrite_replaced`), and once the loop is over nothing is left to collapse. Along the
way, only the innermost open alternation can still be one of single choices, and only
if it has not ended yet (`Rewriting.pending`). Offsets that never go down keep every
length from going below zero.
-/
import RegexAutomaton.Indexed.Passes
import RegexAutomaton.Proofs.ChoiceAlternations
import RegexAutomaton.Proofs.IndexedBrackets

namespace RegexAutomaton

/-! ## The branches -/

namespace Indexed

open Checked Collapse

variable {ε : Type} {body : List Node} {sets : List CharSet}

theorem foldl_insert (members ranges : List CharRange) :
    ranges.foldl insert members.eraseDups = (members ++ ranges).eraseDups := by
  induction ranges generalizing members with
  | nil => rw [List.append_nil]; rfl
  | cons r ranges ih => rw [List.foldl_cons, insert_eq, ih, List.append_assoc, List.singleton_append]

/-- The sets of the branches of a body, if each is a single choice. -/
def branchSets? : List Node → Option (List CharSet)
  | [] => none
  | [branch] => (choice? branch.kind).map ([·])
  | branch :: separator :: rest =>
    (choice? branch.kind).bind fun set =>
      if separator.kind = .bar then (branchSets? rest).map (set :: ·) else none

theorem branchSets?_eq_some_iff : branchSets? body = some sets ↔ Choices body sets := by
  constructor
  · intro h
    fun_induction branchSets? body generalizing sets with
    | case1 => cases h
    | case2 branch =>
      obtain ⟨set, hchoice, rfl⟩ := Option.map_eq_some_iff.1 h
      exact .one hchoice
    | case3 branch separator rest ih =>
      obtain ⟨set, hchoice, h⟩ := Option.bind_eq_some_iff.1 h
      split at h
      · next hbar =>
        obtain ⟨later, hlater, rfl⟩ := Option.map_eq_some_iff.1 h
        exact .more hchoice hbar (ih hlater)
      · cases h
  · intro h
    induction h with
    | one hchoice => simp [branchSets?, hchoice]
    | more hchoice hbar _ ih => simp [branchSets?, hchoice, hbar, ih]

/-- A branch adds its ranges. -/
theorem choiceStep_branch (members : List CharRange) (dotted : Bool) (branch : Node) {place : Nat}
    (hplace : place % 2 = 0) :
    (choiceStep (some (members.eraseDups, dotted)) (branch, place) : Checked ε _) =
      answer (.ok ((choice? branch.kind).map fun set =>
        ((members ++ set.members).eraseDups, dotted || set.isAny))) := by
  have hne : place % 2 ≠ 1 := by omega
  rw [choiceStep, if_neg hne]
  cases branch.kind with
  | literal run =>
    rcases run with _ | ⟨c, _ | ⟨d, run⟩⟩
    · rfl
    · show answer (.ok (some (insert members.eraseDups (.single c), dotted))) =
        answer (.ok (some ((members ++ [CharRange.single c]).eraseDups, dotted || false)))
      rw [insert_eq, Bool.or_false]
    · exact if_neg (by simp)
  | bracket set =>
    show answer (.ok (if set.negated then none else some (set.members.foldl insert members.eraseDups, dotted))) =
      answer (.ok ((if set.negated then none else some set).map fun set =>
        ((members ++ set.members).eraseDups, dotted || set.isAny)))
    rw [foldl_insert]
    cases hnegated : set.negated with
    | true => rfl
    | false => simp [CharSet.isAny, hnegated]
  | dot =>
    show answer (.ok (some (members.eraseDups, true))) =
      answer (.ok (some ((members ++ []).eraseDups, dotted || true)))
    rw [List.append_nil, Bool.or_true]
  | _ => rfl

theorem foldlM_choiceStep_none (parts : List (Node × Nat)) :
    (parts.foldlM choiceStep none : Checked ε _) = answer (.ok none) := by
  induction parts with
  | nil => rfl
  | cons part parts ih => exact ih

theorem foldlM_choiceStep (members : List CharRange) (dotted : Bool) {place : Nat} (hplace : place % 2 = 0)
    (hodd : body.length % 2 = 1) :
    ((body.zipIdx place).foldlM choiceStep (some (members.eraseDups, dotted)) : Checked ε _) =
      answer (.ok ((branchSets? body).map fun sets =>
        ((members ++ sets.flatMap CharSet.members).eraseDups, dotted || sets.any CharSet.isAny))) := by
  induction body using branchSets?.induct generalizing members dotted place with
  | case1 => cases hodd
  | case2 branch =>
    rw [List.zipIdx_singleton, List.foldlM_cons, choiceStep_branch members dotted branch hplace, branchSets?]
    cases choice? branch.kind <;> simp [pure_eq]
  | case3 branch separator rest ih =>
    rw [List.zipIdx_cons, List.zipIdx_cons, List.foldlM_cons, choiceStep_branch members dotted branch hplace,
      answer_ok_bind, branchSets?]
    cases hchoice : choice? branch.kind with
    | none => exact foldlM_choiceStep_none _
    | some set =>
      have hodd' : (place + 1) % 2 = 1 := by omega
      have hodd'' : rest.length % 2 = 1 := by
        simp only [List.length_cons] at hodd
        omega
      rw [List.foldlM_cons, Option.map_some, choiceStep, if_pos hodd', Option.bind_some]
      by_cases hbar : separator.kind = .bar
      · rw [if_pos hbar, if_pos hbar]
        rw [pure_eq, answer_ok_bind, ih (members ++ set.members) (dotted || set.isAny) (by omega) hodd'',
          Option.map_map]
        simp only [Function.comp_def, List.flatMap_cons, List.any_cons, List.append_assoc, Bool.or_assoc]
      · rw [if_neg hbar, if_neg hbar]
        exact foldlM_choiceStep_none _

theorem choiceSet?_eq (body : List Node) :
    (choiceSet? body : Checked ε _) = answer (.ok ((branchSets? body).map CharSet.union)) := by
  rw [choiceSet?]
  split
  · next heven =>
    have hnone : branchSets? body = none := Option.eq_none_iff_forall_not_mem.2 fun sets hsets => by
      have := length_of_choices (branchSets?_eq_some_iff.1 hsets)
      omega
    rw [hnone]
    rfl
  · next hodd =>
    have hfound := @foldlM_choiceStep ε body [] false 0 rfl (by omega)
    rw [List.eraseDups_nil] at hfound
    rw [hfound, answer_ok_bind, pure_eq, Option.map_map]
    refine congrArg (fun f => answer (.ok ((branchSets? body).map f))) (funext fun sets => ?_)
    rw [CharSet.union, Function.comp_apply, Bool.false_or, List.nil_append]
    rfl

/-! ## The loop -/

/-- What the rounds before index `i` keep up. -/
structure Rewriting (nodes : List Node) (i : Nat) (s : List Nat × List Node) : Prop where
  same : rewrite false s.2 = rewrite false nodes
  offsets : s.2.map (·.offset) = nodes.map (·.offset)
  nodup : s.1.Nodup
  starts : ∀ p ∈ s.1, p < i ∧ ∃ start, s.2[p]? = some start ∧ start.kind = .alternationStart
  /-- An alternation that is still one of single choices is the innermost open one. -/
  pending : ∀ left start inner finish sets right, Stands s.2 left start inner finish sets right →
    left.length < i → s.1.head? = some left.length ∧ i ≤ left.length + 1 + inner.length

namespace Rewriting

variable {nodes current left inner right : List Node} {starts : List Nat} {i : Nat} {node start finish : Node}

theorem length_eq {s : List Nat × List Node} (h : Rewriting nodes i s) : s.2.length = nodes.length := by
  have := congrArg List.length h.offsets
  rwa [List.length_map, List.length_map] at this

theorem opens (h : Rewriting nodes i (starts, current)) (hnode : current[i]? = some node)
    (hkind : node.kind = .alternationStart) : Rewriting nodes (i + 1) (i :: starts, current) where
  same := h.same
  offsets := h.offsets
  nodup := List.nodup_cons.2 ⟨fun hmem => Nat.lt_irrefl i (h.starts i hmem).1, h.nodup⟩
  starts := List.forall_mem_cons.2 ⟨⟨Nat.lt_succ_self i, node, hnode, hkind⟩, fun p hp =>
    ⟨Nat.lt_succ_of_lt (h.starts p hp).1, (h.starts p hp).2⟩⟩
  pending left start inner finish sets right hstands hlt := by
    rcases Nat.lt_succ_iff_lt_or_eq.1 hlt with hlt | rfl
    · obtain ⟨-, hlast⟩ := h.pending _ _ _ _ _ _ hstands hlt
      rcases hstands.mem_inner_or_eq hnode hlt hlast with ⟨-, hmem⟩ | ⟨-, rfl⟩
      · exact absurd hkind (hstands.inner.ne_start node hmem)
      · rw [hstands.finish] at hkind
        cases hkind
    · exact ⟨rfl, by omega⟩

theorem passes (h : Rewriting nodes i (starts, current)) (hnode : current[i]? = some node)
    (hstart : node.kind ≠ .alternationStart) (hend : node.kind ≠ .alternationEnd) :
    Rewriting nodes (i + 1) (starts, current) where
  same := h.same
  offsets := h.offsets
  nodup := h.nodup
  starts p hp := ⟨Nat.lt_succ_of_lt (h.starts p hp).1, (h.starts p hp).2⟩
  pending left start inner finish sets right hstands hlt := by
    rcases Nat.lt_succ_iff_lt_or_eq.1 hlt with hlt | rfl
    · obtain ⟨hhead, hlast⟩ := h.pending _ _ _ _ _ _ hstands hlt
      refine ⟨hhead, Nat.lt_of_le_of_ne hlast fun heq => ?_⟩
      rcases hstands.mem_inner_or_eq hnode hlt hlast with ⟨hlt, -⟩ | ⟨-, rfl⟩
      · exact Nat.ne_of_lt hlt heq
      · exact hend hstands.finish
    · obtain rfl := Option.some.inj (hnode.symm.trans hstands.getElem?_left)
      exact absurd hstands.start hstart

/-- Where an alternation ends, none is left that is still one of single choices. -/
theorem pending_end (h : Rewriting nodes i (starts, current)) (hnode : current[i]? = some node)
    (hkind : node.kind = .alternationEnd) {sets : List CharSet}
    (hstands : Stands current left start inner finish sets right) (hlt : left.length < i + 1) :
    starts.head? = some left.length ∧ i = left.length + 1 + inner.length := by
  rcases Nat.lt_succ_iff_lt_or_eq.1 hlt with hlt | rfl
  · obtain ⟨hhead, hlast⟩ := h.pending _ _ _ _ _ _ hstands hlt
    refine ⟨hhead, ?_⟩
    rcases hstands.mem_inner_or_eq hnode hlt hlast with ⟨-, hmem⟩ | ⟨heq, -⟩
    · exact absurd hkind (hstands.inner.ne_end node hmem)
    · exact heq
  · obtain rfl := Option.some.inj (hnode.symm.trans hstands.getElem?_left)
    rw [hstands.start] at hkind
    cases hkind

/-- An end without a start is passed over. -/
theorem strays (h : Rewriting nodes i ([], current)) (hnode : current[i]? = some node)
    (hkind : node.kind = .alternationEnd) : Rewriting nodes (i + 1) ([], current) where
  same := h.same
  offsets := h.offsets
  nodup := h.nodup
  starts := nofun
  pending left start inner finish sets right hstands hlt := by
    obtain ⟨hhead, -⟩ := h.pending_end hnode hkind hstands hlt
    cases hhead

/-- The innermost open alternation, at its end. -/
theorem exists_innermost {first : Nat} (h : Rewriting nodes i (first :: starts, current))
    (hnode : current[i]? = some node) :
    ∃ left start inner right, current = left ++ start :: (inner ++ node :: right) ∧ left.length = first ∧
      i = first + 1 + inner.length ∧ start.kind = .alternationStart := by
  obtain ⟨hlt, start, hstart, hkind⟩ := h.starts first List.mem_cons_self
  have hlength := (List.getElem?_eq_some_iff.1 hnode).1
  refine ⟨current.take first, start, (current.drop (first + 1)).take (i - (first + 1)), current.drop (i + 1), ?_, ?_,
    ?_, hkind⟩
  · have hinner : current.drop (first + 1) = (current.drop (first + 1)).take (i - (first + 1)) ++ current.drop i := by
      have hlater : current.drop i = (current.drop (first + 1)).drop (i - (first + 1)) := by
        rw [List.drop_drop, Nat.add_sub_cancel' hlt]
      rw [hlater, List.take_append_drop]
    rw [← drop_of_getElem? hnode, ← hinner, ← drop_of_getElem? hstart, List.take_append_drop]
  · rw [List.length_take]
    omega
  · rw [List.length_take, List.length_drop]
    omega

/-- An alternation that is not one of single choices stays. -/
theorem keeps (h : Rewriting nodes i (left.length :: starts, left ++ start :: (inner ++ finish :: right)))
    (hi : i = left.length + 1 + inner.length) (hnode : (left ++ start :: (inner ++ finish :: right))[i]? = some finish)
    (hfinish : finish.kind = .alternationEnd) (hinner : ∀ sets, ¬ Choices inner sets) :
    Rewriting nodes (i + 1) (starts, left ++ start :: (inner ++ finish :: right)) where
  same := h.same
  offsets := h.offsets
  nodup := h.nodup.of_cons
  starts p hp := by
    obtain ⟨hlt, hstart⟩ := h.starts p (List.mem_cons_of_mem _ hp)
    exact ⟨Nat.lt_succ_of_lt hlt, hstart⟩
  pending left' start' inner' finish' sets right' hstands hlt := by
    obtain ⟨hhead, hlast⟩ := h.pending_end hnode hfinish hstands hlt
    have hlength := Option.some.inj hhead
    obtain ⟨rfl, heq⟩ := List.append_inj hstands.eq hlength
    have heq := (List.cons.inj heq).2
    obtain ⟨rfl, -⟩ := List.append_inj (heq.trans (List.append_assoc ..)) (by omega)
    exact absurd hstands.inner (hinner sets)

/-- An alternation of single choices becomes a set. -/
theorem becomes (h : Rewriting nodes i (left.length :: starts, left ++ start :: (inner ++ finish :: right)))
    (hi : i = left.length + 1 + inner.length) (hstart : start.kind = .alternationStart)
    (hfinish : finish.kind = .alternationEnd) {sets : List CharSet} (hinner : Choices inner sets) :
    Rewriting nodes (i + 1) (starts, left ++ (replaced start inner finish sets ++ right)) where
  same := by
    have hwhole : left ++ start :: (inner ++ finish :: right) = left ++ (whole start inner finish ++ right) := by
      simp [whole]
    rw [rewrite_replaced hstart hinner hfinish, ← h.same, hwhole]
  offsets := by
    rw [← h.offsets]
    simp [replaced, Node.asSet, hollow, Function.comp_def]
  nodup := h.nodup.of_cons
  starts p hp := by
    obtain ⟨hlt, start', hstart', hkind⟩ := h.starts p (List.mem_cons_of_mem _ hp)
    refine ⟨Nat.lt_succ_of_lt hlt, start', ?_, hkind⟩
    have hne : p ≠ left.length := fun heq => (List.nodup_cons.1 h.nodup).1 (heq ▸ hp)
    rcases Nat.lt_or_gt_of_ne hne with hbefore | hafter
    · rwa [List.getElem?_append_left hbefore] at hstart' ⊢
    · obtain ⟨k, rfl⟩ := Nat.exists_eq_add_of_lt hafter
      have hplace : left.length + k + 1 - left.length = k + 1 := by omega
      rw [List.getElem?_append_right (by omega), hplace, List.getElem?_cons_succ,
        List.getElem?_append_left (by omega)] at hstart'
      exact absurd hkind (hinner.ne_start start' (List.mem_of_getElem? hstart'))
  pending left' start' inner' finish' sets' right' hstands hlt := by
    obtain ⟨hbefore, inner'', right'', hstands⟩ :=
      hstands.exists_of_replaced (by omega) (start :: (inner ++ finish :: right))
    obtain ⟨hhead, -⟩ := h.pending _ _ _ _ _ _ hstands (by omega)
    exact absurd (Option.some.inj hhead) (Nat.ne_of_gt hbefore)

end Rewriting

variable {nodes : List Node}

theorem hollow_between (left : List Node) (start : Node) (inner : List Node) (finish : Node) (right : List Node)
    {i : Nat} (hi : i = left.length + 1 + inner.length) :
    (changeAll (left ++ start :: (inner ++ finish :: right)) (left.length + 1) i hollow : Checked ε _) =
      answer (.ok (left ++ start :: (inner.map hollow ++ finish :: right))) := by
  have hchange := @changeAll_eq ε _ (left ++ [start]) inner (finish :: right) hollow
  rw [List.length_append] at hchange
  simp only [List.append_assoc, List.singleton_append] at hchange
  rw [hi]
  exact hchange

theorem change_last (left : List Node) (start : Node) (inner : List Node) (finish : Node) (right : List Node) {i : Nat}
    (hi : i = left.length + 1 + inner.length) (f : Node → Node) :
    (change (left ++ start :: (inner ++ finish :: right)) i f : Checked ε _) =
      answer (.ok (left ++ start :: (inner ++ f finish :: right))) := by
  have hlength : i = (left ++ start :: inner).length := by
    rw [List.length_append, List.length_cons]
    omega
  have hchange := @change_middle ε _ (left ++ start :: inner) finish right f i hlength
  simpa only [List.append_assoc, List.cons_append] using hchange

/-- A round of the loop is never stuck. -/
theorem exists_collapseStep (hordered : (nodes.map (·.offset)).Pairwise (· ≤ ·)) {i : Nat} (hi : i < nodes.length)
    {s : List Nat × List Node} (h : Rewriting nodes i s) :
    ∃ s', (collapseStep s i : Checked ε _) = answer (.ok s') ∧ Rewriting nodes (i + 1) s' := by
  obtain ⟨starts, current⟩ := s
  obtain ⟨finish, hnode⟩ : ∃ node, current[i]? = some node :=
    ⟨_, List.getElem?_eq_getElem (h.length_eq.symm ▸ hi)⟩
  rw [collapseStep, entry_eq hnode, answer_ok_bind]
  by_cases hstart : finish.kind = .alternationStart
  · rw [hstart]
    exact ⟨_, rfl, h.opens hnode hstart⟩
  by_cases hend : finish.kind = .alternationEnd
  · rw [hend]
    cases starts with
    | nil => exact ⟨_, rfl, h.strays hnode hend⟩
    | cons first starts =>
      obtain ⟨left, start, inner, right, rfl, rfl, hlast, hkind⟩ := h.exists_innermost hnode
      have hslice : (slice (left ++ start :: (inner ++ finish :: right)) (left.length + 1) i : Checked ε _) =
          answer (.ok inner) := by
        have hdrop : (left ++ start :: (inner ++ finish :: right)).drop (left.length + 1) =
            inner ++ finish :: right := by
          rw [← List.drop_drop, List.drop_left, List.drop_one, List.tail_cons]
        exact slice_of_drop hdrop (by simp) hlast
      dsimp only
      rw [hslice, answer_ok_bind, choiceSet?_eq, answer_ok_bind]
      cases hsets : branchSets? inner with
      | none =>
        refine ⟨_, rfl, h.keeps hlast hnode hend fun sets hinner => ?_⟩
        rw [branchSets?_eq_some_iff.2 hinner] at hsets
        cases hsets
      | some sets =>
        refine ⟨_, ?_, h.becomes hlast hkind hend (branchSets?_eq_some_iff.1 hsets)⟩
        have hle : start.offset ≤ finish.offset := by
          rw [← h.offsets, List.map_append, List.pairwise_append, List.map_cons, List.pairwise_cons] at hordered
          exact hordered.2.1.1 _ (by simp)
        rw [Option.map_some]
        dsimp only
        rw [entry_middle left start _ rfl, answer_ok_bind, sub_eq hle, answer_ok_bind, change_middle left start _ _ rfl,
          answer_ok_bind]
        refine (congrArg (· >>= _) (hollow_between left _ inner finish right hlast)).trans ?_
        rw [answer_ok_bind, change_last left _ (inner.map hollow) finish right (by rw [List.length_map, hlast]),
          answer_ok_bind]
        simp [replaced, Node.asSet, pure_eq]
  · refine ⟨(starts, current), ?_, h.passes hnode hstart hend⟩
    cases hkind : finish.kind <;> first | rfl | contradiction

/-- **Alternations are collapsed by index as from the left.** -/
theorem collapse_eq (hordered : (nodes.map (·.offset)).Pairwise (· ≤ ·)) :
    (collapse nodes : Checked ε _) = answer (.ok (RegexAutomaton.collapse nodes)) := by
  have hfirst : Rewriting nodes 0 ([], nodes) :=
    ⟨rfl, rfl, .nil, nofun, fun _ _ _ _ _ _ _ hlt => absurd hlt (Nat.not_lt_zero _)⟩
  have hround (i : Nat) (hi : i < nodes.length) (s : List Nat × List Node) (h : Rewriting nodes i s) :
      ∃ s', (collapseStep s i : Checked ε _) = answer (.ok s') ∧ Rewriting nodes (i + 1) s' :=
    exists_collapseStep hordered hi h
  obtain ⟨⟨starts, current⟩, hloop, hlast⟩ := exists_foldlM_range hfirst hround
  have hcurrent : rewrite false current = current := by
    refine rewrite_eq_self fun left start inner finish sets right hstands => ?_
    have hlength : left.length + inner.length + 2 ≤ nodes.length := by
      rw [← hlast.length_eq, hstands.eq]
      simp only [whole, List.length_append, List.length_cons, List.length_nil]
      omega
    obtain ⟨-, hle⟩ := hlast.pending _ _ _ _ _ _ hstands (by omega)
    omega
  rw [collapse, hloop, answer_ok_bind]
  show answer (.ok current) = answer (.ok (rewrite false nodes))
  rw [← hcurrent, hlast.same]

end Indexed

end RegexAutomaton

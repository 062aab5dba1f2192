/-
Alternations of single choices in a list of nodes.

`Collapse.Stands` says where such an alternation stands. Collapsing turns it, as a
whole, into what `replaced` gives (`rewrite_whole`) and goes on after it
(`rewrite_induction`); a list with none is not changed (`rewrite_eq_self`).
-/
import RegexAutomaton.Proofs.RewritingOrder

namespace RegexAutomaton

namespace Collapse

variable {inner left right : List Node} {sets : List CharSet} {start finish : Node}

theorem choices?_of_choices (h : Choices inner sets) (hfinish : finish.kind = .alternationEnd) (later : List Node) :
    choices? (inner ++ finish :: later) = some (sets, finish) := by
  induction h with
  | one hchoice => simp [choices?, hchoice, hfinish]
  | more hchoice hbar _ ih => simp [choices?, hchoice, hbar, ih]

/-- Bars part the choices, so there is one more of these. -/
theorem length_of_choices (h : Choices inner sets) : inner.length % 2 = 1 := by
  induction h with
  | one => rfl
  | more _ _ _ ih => simpa [Nat.add_assoc] using ih

/-- The start of no alternation is a branch of one, or stands between two. -/
theorem Choices.ne_start (h : Choices inner sets) : ∀ node ∈ inner, node.kind ≠ .alternationStart := by
  intro node hnode hstart
  rcases h.forall_mem node hnode with hbar | hchoice
  · rw [hstart] at hbar
    cases hbar
  · rw [hstart] at hchoice
    cases hchoice

/-- Nodes that start no alternation stay as they are. -/
theorem rewrite_append_of_ne_start (h : ∀ node ∈ left, node.kind ≠ .alternationStart) :
    rewrite false (left ++ right) = left ++ rewrite false right := by
  induction left with
  | nil => rfl
  | cons node left ih =>
    obtain ⟨hnode, hleft⟩ := List.forall_mem_cons.1 h
    rw [List.cons_append, rewrite_kept fun hstart => absurd hstart hnode, ih hleft, List.cons_append]

/-- An alternation of single choices, before and after it is rewritten. -/
def whole (start : Node) (inner : List Node) (finish : Node) : List Node := start :: (inner ++ [finish])

def replaced (start : Node) (inner : List Node) (finish : Node) (sets : List CharSet) : List Node :=
  start.asSet finish sets :: (inner.map hollow ++ [{ finish with kind := .collapsedEnd }])

theorem rewrite_whole (hstart : start.kind = .alternationStart) (h : Choices inner sets)
    (hfinish : finish.kind = .alternationEnd) (right : List Node) :
    rewrite false (whole start inner finish ++ right) = replaced start inner finish sets ++ rewrite false right := by
  have hlist : whole start inner finish ++ right = start :: (inner ++ finish :: right) := by simp [whole]
  rw [hlist, rewrite_start hstart (choices?_of_choices h hfinish right), rewrite_inside finish right h.ne_end hfinish]
  simp [replaced]

/-- **Collapsing goes on node by node**, but over an alternation of single choices at
once. -/
theorem rewrite_induction {motive : List Node → List Node → Prop} (nil : motive [] [])
    (keep : ∀ node rest, (node.kind = .alternationStart → choices? rest = none) →
      motive rest (rewrite false rest) → motive (node :: rest) (node :: rewrite false rest))
    (set : ∀ start inner finish sets right, start.kind = .alternationStart → Choices inner sets →
      finish.kind = .alternationEnd → motive right (rewrite false right) →
      motive (whole start inner finish ++ right) (replaced start inner finish sets ++ rewrite false right))
    (nodes : List Node) : motive nodes (rewrite false nodes) := by
  -- On the length, because a whole alternation is rewritten at once.
  induction hlen : nodes.length using Nat.strongRecOn generalizing nodes with
  | ind n ih =>
    subst hlen
    cases nodes with
    | nil => exact nil
    | cons node rest =>
      rcases rewrite_cons node rest with ⟨hnone, hkept⟩ | ⟨hstart, sets, finish, hsome, -⟩
      · rw [hkept]
        exact keep node rest hnone (ih rest.length (Nat.lt_succ_self _) rest rfl)
      · obtain ⟨inner, right, rfl, hfinish, hinner⟩ := choices?_eq_some hsome
        have hwhole : node :: (inner ++ finish :: right) = whole node inner finish ++ right := by simp [whole]
        rw [hwhole, rewrite_whole hstart hinner hfinish]
        refine set node inner finish sets right hstart hinner hfinish (ih right.length ?_ right rfl)
        simp only [List.length_cons, List.length_append]
        omega

theorem ne_start_of_mem_replaced {node : Node} (h : node ∈ replaced start inner finish sets) :
    node.kind ≠ .alternationStart := by
  simp only [replaced, List.mem_cons, List.mem_append, List.mem_map, List.not_mem_nil, or_false] at h
  rcases h with rfl | ⟨node, -, rfl⟩ | rfl <;> simp [Node.asSet, hollow]

theorem rewrite_replaced_right (start : Node) (inner : List Node) (finish : Node) (sets : List CharSet)
    (right : List Node) :
    rewrite false (replaced start inner finish sets ++ right) =
      replaced start inner finish sets ++ rewrite false right :=
  rewrite_append_of_ne_start fun _ => ne_start_of_mem_replaced

/-- No choice goes on over such a node. -/
def Blocks (node : Node) : Prop := choice? node.kind = none ∧ node.kind ≠ .bar ∧ node.kind ≠ .alternationEnd

theorem blocks_asSet (start finish : Node) (sets : List CharSet) : Blocks (start.asSet finish sets) :=
  ⟨rfl, by simp [Node.asSet], by simp [Node.asSet]⟩

theorem blocks_start (h : start.kind = .alternationStart) : Blocks start := by
  refine ⟨?_, ?_, ?_⟩ <;> rw [h]
  · rfl
  · exact nofun
  · exact nofun

/-- What is from such a node on plays no part in the choices before it. -/
theorem exists_of_choices?_append {node : Node} (hblocks : Blocks node)
    (h : choices? (left ++ node :: right) = some (sets, finish)) :
    ∃ inner later, left = inner ++ finish :: later ∧ finish.kind = .alternationEnd ∧ Choices inner sets := by
  obtain ⟨hchoice, hbar, hend⟩ := hblocks
  obtain ⟨inner, later, heq, hfinish, hinner⟩ := choices?_eq_some h
  have hne : node ≠ finish := fun hsame => hend (hsame ▸ hfinish)
  have hnotMem : node ∉ inner := fun hmem => by
    rcases hinner.forall_mem node hmem with hkind | hsome
    · exact hbar hkind
    · rw [hchoice] at hsome
      cases hsome
  rcases List.append_eq_append_iff.1 heq with ⟨between, rfl, hrest⟩ | ⟨between, rfl, hrest⟩
  · cases between with
    | nil => exact absurd (List.cons.inj hrest).1 hne
    | cons first between =>
      obtain ⟨rfl, -⟩ := List.cons.inj hrest
      exact absurd (List.mem_append_right left List.mem_cons_self) hnotMem
  · cases between with
    | nil => exact absurd (List.cons.inj hrest).1.symm hne
    | cons first between =>
      obtain ⟨rfl, -⟩ := List.cons.inj hrest
      exact ⟨inner, between, rfl, hfinish, hinner⟩

/-- What is left of such a node is rewritten by itself. -/
theorem rewrite_append_of_blocks {node : Node} (hblocks : Blocks node) (left right : List Node) :
    rewrite false (left ++ node :: right) = rewrite false left ++ rewrite false (node :: right) := by
  induction left using rewrite_induction with
  | nil => rfl
  | keep head left hnone ih =>
    rw [List.cons_append, rewrite_kept, ih, List.cons_append]
    intro hstart
    refine Option.eq_none_iff_forall_not_mem.2 fun ⟨sets, finish⟩ hsome => ?_
    obtain ⟨inner, later, rfl, hfinish, hinner⟩ := exists_of_choices?_append hblocks hsome
    rw [choices?_of_choices hinner hfinish] at hnone
    cases hnone hstart
  | set start inner finish sets later hstart hinner hfinish ih =>
    rw [List.append_assoc, rewrite_whole hstart hinner hfinish, ih, List.append_assoc]

/-- Rewriting an alternation in place changes nothing about what collapsing gives. -/
theorem rewrite_replaced (hstart : start.kind = .alternationStart) (h : Choices inner sets)
    (hfinish : finish.kind = .alternationEnd) (left right : List Node) :
    rewrite false (left ++ (replaced start inner finish sets ++ right)) =
      rewrite false (left ++ (whole start inner finish ++ right)) := by
  have hsame := (rewrite_replaced_right start inner finish sets right).trans (rewrite_whole hstart h hfinish right).symm
  rw [replaced, List.cons_append] at hsame ⊢
  rw [whole, List.cons_append] at hsame ⊢
  rw [rewrite_append_of_blocks (blocks_asSet start finish sets), hsame, rewrite_append_of_blocks (blocks_start hstart)]

/-- An alternation of single choices stands in a list. -/
structure Stands (nodes left : List Node) (start : Node) (inner : List Node) (finish : Node) (sets : List CharSet)
    (right : List Node) : Prop where
  eq : nodes = left ++ (whole start inner finish ++ right)
  start : start.kind = .alternationStart
  inner : Choices inner sets
  finish : finish.kind = .alternationEnd

namespace Stands

variable {nodes : List Node} {i : Nat} {node : Node}

theorem getElem?_left (h : Stands nodes left start inner finish sets right) : nodes[left.length]? = some start := by
  rw [h.eq, List.getElem?_append_right (Nat.le_refl _), Nat.sub_self]
  rfl

/-- What is between its start and its end. -/
theorem mem_inner_or_eq (h : Stands nodes left start inner finish sets right) (hnode : nodes[i]? = some node)
    (hi : left.length < i) (hlast : i ≤ left.length + 1 + inner.length) :
    (i < left.length + 1 + inner.length ∧ node ∈ inner) ∨ i = left.length + 1 + inner.length ∧ node = finish := by
  obtain ⟨k, rfl⟩ := Nat.exists_eq_add_of_lt hi
  have hplace : left.length + k + 1 - left.length = k + 1 := by omega
  rw [h.eq, List.getElem?_append_right (by omega), hplace, whole, List.cons_append, List.getElem?_cons_succ,
    List.append_assoc] at hnode
  by_cases hk : k < inner.length
  · rw [List.getElem?_append_left hk] at hnode
    exact .inl ⟨by omega, List.mem_of_getElem? hnode⟩
  · obtain rfl : k = inner.length := by omega
    rw [List.getElem?_append_right (Nat.le_refl _), Nat.sub_self] at hnode
    exact .inr ⟨by omega, (Option.some.inj hnode).symm⟩

/-- Up to the end of a rewritten alternation, others can only start before it, and do so
whatever comes then. -/
theorem exists_of_replaced {left' inner' right' : List Node} {start' finish' : Node} {sets' : List CharSet}
    (h : Stands (left ++ (replaced start inner finish sets ++ right)) left' start' inner' finish' sets' right')
    (hlt : left'.length < left.length + 2 + inner.length) (later : List Node) :
    left'.length < left.length ∧
      ∃ inner'' right'', Stands (left ++ later) left' start' inner'' finish' sets' right'' := by
  have hbefore : left'.length < left.length := by
    by_contra hge
    have hhere := h.getElem?_left
    have hinside : left'.length - left.length < (replaced start inner finish sets).length := by
      simp only [replaced, List.length_cons, List.length_append, List.length_map, List.length_nil]
      omega
    rw [List.getElem?_append_right (Nat.not_lt.1 hge), List.getElem?_append_left hinside] at hhere
    exact ne_start_of_mem_replaced (List.mem_of_getElem? hhere) h.start
  obtain ⟨between, rfl, hlater⟩ : ∃ between, left = left' ++ start' :: between ∧
      between ++ (replaced start inner finish sets ++ right) = inner' ++ finish' :: right' := by
    rcases List.append_eq_append_iff.1 h.eq with ⟨between, rfl, -⟩ | ⟨between, rfl, heq⟩
    · simp only [List.length_append] at hbefore
      omega
    · cases between with
      | nil => simp at hbefore
      | cons first between =>
        obtain ⟨rfl, hrest⟩ := List.cons.inj heq
        exact ⟨between, rfl, hrest.symm.trans (List.append_assoc inner' [finish'] right')⟩
  have hchoices := choices?_of_choices h.inner h.finish right'
  rw [← hlater] at hchoices
  obtain ⟨inner'', rest, rfl, -, hinner''⟩ := exists_of_choices?_append (blocks_asSet start finish sets) hchoices
  exact ⟨hbefore, inner'', rest ++ later, by simp [whole], h.start, hinner'', h.finish⟩

end Stands

/-- What has no such alternation is not changed. -/
theorem rewrite_eq_self {nodes : List Node}
    (h : ∀ left start inner finish sets right, ¬ Stands nodes left start inner finish sets right) :
    rewrite false nodes = nodes := by
  induction nodes with
  | nil => rfl
  | cons node rest ih =>
    rw [rewrite_kept, ih]
    · intro left start inner finish sets right hstands
      refine h (node :: left) start inner finish sets right ⟨?_, hstands.start, hstands.inner, hstands.finish⟩
      rw [List.cons_append, ← hstands.eq]
    · intro hstart
      refine Option.eq_none_iff_forall_not_mem.2 fun ⟨sets, finish⟩ hsome => ?_
      obtain ⟨inner, later, rfl, hfinish, hinner⟩ := choices?_eq_some hsome
      exact h [] node inner finish sets later ⟨by simp [whole], hstart, hinner, hfinish⟩

end Collapse

end RegexAutomaton

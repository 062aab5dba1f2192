/-
The passes by index, one after the other.

The nodes that a pattern is read into come from places in order (`ordered_of_read`), and
collapsing moves none of them, so that every pass finds what it needs. Together they do
what the options ask for (`runPasses_eq`).
-/
import RegexAutomaton.Proofs.IndexedCoalescing
import RegexAutomaton.Proofs.IndexedCollapsing
import RegexAutomaton.Proofs.IndexedLinking
import RegexAutomaton.Proofs.MarkerOffsets

namespace RegexAutomaton

/-! ## Offsets in order -/

namespace Markers

variable {m : Markers} {first stop opened : Nat} {ts : List (Spanned Token)}

theorem offset_of_mem_itemsAt {item : Spanned Item} {offset : Nat} (h : item ∈ m.itemsAt opened offset) :
    item.offset = offset := by
  rw [itemsAt, List.mem_append] at h
  rcases h with h | h <;> split at h <;> simp at h <;> rw [h]

/-- The items of a pattern are in order, between the ends of its tokens. -/
theorem ordered_weave (h : Spanned.Tiles first ts stop) :
    ((m.weave stop opened ts).map (·.offset)).Pairwise (· ≤ ·) ∧
      ∀ item ∈ m.weave stop opened ts, first ≤ item.offset ∧ item.offset ≤ stop := by
  have hmarkers (opened offset : Nat) (later : List (Spanned Item)) (hlater : ∀ item ∈ later, offset ≤ item.offset)
      (hordered : (later.map (·.offset)).Pairwise (· ≤ ·)) :
      ((m.itemsAt opened offset ++ later).map (·.offset)).Pairwise (· ≤ ·) := by
    rw [List.pairwise_map] at hordered ⊢
    refine List.pairwise_append.2 ⟨List.pairwise_of_forall_mem_list fun item hitem item' hitem' => ?_, hordered,
      fun item hitem item' hitem' => ?_⟩
    · rw [offset_of_mem_itemsAt hitem, offset_of_mem_itemsAt hitem']
    · rw [offset_of_mem_itemsAt hitem]
      exact hlater item' hitem'
  induction ts generalizing first opened with
  | nil =>
    obtain rfl : first = stop := h
    rw [weave, ← List.append_nil (m.itemsAt opened first)]
    refine ⟨hmarkers opened first [] (by simp) .nil, fun item hitem => ?_⟩
    rw [List.append_nil] at hitem
    rw [offset_of_mem_itemsAt hitem]
    exact ⟨Nat.le_refl _, Nat.le_refl _⟩
  | cons t ts ih =>
    obtain ⟨rfl, hpos, hrest⟩ := h
    obtain ⟨hordered, hbounds⟩ := @ih _ (m.openedAfter opened t.offset) hrest
    have hfinish : t.offset ≤ t.finish := Nat.le_add_right ..
    have hstop := hrest.le
    have hlater : ∀ item ∈ t.map .token :: m.weave stop (m.openedAfter opened t.offset) ts,
        t.offset ≤ item.offset ∧ item.offset ≤ stop := by
      refine List.forall_mem_cons.2 ⟨⟨Nat.le_refl _, Nat.le_trans hfinish hstop⟩, fun item hitem => ?_⟩
      exact ⟨Nat.le_trans hfinish (hbounds item hitem).1, (hbounds item hitem).2⟩
    rw [weave]
    refine ⟨hmarkers _ _ _ (fun item hitem => (hlater item hitem).1) ?_, fun item hitem => ?_⟩
    · rw [List.map_cons, List.pairwise_cons]
      refine ⟨fun offset hoffset => ?_, hordered⟩
      obtain ⟨item, hitem, rfl⟩ := List.mem_map.1 hoffset
      exact (hlater item (List.mem_cons_of_mem _ hitem)).1
    · rcases List.mem_append.1 hitem with hitem | hitem
      · rw [offset_of_mem_itemsAt hitem]
        exact ⟨Nat.le_refl _, Nat.le_trans hfinish hstop⟩
      · exact hlater item hitem

end Markers

theorem Node.map_offset_ofItems (index : Nat) (groups : List Nat) (items : List (Spanned Item)) :
    (ofItems index groups items).map (·.offset) = items.map (·.offset) := by
  induction items generalizing index groups with
  | nil => rfl
  | cons item items ih =>
    rw [ofItems, List.map_cons, ih, List.map_cons]
    rfl

/-- **The nodes of a pattern come from places in order.** -/
theorem Node.ordered_of_read {encoding : Encoding} {m : Markers} {pattern : List Char} {list : NodeList}
    (h : NodeList.read encoding m pattern = .ok list) : (list.nodes.map (·.offset)).Pairwise (· ≤ ·) := by
  obtain ⟨⟨⟩, -, rfl⟩ := map_eq_ok_iff.1 h
  obtain ⟨hordered, hbounds⟩ := @Markers.ordered_weave m 0 _ 0 _ (Markers.tiles_tokens encoding pattern)
  rw [NodeList.ofItems, List.map_append, map_offset_ofItems]
  refine List.pairwise_append.2 ⟨hordered, List.pairwise_pair.2 (Nat.le_refl _), fun offset hoffset stop hstop => ?_⟩
  obtain ⟨item, hitem, rfl⟩ := List.mem_map.1 hoffset
  obtain rfl : stop = (tokens encoding pattern).stop := by simpa [bare] using hstop
  exact (hbounds item hitem).2

theorem Collapse.Collapses.map_offset {nodes nodes' : List Node} (h : Collapses nodes nodes') :
    nodes'.map (·.offset) = nodes.map (·.offset) := by
  induction h with
  | nil => rfl
  | keep node _ ih => rw [List.map_cons, List.map_cons, ih]
  | set length _ _ _ _ ih => simp [ih, hollow]

theorem NodeKind.eq_alternationStart_of_ofItem {groups : List Nat} {item : Item}
    (h : ofItem groups item = .alternationStart) : item = .alternationStart := by
  rcases item with (a | _ | _ | _ | _ | _ | _) | _ | _ <;> try cases h
  · cases a <;> cases h
  · rfl

theorem Node.ne_start_of_mem_ofItems {index : Nat} {groups : List Nat} {items : List (Spanned Item)}
    (h : ∀ item ∈ items, item.value ≠ .alternationStart) {node : Node} (hnode : node ∈ ofItems index groups items) :
    node.kind ≠ .alternationStart := by
  induction items generalizing index groups with
  | nil => cases hnode
  | cons item items ih =>
    obtain ⟨hitem, hitems⟩ := List.forall_mem_cons.1 h
    rcases List.mem_cons.1 hnode with rfl | hnode
    · exact fun hkind => hitem (NodeKind.eq_alternationStart_of_ofItem hkind)
    · exact ih hitems hnode

/-- Without an alternation nothing is collapsed. -/
theorem NodeList.collapse_of_alternations {encoding : Encoding} {m : Markers} {pattern : List Char} {list : NodeList}
    (h : read encoding m pattern = .ok list) (hnone : list.alternations = 0) : collapse list.nodes = list.nodes := by
  obtain ⟨⟨⟩, -, rfl⟩ := map_eq_ok_iff.1 h
  have hitems : ∀ item ∈ m.itemsOf (tokens encoding pattern), item.value ≠ .alternationStart := fun item hitem => by
    simpa using List.countP_eq_zero.1 hnone item hitem
  have hkept : ∀ node ∈ (ofItems (m.itemsOf (tokens encoding pattern)) (tokens encoding pattern).stop).nodes,
      node.kind ≠ .alternationStart := fun node hnode => by
    rcases List.mem_append.1 hnode with hnode | hnode
    · exact Node.ne_start_of_mem_ofItems hitems hnode
    · simp only [List.mem_cons, List.not_mem_nil, or_false, or_self] at hnode
      rw [hnode]
      exact fun hkind => by cases hkind
  have hsame := @Collapse.rewrite_append_of_ne_start _ [] hkept
  rwa [List.append_nil, Collapse.rewrite, List.append_nil] at hsame

namespace Indexed

open Checked

/-- **All passes are done by index as the options ask for.** -/
theorem runPasses_eq {encoding : Encoding} {m : Markers} {pattern : List Char} {list : NodeList} {ε : Type}
    (h : NodeList.read encoding m pattern = .ok list) (options : Options) :
    (runPasses options list : Checked ε _) = answer (.ok (list.after options.passes)) := by
  have hordered := Node.ordered_of_read h
  have hwired := Node.wired_of_read h
  have hcollapse : (runIf (options.collapses && 0 < list.alternations) collapse list.nodes : Checked ε _) =
      answer (.ok (Pass.runAll (if options.collapses then [.collapse] else []) list.nodes)) := by
    rw [runIf]
    cases options.collapses with
    | false => rfl
    | true =>
      by_cases hpos : 0 < list.alternations
      · rw [decide_eq_true hpos]
        exact collapse_eq hordered
      · rw [decide_eq_false hpos]
        have hsame := NodeList.collapse_of_alternations h (Nat.eq_zero_of_not_pos hpos)
        exact congrArg (fun nodes => answer (.ok nodes)) hsame.symm
  have hcollapsed : ((Pass.runAll (if options.collapses then [.collapse] else []) list.nodes).map (·.offset)).Pairwise
      (· ≤ ·) := by
    cases options.collapses with
    | false => exact hordered
    | true => exact (Collapse.collapses_rewrite list.nodes).map_offset.symm ▸ hordered
  have hcoalesce (nodes : List Node) (hordered : (nodes.map (·.offset)).Pairwise (· ≤ ·)) :
      (runIf options.coalesces coalesce nodes : Checked ε _) =
        answer (.ok (Pass.runAll (if options.coalesces then [.coalesce] else []) nodes)) := by
    rw [runIf]
    cases options.coalesces with
    | false => rfl
    | true => exact coalesce_eq hordered
  rw [runPasses, hcollapse, answer_ok_bind, hcoalesce _ hcollapsed, answer_ok_bind,
    linkNodes_eq (Pass.wired_runAll _ (Pass.wired_runAll _ hwired)), answer_ok_bind, NodeList.after, Options.passes,
    Pass.runAll_append, Pass.runAll_append]
  rfl

end Indexed

end RegexAutomaton

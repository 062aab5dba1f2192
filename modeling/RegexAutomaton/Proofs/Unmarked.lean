/-
Patterns read without markers.

Markers say where alternations lie and nothing else. A pattern is read with them if
and only if it is read without, and then the nodes are the same up to the nodes of
the markers and the numbers of those that come after them (`withoutMarkers_ofItems`);
if it is not read, the fault found is the same, unless the pattern ends with a bar
inside a group (`read_unmarked`).
-/
import RegexAutomaton.Proofs.Composition
import RegexAutomaton.Proofs.MarkedCheck

namespace RegexAutomaton

/-! ## Nodes without markers -/

/-- Whether the node is the start or the end of an alternation. -/
def NodeKind.isMarker : NodeKind → Bool
  | alternationStart | alternationEnd => true
  | _ => false

/-- The same kind, with other numbers for nodes. -/
def NodeKind.renumber (f : Nat → Nat) : NodeKind → NodeKind
  | groupClose opened => groupClose (f opened)
  | kind => kind

namespace Node

/-- The same node, with other numbers for nodes. -/
def renumber (f : Nat → Nat) (node : Node) : Node :=
  { node with
    kind := node.kind.renumber f
    next := node.next.map f
    close := node.close.map f
    group := node.group.map f }

/-- The number that the node at an index has once markers are deleted. -/
def unmarkedIndex (nodes : List Node) (index : Nat) : Nat := (nodes.take index).countP (!·.kind.isMarker)

/-- The nodes with markers deleted, and numbered accordingly. -/
def withoutMarkers (nodes : List Node) : List Node :=
  (nodes.filter (!·.kind.isMarker)).map (renumber (unmarkedIndex nodes))

end Node

/-- Whether the item is a token. -/
def Item.isToken (item : Item) : Bool := item.token?.isSome

namespace Node

theorem isMarker_ofItem (groups : List Nat) (item : Spanned Item) :
    (!(ofItem groups item).kind.isMarker) = item.value.isToken := by
  obtain ⟨value, offset, width⟩ := item
  cases value with
  | token t =>
    cases t with
    | atom a => cases a <;> rfl
    | _ => rfl
  | _ => rfl

theorem countP_take_ofItems (index : Nat) (groups : List Nat) (items : List (Spanned Item)) (k : Nat) :
    ((ofItems index groups items).take k).countP (!·.kind.isMarker) = (items.take k).countP (·.value.isToken) := by
  induction items generalizing index groups k with
  | nil => simp [ofItems]
  | cons item items ih =>
    cases k with
    | zero => rfl
    | succ k => simp only [ofItems, List.take_succ_cons, List.countP_cons, ih, isMarker_ofItem]

/-- A token gives the same node, but for the numbers of the groups around it. -/
theorem renumber_ofItem {f : Nat → Nat} (hzero : f 0 = 0) (groups : List Nat) (item : Spanned Item) :
    (ofItem groups item).renumber f = ofItem (groups.map f) item := by
  obtain ⟨value, offset, width⟩ := item
  cases value with
  | token t =>
    cases t with
    | atom a => cases a <;> simp [ofItem, bare, renumber, NodeKind.renumber, NodeKind.ofItem, groupsAround]
    | groupClose =>
      cases groups <;> simp [ofItem, bare, renumber, NodeKind.renumber, NodeKind.ofItem, groupsAround, hzero]
    | _ => simp [ofItem, bare, renumber, NodeKind.renumber, NodeKind.ofItem, groupsAround]
  | _ => simp [ofItem, bare, renumber, NodeKind.renumber, NodeKind.ofItem, groupsAround]

theorem map_groupsAfter (f : Nat → Nat) (index : Nat) (groups : List Nat) (t : Token) :
    (groupsAfter index groups (.token t)).map f = groupsAfter (f index) (groups.map f) (.token t) := by
  cases t <;> simp [groupsAfter]

/-- **Nodes lose their markers as items do**, if their new numbers count the tokens
before them. -/
theorem filter_ofItems {f : Nat → Nat} (hzero : f 0 = 0) {index : Nat} {items : List (Spanned Item)}
    (hf : ∀ k ≤ items.length, f (index + k) = f index + (items.take k).countP (·.value.isToken)) (groups : List Nat) :
    ((ofItems index groups items).filter (!·.kind.isMarker)).map (renumber f) =
      ofItems (f index) (groups.map f) (items.filter (·.value.isToken)) := by
  induction items generalizing index groups with
  | nil => rfl
  | cons item items ih =>
    have hnext := hf 1 (by simp)
    rw [List.take_succ_cons, List.take_zero, List.countP_singleton] at hnext
    have hrest : ∀ k ≤ items.length,
        f (index + 1 + k) = f (index + 1) + (items.take k).countP (·.value.isToken) := fun k hk => by
      have := hf (k + 1) (Nat.succ_le_succ hk)
      rw [List.take_succ_cons, List.countP_cons] at this
      rw [Nat.add_assoc, Nat.add_comm 1 k, this, hnext]
      omega
    rw [ofItems, List.filter_cons, isMarker_ofItem, List.filter_cons]
    obtain ⟨value, offset, width⟩ := item
    cases value with
    | token t =>
      have hindex : f (index + 1) = f index + 1 := hnext
      have htoken : (Item.token t).isToken = true := rfl
      rw [if_pos htoken, if_pos htoken, List.map_cons, ih hrest, renumber_ofItem hzero, map_groupsAfter, hindex,
        ofItems]
    | _ =>
      have hindex : f (index + 1) = f index := hnext
      rw [← hindex]
      exact ih hrest groups

/-- **Nodes made from items with markers are those made from the tokens alone.** -/
theorem withoutMarkers_ofItems (items : List (Spanned Item)) (stop : Nat) :
    withoutMarkers (ofItems 0 [] items ++ [.bare .sentinel stop 0 none, .bare .sentinel stop 0 none]) =
      ofItems 0 [] (items.filter (·.value.isToken)) ++
        [.bare .sentinel stop 0 none, .bare .sentinel stop 0 none] := by
  generalize hsentinels : [bare .sentinel stop 0 none, bare .sentinel stop 0 none] = sentinels
  have hcount : ∀ k ≤ items.length, unmarkedIndex (ofItems 0 [] items ++ sentinels) (0 + k) =
      unmarkedIndex (ofItems 0 [] items ++ sentinels) 0 + (items.take k).countP (·.value.isToken) := fun k hk => by
    rw [← length_ofItems 0 [] items] at hk
    simp only [unmarkedIndex, Nat.zero_add, List.take_append_of_le_length hk, countP_take_ofItems, List.take_zero,
      List.countP_nil]
  rw [withoutMarkers, List.filter_append, List.map_append, filter_ofItems rfl hcount, ← hsentinels]
  rfl

end Node

/-! ## Items without markers -/

namespace Markers

theorem filter_itemsAt (m : Markers) (opened offset : Nat) :
    (m.itemsAt opened offset).filter (·.value.isToken) = [] := by
  unfold itemsAt
  split <;> split <;> rfl

/-- Without the markers, items are the tokens between which these were put. -/
theorem filter_itemsOf {ε : Type} (m : Markers) (scan : Scan Token ε) :
    (m.itemsOf scan).filter (·.value.isToken) = empty.itemsOf scan := by
  rw [itemsOf, itemsOf, weave_empty]
  generalize scan.pieces = ts
  generalize 0 = opened
  induction ts generalizing opened with
  | nil => exact filter_itemsAt m opened scan.stop
  | cons t ts ih =>
    rw [weave_cons, List.filter_append, filter_itemsAt, List.nil_append, List.filter_cons_of_pos rfl, ih, List.map_cons]

end Markers

/-- A bar ends the pattern while a group is open. -/
def Token.EndsWithBarInGroup (encoding : Encoding) (pattern : List Char) : Prop :=
  (tokens encoding pattern).reason = none ∧ (listing encoding pattern).getLast? = some .bar ∧
    ∃ depth, depthAfter? 0 (listing encoding pattern) = some (depth + 1)

namespace NodeList

variable {encoding : Encoding} {pattern : List Char}

/-- Markers open no groups. -/
theorem groupCount_ofItems (items : List (Spanned Item)) (stop : Nat) :
    (ofItems (items.filter (·.value.isToken)) stop).groupCount = (ofItems items stop).groupCount := by
  show (items.filter _).countP _ = items.countP _
  rw [List.countP_filter]
  refine List.countP_congr fun item _ => ?_
  simp only [Bool.and_eq_true, beq_iff_eq]
  refine and_iff_left_of_imp fun hopen => ?_
  rw [hopen]
  rfl

/-- A pattern that is cut short ends with a bar in a group that is never closed. -/
theorem endsWithBarInGroup_of_cutShort (h : Markers.CutShort encoding pattern) :
    Token.EndsWithBarInGroup encoding pattern := by
  obtain ⟨groups, hgroups, hcheck⟩ := h.check_eq
  refine ⟨h.reason_eq, (Grammar.last_eq_bar_iff hcheck).1 rfl, groups.length - 1, ?_⟩
  rw [Nat.sub_add_cancel (List.length_pos_of_ne_nil hgroups)]
  exact Grammar.depthAfter?_of_checkItems hcheck

/-- Without markers, it is the group that is to blame. -/
theorem exists_checkPattern_of_cutShort (h : Markers.CutShort encoding pattern) :
    ∃ o, Grammar.checkPattern encoding .empty pattern = .error ⟨.unclosedGroup, o⟩ := by
  obtain ⟨groups, hgroups, hcheck⟩ := h.check_eq
  obtain ⟨o, groups, rfl⟩ := List.exists_cons_of_ne_nil hgroups
  exact ⟨o, by rw [Grammar.checkPattern_empty, hcheck, h.reason_eq]; rfl⟩

/-- The items of a pattern that is read tell the same with markers and without. -/
theorem neverMatches_itemsOf (h : Grammar.checkPattern encoding .empty pattern = .ok ()) :
    Liveness.neverMatches (((Markers.ofPattern? pattern).getD .empty).itemsOf (tokens encoding pattern)) =
      Liveness.neverMatches (Markers.empty.itemsOf (tokens encoding pattern)) := by
  obtain ⟨p, hp⟩ := Grammar.exists_reads_of_check h
  rw [Markers.itemsOf_eq_body hp, Liveness.neverMatches_body, Markers.itemsOf, Markers.weave_empty, tokens_of_reads hp,
    Liveness.neverMatches_tokens]

/-- **Markers never change what is read**: with them and without, a pattern is read or
not, with as many groups, matching never or not, and with the same nodes but for those
of the markers. What is wrong with it is the same too, unless it ends with a bar in a
group. -/
theorem read_unmarked (encoding : Encoding) (pattern : List Char) :
    match read encoding ((Markers.ofPattern? pattern).getD .empty) pattern, read encoding .empty pattern with
    | .ok marked, .ok plain =>
      marked.groupCount = plain.groupCount ∧ marked.neverMatches = plain.neverMatches ∧
        Node.withoutMarkers marked.nodes = plain.nodes
    | .error e, .error e' => e = e' ∨ Token.EndsWithBarInGroup encoding pattern
    | _, _ => False := by
  rw [read_eq, read_eq]
  by_cases hshort : Markers.CutShort encoding pattern
  · obtain ⟨o, ho⟩ := exists_checkPattern_of_cutShort hshort
    rw [Grammar.checkPattern_of_cutShort hshort, ho]
    exact .inr (endsWithBarInGroup_of_cutShort hshort)
  · rw [Grammar.checkPattern_marked hshort]
    cases hcheck : Grammar.checkPattern encoding .empty pattern with
    | error e => exact .inl rfl
    | ok u =>
      refine ⟨?_, neverMatches_itemsOf hcheck, ?_⟩
      · rw [← Markers.filter_itemsOf ((Markers.ofPattern? pattern).getD .empty)]
        exact (groupCount_ofItems _ _).symm
      · rw [← Markers.filter_itemsOf ((Markers.ofPattern? pattern).getD .empty)]
        exact Node.withoutMarkers_ofItems _ _

end NodeList

end RegexAutomaton

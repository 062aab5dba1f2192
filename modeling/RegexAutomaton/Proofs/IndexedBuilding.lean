/-
Building by index.

Before each round of the loop there is one draft for each node on the left that bears a
state, in the order of the nodes, and it has what the nodes on the left say of that node
(`Keeps`). A round keeps this up with one more node. So every link of a draft leads to a
node, and every number of a state to a draft, and the states that the drafts turn into are
those of `Automaton.ofNodeList` (`build_eq`).
-/
import RegexAutomaton.Proofs.IndexedDrafts
import RegexAutomaton.Proofs.IndexedLinking
import RegexAutomaton.Proofs.Wiring

namespace RegexAutomaton

namespace Indexed

open Checked Node

variable {ε : Type}

/-! ## Guards -/

theorem guardOfSet_eq (set : CharSet) : (guardOfSet set : Checked ε _) = answer (.ok (.ofSet set)) := by
  obtain ⟨negated, members⟩ := set
  rw [guardOfSet, Guard.ofSet]
  split
  · rfl
  · rcases members with _ | ⟨r, _ | ⟨r', members⟩⟩ <;> cases negated <;> rfl

theorem guard?_eq (kind : NodeKind) : (guard? kind : Checked ε _) = answer (.ok (Guard.ofKind? kind)) := by
  cases kind with
  | bracket set => rw [guard?, guardOfSet_eq]; rfl
  | collapsedStart set => rw [guard?, guardOfSet_eq]; rfl
  | _ => rfl

/-! ## One round -/

/-- The draft of a node, as far as the nodes on the left say. -/
def draftOf (nodes : List Node) (p : Past) (j : Nat) (node : Node) (guard : Guard) : Draft where
  guard
  repetition := (p.repetitions.reverse.lookup j).getD .once
  group := node.group.map (rank nodes)
  fail := (p.fallbacks.lookup j).map (rank nodes)
  next := node.next
  close := node.close
  endsGroup := node.endsGroup
  opensGroup := node.kind == .groupOpen

/-- What the rounds before an index keep up. -/
structure Keeps (nodes : List Node) (index : Nat) (p : Past) (s : Drafting) : Prop where
  length_numbers : s.numbers.length = nodes.length
  numbers : ∀ j < nodes.length, s.numbers[j]? = some (if j < index then stateOf? nodes j else none)
  length_drafts : s.drafts.length = rank nodes index
  drafts : ∀ j < index, ∀ node guard, nodes[j]? = some node → Guard.ofKind? node.kind = some guard →
    s.drafts[rank nodes j]? = some (draftOf nodes p j node guard)
  groups : s.groups = p.groups.map (rank nodes)
  books : s.books = p.books.map (Book.map (rank nodes))
  atom : s.atom = p.atom.map (rank nodes)

namespace Keeps

variable {nodes : List Node} {index : Nat} {p : Past} {s : Drafting} {node : Node}

theorem fresh (nodes : List Node) : Keeps nodes 0 .empty (.fresh nodes) where
  length_numbers := List.length_map _
  numbers j hj := by simp [Drafting.fresh, hj]
  length_drafts := rfl
  drafts := nofun
  groups := rfl
  books := rfl
  atom := rfl

theorem bearsState_of_guard {kind : NodeKind} {guard : Guard} (h : Guard.ofKind? kind = some guard) :
    kind.bearsState = true := by
  rw [← Guard.isSome_ofKind?, h]
  rfl

/-- Different nodes have different numbers. -/
theorem rank_inj {i j : Nat} (hi : Past.IsBearer nodes index i) (hj : Past.IsBearer nodes index j)
    (h : rank nodes i = rank nodes j) : i = j := by
  obtain ⟨-, node, hnode, hbears⟩ := hi
  obtain ⟨-, node', hnode', hbears'⟩ := hj
  rcases Nat.lt_trichotomy i j with hlt | heq | hgt
  · exact absurd h (Nat.ne_of_lt (rank_lt hnode hbears hlt))
  · exact heq
  · exact absurd h (Nat.ne_of_gt (rank_lt hnode' hbears' hgt))

/-- A node that bears no state has no number, and drafts may only change in what the node
says of those on its left. -/
theorem idle (h : Keeps nodes index p s) (hnode : nodes[index]? = some node) (hidle : node.kind.bearsState = false)
    {s' : Drafting} (hnumbers : s'.numbers = s.numbers) (hlength : s'.drafts.length = s.drafts.length)
    (hdrafts : ∀ j < index, ∀ node' guard, nodes[j]? = some node' → Guard.ofKind? node'.kind = some guard →
      s'.drafts[rank nodes j]? = some (draftOf nodes (p.after index node.kind) j node' guard))
    (hgroups : s'.groups = (node.kind.groupsAfter index p.groups).map (rank nodes))
    (hbooks : s'.books = (Book.after index node.kind p.books).map (Book.map (rank nodes)))
    (hatom : s'.atom = (Past.atomAfter index p.atom node.kind).map (rank nodes)) :
    Keeps nodes (index + 1) (p.after index node.kind) s' where
  length_numbers := by rw [hnumbers, h.length_numbers]
  numbers j hj := by
    rw [hnumbers, h.numbers j hj]
    by_cases hindex : j = index
    · have hnone : stateOf? nodes index = none := by simp [stateOf?, hnode, hidle]
      rw [hindex, if_neg (Nat.lt_irrefl index), if_pos (Nat.lt_succ_self index), hnone]
    · have hlt : j < index + 1 ↔ j < index := by omega
      simp only [hlt]
  length_drafts := by
    rw [hlength, h.length_drafts, rank_succ, hnode]
    simp [hidle]
  drafts j hj node' guard hnode' hguard := by
    refine hdrafts j (Nat.lt_of_le_of_ne (Nat.le_of_lt_succ hj) fun heq => ?_) node' guard hnode' hguard
    subst heq
    obtain rfl := Option.some.inj (hnode.symm.trans hnode')
    rw [bearsState_of_guard hguard] at hidle
    cases hidle
  groups := hgroups
  books := hbooks
  atom := hatom

/-- What such a node says of no other changes no draft. -/
theorem draftOf_after (hidle : node.kind.bearsState = false) (hrepeated : Past.repeated p.atom node.kind = [])
    (j : Nat) (node' : Node) (guard : Guard) :
    draftOf nodes (p.after index node.kind) j node' guard = draftOf nodes p j node' guard := by
  simp only [draftOf, Past.after, hrepeated, Book.found, hidle, Bool.false_eq_true, if_false, List.append_nil]

theorem books_after (h : Keeps nodes index p s) (kind : NodeKind) :
    Book.after (rank nodes index) kind s.books = (Book.after index kind p.books).map (Book.map (rank nodes)) := by
  rw [h.books, Book.after_map]

/-- A quantifier changes the draft of its atom. -/
theorem quantifier (h : Keeps nodes index p s) (hsound : p.Sound nodes index) (hnode : nodes[index]? = some node)
    {q : Quantifier} (hkind : node.kind = .quantifier q) {a : Nat} (ha : p.atom = some a) :
    ∃ s', (do let drafts ← change s.drafts (rank nodes a) fun d => { d with repetition := q.repetition }
              pure { s with drafts } : Checked ε _) = answer (.ok s') ∧
      Keeps nodes (index + 1) (p.after index node.kind) s' := by
  have hbearer := hsound.atom a ha
  obtain ⟨hlt, atom, hatom, hbears⟩ := hbearer
  have hinside : rank nodes a < s.drafts.length := by
    rw [h.length_drafts]
    exact rank_lt hatom hbears hlt
  rw [change_eq hinside, answer_ok_bind, pure_eq]
  have hidle : node.kind.bearsState = false := by rw [hkind]; rfl
  refine ⟨_, rfl, h.idle hnode hidle rfl (List.length_modify ..) (fun j hj node' guard hnode' hguard => ?_) ?_ ?_ ?_⟩
  · have hj' : Past.IsBearer nodes index j := ⟨hj, node', hnode', bearsState_of_guard hguard⟩
    rw [List.getElem?_modify, h.drafts j hj node' guard hnode' hguard]
    simp only [draftOf, Past.after, hkind, Past.repeated, ha, Book.found, NodeKind.bearsState]
    by_cases heq : a = j
    · subst heq
      simp
    · have hne : rank nodes a ≠ rank nodes j := fun hrank => heq (rank_inj (hsound.atom a ha) hj' hrank)
      have hother : (j == a) = false := beq_false_of_ne fun hja => heq hja.symm
      simp [hne, List.lookup_cons, hother]
  · rw [hkind]
    exact h.groups
  · rw [hkind]
    exact h.books
  · rw [hkind]
    exact h.atom

theorem awaiting_map (f : Nat → Nat) (books : List Book) :
    (books.map (Book.map f)).flatMap (·.awaiting) = (books.flatMap (·.awaiting)).map f := by
  rw [List.flatMap_map, List.map_flatMap]
  rfl

/-- The states that wait for a node fall back to it. -/
theorem exists_settled (h : Keeps nodes index p s) (hsound : p.Sound nodes index) (number : Nat) :
    ∃ drafts, ((s.books.flatMap (·.awaiting)).foldlM
        (fun drafts waiting => change drafts waiting fun d => { d with fail := some number }) s.drafts : Checked ε _) =
        answer (.ok drafts) ∧ drafts.length = s.drafts.length ∧
      ∀ j < index, ∀ node guard, nodes[j]? = some node → Guard.ofKind? node.kind = some guard →
        drafts[rank nodes j]? = some (if j ∈ p.books.flatMap (·.awaiting)
          then { draftOf nodes p j node guard with fail := some number } else draftOf nodes p j node guard) := by
  have hbearer : ∀ j ∈ p.books.flatMap (·.awaiting), Past.IsBearer nodes index j := fun j hj =>
    (hsound.listed j (List.mem_append_left _ hj)).1
  have hinside : ∀ i ∈ s.books.flatMap (·.awaiting), i < s.drafts.length := by
    rw [h.books, awaiting_map, h.length_drafts]
    intro i hi
    obtain ⟨j, hj, rfl⟩ := List.mem_map.1 hi
    obtain ⟨hlt, node, hnode, hbears⟩ := hbearer j hj
    exact rank_lt hnode hbears hlt
  obtain ⟨drafts, hloop, hlength, hentries⟩ :=
    @exists_foldlM_change ε Draft s.drafts _ (fun d => { d with fail := some number }) (fun _ => rfl) hinside
  refine ⟨drafts, hloop, hlength, fun j hj node guard hnode hguard => ?_⟩
  have hmem : rank nodes j ∈ s.books.flatMap (·.awaiting) ↔ j ∈ p.books.flatMap (·.awaiting) := by
    rw [h.books, awaiting_map, List.mem_map]
    refine ⟨fun ⟨i, hi, hrank⟩ => ?_, fun hj => ⟨j, hj, rfl⟩⟩
    exact rank_inj (hbearer i hi) ⟨hj, node, hnode, bearsState_of_guard hguard⟩ hrank ▸ hi
  rw [hentries, h.drafts j hj node guard hnode hguard, Option.map_some]
  simp only [hmem]

theorem lookup_map_const (l : List Nat) (value : Nat) {j : Nat} (hj : j ∈ l) :
    (l.map (·, value)).lookup j = some value := by
  induction l with
  | nil => cases hj
  | cons i l ih =>
    rw [List.map_cons, List.lookup_cons]
    by_cases heq : j = i
    · simp [heq]
    · have hne : (j == i) = false := beq_false_of_ne heq
      simp only [hne]
      exact ih ((List.mem_cons.1 hj).resolve_left heq)

/-- A fallback that is found is one of those that wait. -/
theorem lookup_fallbacks_after (hsound : p.Sound nodes index) (hbears : node.kind.bearsState = true) (j : Nat) :
    (p.after index node.kind).fallbacks.lookup j =
      if j ∈ p.books.flatMap (·.awaiting) then some index else p.fallbacks.lookup j := by
  rw [Past.after, List.lookup_append]
  by_cases hj : j ∈ p.books.flatMap (·.awaiting)
  · rw [if_pos hj, (hsound.listed j (List.mem_append_left _ hj)).2, Option.none_or, Book.found, if_pos hbears,
      lookup_map_const _ _ hj]
  · rw [if_neg hj, Past.Sound.lookup_found_eq_none hj, Option.or_none]

theorem repeated_of_bears (hbears : node.kind.bearsState = true) (atom : Option Nat) :
    Past.repeated atom node.kind = [] := by
  cases hkind : node.kind <;> first | rfl | (rw [hkind] at hbears; cases hbears)

theorem atomAfter_of_bears (hbears : node.kind.bearsState = true) (atom : Option Nat) :
    Past.atomAfter index atom node.kind = some index := by
  cases hkind : node.kind <;> first | rfl | (rw [hkind] at hbears; cases hbears)

theorem groups_after (h : Keeps nodes index p s) (hbears : node.kind.bearsState = true) :
    (if (node.kind == .groupOpen) = true then s.drafts.length :: s.groups else s.groups) =
      (node.kind.groupsAfter index p.groups).map (rank nodes) := by
  rw [h.length_drafts, h.groups]
  cases hkind : node.kind <;> first | rfl | (rw [hkind] at hbears; cases hbears)

/-- A new draft has nothing yet but what its node says. -/
theorem new_draft (h : Keeps nodes index p s) (hof : p.Of nodes index) (hsound : p.Sound nodes index)
    (hnode : nodes[index]? = some node) {guard : Guard} (hguard : Guard.ofKind? node.kind = some guard) :
    ⟨guard, .once, s.groups.head?, none, node.next, node.close, node.endsGroup, node.kind == .groupOpen⟩ =
      draftOf nodes (p.after index node.kind) index node guard := by
  have hbears := bearsState_of_guard hguard
  have hwired := hof.wired
  rw [drop_of_getElem? hnode] at hwired
  have hgroup : s.groups.head? = node.group.map (rank nodes) := by
    rw [h.groups, List.head?_map, hwired.1.group, Outlook.groupsAround_of_bears hbears]
  have hwaiting : index ∉ p.books.flatMap (·.awaiting) := fun hmem =>
    hsound.not_mem_listed (List.mem_append_left _ hmem)
  have hrepetition : p.repetitions.reverse.lookup index = none := by
    refine List.lookup_eq_none_iff.2 fun found hfound => ?_
    have hlt := (hsound.repetitions found (List.mem_reverse.1 hfound)).1
    have hne : index ≠ found.1 := by omega
    exact bne_iff_ne.2 hne
  simp only [draftOf, lookup_fallbacks_after hsound hbears, if_neg hwaiting, hsound.lookup_eq_none (Nat.le_refl _),
    Option.map_none, hgroup]
  rw [Past.after, repeated_of_bears hbears, List.append_nil, hrepetition]
  rfl

/-- The state of a node is drafted. -/
theorem draft (h : Keeps nodes index p s) (hof : p.Of nodes index) (hsound : p.Sound nodes index)
    (hnode : nodes[index]? = some node) {guard : Guard} (hguard : Guard.ofKind? node.kind = some guard) :
    ∃ s', (s.draft index node guard : Checked ε _) = answer (.ok s') ∧
      Keeps nodes (index + 1) (p.after index node.kind) s' := by
  have hbears := bearsState_of_guard hguard
  have hindex := (List.getElem?_eq_some_iff.1 hnode).1
  have hrank : rank nodes (index + 1) = rank nodes index + 1 := by
    rw [rank_succ, hnode]
    simp [hbears]
  obtain ⟨drafts, hloop, hlength, hdrafts⟩ := h.exists_settled hsound s.drafts.length
  rw [Drafting.draft, change_eq (h.length_numbers.symm ▸ hindex), answer_ok_bind]
  dsimp only
  rw [hloop, answer_ok_bind, pure_eq]
  refine ⟨_, rfl, ⟨?_, ?_, ?_, ?_, ?_, ?_, ?_⟩⟩
  · rw [List.length_modify, h.length_numbers]
  · intro j hj
    rw [List.getElem?_modify, h.numbers j hj]
    by_cases heq : index = j
    · subst heq
      have hstate : stateOf? nodes index = some s.drafts.length := by simp [stateOf?, hnode, hbears, h.length_drafts]
      simp [hstate]
    · have hlt : j < index + 1 ↔ j < index := by omega
      simp [heq, hlt]
  · rw [List.length_append, hlength, h.length_drafts, hrank]
    rfl
  · intro j hj node' guard' hnode' hguard'
    rcases Nat.lt_succ_iff_lt_or_eq.1 hj with hlt | rfl
    · have hinside : rank nodes j < drafts.length := by
        rw [hlength, h.length_drafts]
        exact rank_lt hnode' (bearsState_of_guard hguard') hlt
      rw [List.getElem?_append_left hinside, hdrafts j hlt node' guard' hnode' hguard']
      simp only [draftOf, lookup_fallbacks_after hsound hbears, h.length_drafts]
      rw [Past.after, repeated_of_bears hbears, List.append_nil]
      split <;> rfl
    · obtain rfl := Option.some.inj (hnode.symm.trans hnode')
      obtain rfl := Option.some.inj (hguard.symm.trans hguard')
      have hlast : rank nodes j = drafts.length := by rw [hlength, h.length_drafts]
      rw [hlast, List.getElem?_concat_length]
      exact congrArg some (h.new_draft hof hsound hnode hguard)
  · exact h.groups_after hbears
  · rw [h.length_drafts, h.books_after]
    rfl
  · rw [Past.after, atomAfter_of_bears hbears, h.length_drafts]
    rfl

/-- **A round goes on to the next node.** -/
theorem step (h : Keeps nodes index p s) (hof : p.Of nodes index) (hsound : p.Sound nodes index)
    (hnode : nodes[index]? = some node) :
    ∃ s', (s.step nodes index : Checked ε _) = answer (.ok s') ∧
      Keeps nodes (index + 1) (p.after index node.kind) s' := by
  rw [Drafting.step, entry_eq hnode, answer_ok_bind, guard?_eq, answer_ok_bind]
  cases hguard : Guard.ofKind? node.kind with
  | some guard => exact h.draft hof hsound hnode hguard
  | none =>
    have hidle : node.kind.bearsState = false := by rw [← Guard.isSome_ofKind?, hguard]; rfl
    have hbooks := h.books_after node.kind
    rw [← h.length_drafts] at hbooks
    have hstays (hrepeated : Past.repeated p.atom node.kind = []) (j : Nat) (hj : j < index) (node' : Node)
        (guard : Guard) (hnode' : nodes[j]? = some node') (hguard' : Guard.ofKind? node'.kind = some guard) :
        s.drafts[rank nodes j]? = some (draftOf nodes (p.after index node.kind) j node' guard) := by
      rw [draftOf_after hidle hrepeated]
      exact h.drafts j hj node' guard hnode' hguard'
    -- A node that is neither a quantifier nor the end of a group changes the books only.
    have hnoted (hrepeated : Past.repeated p.atom node.kind = [])
        (hgroups : node.kind.groupsAfter index p.groups = p.groups)
        (hatom : Past.atomAfter index p.atom node.kind = p.atom) :
        Keeps nodes (index + 1) (p.after index node.kind)
          { s with books := Book.after s.drafts.length node.kind s.books } :=
      h.idle hnode hidle rfl rfl (hstays hrepeated) (by rw [hgroups, h.groups]) hbooks (by rw [hatom, h.atom])
    obtain ⟨kind, offset, length, next, close, around, endsGroup⟩ := node
    cases kind with
    | quantifier q =>
      cases hatom : p.atom with
      | none =>
        have hnone : s.atom = none := by rw [h.atom, hatom]; rfl
        refine ⟨_, ?_, hnoted (by rw [hatom]; rfl) rfl rfl⟩
        rw [hnone]
        rfl
      | some a =>
        have hsome : s.atom = some (rank nodes a) := by rw [h.atom, hatom]; rfl
        obtain ⟨s', hs', hnext⟩ := h.quantifier (ε := ε) hsound hnode rfl hatom
        refine ⟨s', ?_, hnext⟩
        rw [← hs', hsome]
    | groupClose opened =>
      refine ⟨_, rfl, h.idle hnode hidle rfl rfl (hstays rfl) ?_ h.books ?_⟩
      · rw [h.groups, ← List.map_tail]
        rfl
      · have hwired := hof.wired
        rw [drop_of_getElem? hnode] at hwired
        rw [h.groups, List.head?_map, hwired.1.opened opened rfl]
        rfl
    | alternationStart | bar | alternationEnd | collapsedEnd | inert | sentinel =>
      exact ⟨_, rfl, hnoted rfl rfl rfl⟩
    | groupOpen | literal _ | bracket _ | dot | anchorStart | anchorEnd | collapsedStart _ => cases hidle

end Keeps

/-! ## The end of the loop -/

variable {nodes : List Node} {p : Past} {s : Drafting}

theorem exists_drafting (h : Wired [] 0 nodes) :
    ∃ p s, ((List.range nodes.length).foldlM (Drafting.step nodes) (.fresh nodes) : Checked ε _) = answer (.ok s) ∧
      Past.Of nodes nodes.length p ∧ Past.Sound nodes nodes.length p ∧ Keeps nodes nodes.length p s := by
  let Holds (i : Nat) (s : Drafting) : Prop := ∃ p, Past.Of nodes i p ∧ Past.Sound nodes i p ∧ Keeps nodes i p s
  have hfirst : Holds 0 (.fresh nodes) := ⟨_, Past.of_empty h, Past.sound_empty nodes, .fresh nodes⟩
  have hround (i : Nat) (hi : i < nodes.length) (s : Drafting) (hs : Holds i s) :
      ∃ s', (s.step nodes i : Checked ε _) = answer (.ok s') ∧ Holds (i + 1) s' := by
    obtain ⟨p, hof, hsound, hkeeps⟩ := hs
    have hnode : nodes[i]? = some nodes[i] := List.getElem?_eq_getElem hi
    obtain ⟨s', hstep, hkeeps'⟩ := hkeeps.step (ε := ε) hof hsound hnode
    exact ⟨s', hstep, _, hof.after hnode, hsound.after hof hnode, hkeeps'⟩
  obtain ⟨s, hloop, p, hof, hsound, hkeeps⟩ := exists_foldlM_range hfirst hround
  exact ⟨p, s, hloop, hof, hsound, hkeeps⟩

theorem target_eq (h : Keeps nodes nodes.length p s) (otherwise : Nat) {link : Option Nat}
    (hlink : ∀ t, link = some t → t < nodes.length) :
    (s.target otherwise link : Checked ε _) = answer (.ok (targetState nodes otherwise link)) := by
  cases link with
  | none => rfl
  | some t =>
    have hentry := h.numbers t (hlink t rfl)
    rw [if_pos (hlink t rfl)] at hentry
    rw [Drafting.target, entry_eq hentry]
    rfl

/-- A link to a node that bears a state leads to the number of that node. -/
theorem getD_map_rank (otherwise : Nat) {link : Option Nat}
    (hlink : ∀ t, link = some t → Past.IsBearer nodes nodes.length t) :
    (link.map (rank nodes)).getD otherwise = targetState nodes otherwise link := by
  cases link with
  | none => rfl
  | some t =>
    obtain ⟨-, node, hnode, hbears⟩ := hlink t rfl
    rw [targetState_of_bears hnode hbears]
    rfl

/-- **A draft turns into the state of its node.** -/
theorem close_eq (hwired : Wired [] 0 nodes) (hrange : InRange nodes) (hof : p.Of nodes nodes.length)
    (hsound : p.Sound nodes nodes.length) (h : Keeps nodes nodes.length p s) {j : Nat} {state : State}
    (hstate : state? nodes j = some state) :
    ∃ d, s.drafts[rank nodes j]? = some d ∧ (s.close d (rank nodes j) : Checked ε _) = answer (.ok state) := by
  obtain ⟨node, hnode, hstate⟩ := Option.bind_eq_some_iff.1 hstate
  obtain ⟨guard, hguard, hstate⟩ := Option.bind_eq_some_iff.1 hstate
  obtain rfl := Option.some.inj hstate
  have hmem := List.mem_of_getElem? hnode
  have hbears := Keeps.bearsState_of_guard hguard
  refine ⟨_, h.drafts j (List.getElem?_eq_some_iff.1 hnode).1 node guard hnode hguard, ?_⟩
  have hrepetition : (draftOf nodes p j node guard).repetition = repetitionOf nodes j := by
    have hall := hof.repetitions
    rw [List.drop_length, quantified, List.append_nil] at hall
    rw [repetitionOf, hall]
    rfl
  have hfail : (draftOf nodes p j node guard).fail.getD (s.drafts.length + 1) =
      targetState nodes (rank nodes nodes.length + 1) (fallback? nodes j) := by
    have hall := hof.fallbacks
    rw [List.drop_length, Book.fallbacks, List.append_nil] at hall
    rw [fallback?, hall, h.length_drafts]
    refine getD_map_rank _ fun t ht => ?_
    obtain ⟨left, right, hsplit, -⟩ := List.lookup_eq_some_iff.1 ht
    exact (hsound.fallbacks (j, t) (hsplit ▸ List.mem_append_right _ List.mem_cons_self)).2
  have hgroup : (draftOf nodes p j node guard).group.getD (s.drafts.length + 1) =
      targetState nodes (rank nodes nodes.length + 1) node.group := by
    rw [h.length_drafts]
    refine getD_map_rank _ fun g hg => ?_
    rcases hwired.exists_groupOpen hnode hg with hmem | ⟨i, -, rfl, start, hstart, hkind⟩
    · cases hmem
    · rw [Nat.zero_add]
      exact ⟨(List.getElem?_eq_some_iff.1 hstart).1, start, hstart, by rw [hkind]; rfl⟩
  have hclose : (s.afterGroup (draftOf nodes p j node guard) : Checked ε _) =
      answer (.ok (if node.kind = .groupOpen then targetState nodes (rank nodes nodes.length) node.close
        else rank nodes nodes.length)) := by
    show (if node.kind == .groupOpen then s.target s.drafts.length node.close
      else pure s.drafts.length : Checked ε _) = _
    rw [h.length_drafts]
    by_cases hkind : node.kind = .groupOpen
    · rw [if_pos (beq_iff_eq.2 hkind), if_pos hkind, target_eq h _ (hrange.close node hmem hkind)]
    · rw [if_neg (fun hbeq => hkind (beq_iff_eq.1 hbeq)), if_neg hkind]
      rfl
  rw [Drafting.close, hrepetition, hfail, hgroup]
  refine (congrArg (· >>= _) (target_eq h _ (hrange.next node hmem hbears))).trans ?_
  have hmember : (draftOf nodes p j node guard).group.isSome = node.group.isSome := Option.isSome_map
  rw [answer_ok_bind, hclose, answer_ok_bind, h.length_drafts, hmember]
  rfl

/-- The ways out are looked up within the tables. -/
theorem connect_eq (s : State) {count i : Nat} (hi : i < count - 2) :
    (connect count s i : Checked ε _) = answer (.ok s.connected) := by
  have hprimary : primaryTable = Flags.table Flags.primary := by decide
  have hfailed : failedTable = Flags.table Flags.failed := by decide
  have hlookahead : lookaheadTable = Flags.table Flags.lookahead := by decide
  rw [connect, if_neg (Nat.not_le.2 hi), hprimary, hfailed, hlookahead, entry_eq (Flags.table_bits _ _), answer_ok_bind,
    entry_eq (Flags.table_bits _ _), answer_ok_bind, entry_eq (Flags.table_bits _ _), answer_ok_bind]
  rfl

theorem getElem?_zipIdx_iff {α : Type} {l : List α} {i k : Nat} {a : α} :
    l.zipIdx[i]? = some (a, k) ↔ l[i]? = some a ∧ k = i := by
  rw [List.getElem?_zipIdx, Option.map_eq_some_iff]
  simp [eq_comm]

/-- **The automaton built by index is that of the list.** -/
theorem build_eq {list : NodeList} (hwired : Wired [] 0 list.nodes) (hrange : InRange list.nodes) :
    (build list : Checked ε _) = answer (.ok (.ofNodeList list)) := by
  obtain ⟨p, s, hloop, hof, hsound, hkeeps⟩ := @exists_drafting ε _ hwired
  have hlength : s.drafts.length = (states list.nodes).length :=
    hkeeps.length_drafts.trans (length_filterMap_state? list.nodes list.nodes.length).symm
  have hdrafted : (s.drafts.zipIdx.mapM fun part => s.close part.1 part.2 : Checked ε _) =
      answer (.ok (states list.nodes)) := by
    refine mapM_eq (by rw [List.length_zipIdx, hlength]) fun i part hd => ?_
    obtain ⟨d, number⟩ := part
    obtain ⟨hd, hnumber⟩ := getElem?_zipIdx_iff.1 hd
    have hi : i < (states list.nodes).length := hlength ▸ (List.getElem?_eq_some_iff.1 hd).1
    have hstate : (states list.nodes)[i]? = some (states list.nodes)[i] := List.getElem?_eq_getElem hi
    obtain ⟨j, hj, rfl⟩ := exists_state?_of_getElem? hstate
    obtain ⟨d', hd', hclose⟩ := @close_eq ε _ _ _ hwired hrange hof hsound hkeeps _ _ hj
    obtain rfl := Option.some.inj (hd.symm.trans hd')
    exact ⟨_, hnumber ▸ hclose, hstate⟩
  have hconnected (a b : State) : ((states list.nodes ++ [a, b]).zipIdx.mapM fun part =>
      connect (states list.nodes ++ [a, b]).length part.1 part.2 : Checked ε _) =
      answer (.ok ((states list.nodes).map State.connected ++ [a.looped, b.looped])) := by
    have hcount : (states list.nodes ++ [a, b]).length - 2 = (states list.nodes).length := by simp
    refine mapM_eq (by simp) fun i part hstate => ?_
    obtain ⟨state, number⟩ := part
    obtain ⟨hstate, rfl⟩ := getElem?_zipIdx_iff.1 hstate
    by_cases hi : number < (states list.nodes).length
    · rw [List.getElem?_append_left hi] at hstate
      rw [List.getElem?_append_left (by rwa [List.length_map]), List.getElem?_map, hstate]
      exact ⟨_, connect_eq state (hcount.symm ▸ hi), rfl⟩
    · have hlast : (connect (states list.nodes ++ [a, b]).length state number : Checked ε _) =
          answer (.ok state.looped) := if_pos (by omega)
      refine ⟨_, hlast, ?_⟩
      rw [List.getElem?_append_right (Nat.not_lt.1 hi)] at hstate
      rw [List.getElem?_append_right (by rw [List.length_map]; exact Nat.not_lt.1 hi), List.length_map]
      have hlooped := congrArg (Option.map State.looped) hstate
      rwa [← List.getElem?_map] at hlooped
  rw [build, hloop, answer_ok_bind]
  dsimp only
  rw [hdrafted, answer_ok_bind, hconnected, answer_ok_bind, hkeeps.length_drafts, ← Automaton.states_ofNodeList]
  rfl

end Indexed

end RegexAutomaton

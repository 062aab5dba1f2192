/-
Where quantifiers lie.

A quantifier lies right behind what it repeats, with no marker and nothing rewritten away
between them (`NodeKind.Adjoin`). So the token behind a node that is left is a quantifier
if and only if the next node is one (`Attached.token_iff`), and every quantifier lies
behind the atom of exactly one node (`Attached.existsUnique_quantifies`).
-/
import RegexAutomaton.Proofs.GroupSpans
import RegexAutomaton.Proofs.NodeSpans

namespace RegexAutomaton

/-- The token that is read at a place of a pattern. -/
def Token.at? (encoding : Encoding) (pattern : List Char) (place : Nat) : Option Token :=
  match pattern.drop place with
  | [] => none
  | c :: rest => (read encoding place c rest).toOption.map (·.1)

theorem Token.at?_eq_some_iff {encoding : Encoding} {pattern : List Char} {place : Nat} {t : Token} :
    at? encoding pattern place = some t ↔
      ∃ c rest width, pattern.drop place = c :: rest ∧ read encoding place c rest = .ok (t, width) := by
  constructor
  · intro h
    unfold at? at h
    split at h
    · cases h
    · next c rest hdrop =>
      cases hread : read encoding place c rest with
      | error e =>
        rw [hread] at h
        cases h
      | ok piece =>
        rw [hread] at h
        obtain rfl : piece.1 = t := Option.some.inj h
        exact ⟨c, rest, piece.2, hdrop, hread⟩
  · rintro ⟨c, rest, width, hdrop, hread⟩
    simp only [at?, hdrop, hread]
    rfl

/-- The repetition that is asked for at a place of a pattern, where a quantifier may be
read. -/
def Token.repetitionAt? (encoding : Encoding) (pattern : List Char) (place : Nat) : Option Repetition :=
  match at? encoding pattern place with
  | some (.quantifier q) => some q.repetition
  | _ => none

theorem Token.repetitionAt?_eq_some_iff {encoding : Encoding} {pattern : List Char} {place : Nat} {r : Repetition} :
    repetitionAt? encoding pattern place = some r ↔
      ∃ q, at? encoding pattern place = some (.quantifier q) ∧ q.repetition = r := by
  unfold repetitionAt?
  split
  · next q htoken => simp [htoken]
  · next hnot =>
    constructor
    · intro h
      cases h
    · rintro ⟨q, htoken, -⟩
      exact (hnot q htoken).elim

theorem Token.at?_length (encoding : Encoding) (pattern : List Char) : at? encoding pattern pattern.length = none := by
  simp only [at?, List.drop_length]

namespace NodeKind

/-- Whether the node takes no room in the pattern. -/
def isEmpty : NodeKind → Bool
  | alternationStart | alternationEnd | collapsedEnd | sentinel => true
  | _ => false

/-- Whether a quantifier may come right behind the node. -/
def takesQuantifier : NodeKind → Bool
  | literal [_] | bracket _ | dot | groupClose _ => true
  | _ => false

/-- A quantifier comes only right behind a node that takes one. -/
def Adjoin (before after : NodeKind) : Prop := after.repetition?.isSome = true → before.takesQuantifier = true

/-- The node whose atom ends with the node at the given index, unless that starts a group. -/
def atom? (index : Nat) : NodeKind → Option Nat
  | groupClose opened => some opened
  | kind => if kind.bearsState then some index else none

variable {before after : NodeKind}

theorem atom?_of_bears (h : before.bearsState = true) (index : Nat) : before.atom? index = some index := by
  cases before <;> first | rfl | cases h

theorem exists_atom?_of_takesQuantifier (h : before.takesQuantifier = true) (index : Nat) :
    before ≠ .groupOpen ∧ ∃ i, before.atom? index = some i := by
  cases before with
  | literal | bracket | dot => exact ⟨by simp, index, rfl⟩
  | groupClose o => exact ⟨by simp, o, rfl⟩
  | _ => cases h

theorem takesQuantifier_of_repetition? {r : Repetition} (h : before.repetition? = some r) :
    before.takesQuantifier = false := by
  cases before <;> first | rfl | cases h

/-- What takes a quantifier takes room, and is no quantifier. -/
theorem plain_of_takesQuantifier (h : before.takesQuantifier = true) :
    before.isEmpty = false ∧ before ≠ .inert ∧ before.repetition? = none := by
  cases before with
  | literal | bracket | dot | groupClose => simp [isEmpty, repetition?]
  | _ => cases h

theorem takesQuantifier_of_choice? {set : CharSet} (h : Collapse.choice? before = some set) :
    before.takesQuantifier = true := by
  rcases Collapse.choice?_eq_some h with ⟨c, rfl, -⟩ | ⟨rfl, -⟩ | ⟨rfl, -⟩ <;> rfl

theorem adjoin_of_repetition?_eq_none (h : after.repetition? = none) : Adjoin before after := by
  intro hquantifier
  rw [h] at hquantifier
  cases hquantifier

theorem MayMeet.adjoin (h : MayMeet before after) (hbefore : ∀ run, before = .literal run → ∃ c, run = [c]) :
    Adjoin before after := by
  intro hquantifier
  have hrepeatable := h hquantifier
  cases before with
  | literal run =>
    obtain ⟨c, rfl⟩ := hbefore run rfl
    rfl
  | bracket | dot | groupClose => rfl
  | _ => cases hrepeatable

end NodeKind

/-! ## Nodes where quantifiers lie -/

namespace Node

variable {encoding : Encoding} {pattern : List Char} {nodes : List Node} {node : Node}

/-- The node is a quantifier if one lies in its place. -/
structure Placed (encoding : Encoding) (pattern : List Char) (node : Node) : Prop where
  empty : node.kind.isEmpty = true → node.length = 0
  token : node.kind.isEmpty = false → node.kind ≠ .inert →
    ∀ q, Token.at? encoding pattern node.offset = some (.quantifier q) ↔ node.kind = .quantifier q
  wide : ∀ q, node.kind = .quantifier q → 0 < node.length

namespace Placed

theorem of_empty (h : node.kind.isEmpty = true) (hlength : node.length = 0) : node.Placed encoding pattern where
  empty _ := hlength
  token hroom := by
    rw [h] at hroom
    cases hroom
  wide q hq := by
    rw [hq] at h
    cases h

theorem of_inert (h : node.kind = .inert) : node.Placed encoding pattern where
  empty hempty := by
    rw [h] at hempty
    cases hempty
  token _ hlive := absurd h hlive
  wide q hq := by
    rw [h] at hq
    cases hq

theorem of_not_quantifier (hroom : node.kind.isEmpty = false) (hkind : node.kind.repetition? = none)
    (htoken : ∀ q, Token.at? encoding pattern node.offset ≠ some (.quantifier q)) : node.Placed encoding pattern := by
  have hnot (q : Quantifier) : node.kind ≠ .quantifier q := by
    intro hq
    rw [hq] at hkind
    cases hkind
  refine ⟨fun hempty => ?_, fun _ _ q => ?_, fun q hq => absurd hq (hnot q)⟩
  · rw [hroom] at hempty
    cases hempty
  · exact ⟨fun h => absurd h (htoken q), fun h => absurd h (hnot q)⟩

theorem not_quantifier (h : node.Placed encoding pattern) (htakes : node.kind.takesQuantifier = true) (q : Quantifier) :
    Token.at? encoding pattern node.offset ≠ some (.quantifier q) := by
  obtain ⟨hroom, hlive, hkind⟩ := NodeKind.plain_of_takesQuantifier htakes
  intro htoken
  rw [(h.token hroom hlive q).1 htoken] at hkind
  cases hkind

theorem of_unlinked {node' : Node} (h : node.Placed encoding pattern) (heq : node.unlinked = node'.unlinked) :
    node'.Placed encoding pattern := by
  obtain ⟨kind, offset, length, next, close, group, endsGroup⟩ := node
  simp only [unlinked, mk.injEq] at heq
  obtain ⟨rfl, rfl, rfl, -⟩ := heq
  exact ⟨h.empty, h.token, h.wide⟩

end Placed

/-- Quantifiers lie where they do in the pattern, and right behind what they repeat. -/
structure Attached (encoding : Encoding) (pattern : List Char) (nodes : List Node) : Prop where
  covers : Covers encoding pattern nodes
  placed : ∀ node ∈ nodes, node.Placed encoding pattern
  adjoin : List.IsChain NodeKind.Adjoin (.sentinel :: nodes.map (·.kind))

theorem placed_ofItem (groups : List Nat) {item : Spanned Item} (h : Item.ReadAt encoding pattern item) :
    (ofItem groups item).Placed encoding pattern := by
  cases h with
  | start | finish => exact .of_empty rfl rfl
  | @token t offset width c rest hdrop hread =>
    have hempty : (NodeKind.ofItem groups (.token t)).isEmpty = false := by
      rcases t with (_ | _ | _) | _ | _ | _ | _ | _ | _ <;> rfl
    have hquantifier (q : Quantifier) : NodeKind.ofItem groups (.token t) = .quantifier q ↔ t = .quantifier q := by
      rcases t with (_ | _ | _) | _ | _ | _ | _ | _ | _ <;> simp [NodeKind.ofItem]
    refine ⟨fun h => ?_, fun _ _ q => ?_, fun _ _ => (Token.fits_read encoding hread).1⟩
    · cases hempty.symm.trans h
    · show Token.at? encoding pattern offset = _ ↔ NodeKind.ofItem groups (.token t) = _
      rw [Token.at?_eq_some_iff.2 ⟨c, rest, width, hdrop, hread⟩, hquantifier, Option.some.injEq]

theorem attached_ofItems {p : Phrase} (h : (Token.read encoding).Reads 0 pattern p.tokens)
    (hchain : List.IsChain Role.Admits (.start :: (p.roles ++ [.finish]))) :
    Attached encoding pattern (NodeList.ofItems (p.body 0 pattern.length) pattern.length).nodes where
  covers := covers_ofItems h
  placed := by
    rw [NodeList.ofItems, List.forall_mem_append]
    constructor
    · intro node hnode
      obtain ⟨item, hitem, groups, rfl⟩ := exists_of_mem_ofItems hnode
      exact placed_ofItem groups (Phrase.readAt_body h _ _ item hitem)
    · intro node hnode
      rcases List.mem_pair.1 hnode with rfl | rfl <;> exact .of_empty rfl rfl
  adjoin := by
    refine (steady_of_phrase pattern.length hchain).imp_of_mem_imp fun before after hbefore _ hmeet => ?_
    refine hmeet.adjoin fun run hrun => ?_
    subst hrun
    rcases List.mem_cons.1 hbefore with h | hbefore
    · cases h
    · obtain ⟨node, hnode, hkind⟩ := List.mem_map.1 hbefore
      rw [NodeList.ofItems, List.mem_append] at hnode
      rcases hnode with hnode | hnode
      · obtain ⟨⟨value, offset, width⟩, -, groups, rfl⟩ := exists_of_mem_ofItems hnode
        rcases value with ((symbol | _ | _) | _ | _ | _ | _ | _ | _) | _ | _
        case token.atom.literal => exact ⟨symbol, (NodeKind.literal.inj hkind).symm⟩
        all_goals cases hkind
      · rcases List.mem_pair.1 hnode with rfl | rfl <;> cases hkind

/-! ## The passes -/

/-- A set lies where its first choice does. -/
theorem placed_rewrite_collapse (nodes : List Node) : ∀ first last, Abut first (spans nodes) last →
    (∀ node ∈ nodes, node.Placed encoding pattern) →
      ∀ node ∈ Collapse.rewrite false nodes, node.Placed encoding pattern := by
  induction nodes using Collapse.rewrite_induction with
  | nil => exact fun _ _ _ h => h
  | keep node rest _ ih =>
    intro first last habut h
    obtain ⟨hnode, hrest⟩ := List.forall_mem_cons.1 h
    obtain ⟨place, hlater⟩ := exists_abut_of_cons habut
    exact List.forall_mem_cons.2 ⟨hnode, ih _ _ hlater hrest⟩
  | set start inner finish sets right hstart hinner hfinish ih =>
    intro first last habut h
    obtain ⟨hwhole, hright⟩ := List.forall_mem_append.1 h
    obtain ⟨hplaced, hlater⟩ := List.forall_mem_cons.1 hwhole
    obtain ⟨hbranches, hend⟩ := List.forall_mem_append.1 hlater
    have hwide : start.length = 0 := hplaced.empty (by rw [hstart]; rfl)
    rw [spans_append] at habut
    obtain ⟨middle, hspans, hrest⟩ := Abut.append_iff.1 habut
    have hset : (start.asSet finish sets).Placed encoding pattern := by
      obtain ⟨branch, more, set, rfl, hchoice⟩ : ∃ branch more set, inner = branch :: more ∧
          Collapse.choice? branch.kind = some set := by
        cases hinner with
        | one hchoice => exact ⟨_, _, _, rfl, hchoice⟩
        | more hchoice => exact ⟨_, _, _, rfl, hchoice⟩
      have htakes := NodeKind.takesQuantifier_of_choice? hchoice
      have hlive := (NodeKind.plain_of_takesQuantifier htakes).2.1
      rw [Collapse.whole, spans_cons (by simp [hstart]), List.cons_append, spans_cons hlive, hwide] at hspans
      have hoffset : branch.offset = start.offset := hspans.2.1
      refine .of_not_quantifier rfl rfl fun q => ?_
      show Token.at? encoding pattern start.offset ≠ _
      rw [← hoffset]
      exact (hbranches branch List.mem_cons_self).not_quantifier htakes q
    refine List.forall_mem_append.2
      ⟨List.forall_mem_cons.2 ⟨hset, List.forall_mem_append.2 ⟨?_, ?_⟩⟩, ih _ _ hrest hright⟩
    · intro node hnode
      obtain ⟨branch, -, rfl⟩ := List.mem_map.1 hnode
      exact .of_inert rfl
    · have hempty : finish.length = 0 := (hend finish List.mem_cons_self).empty (by rw [hfinish]; rfl)
      exact List.forall_mem_singleton.2 (.of_empty rfl hempty)

theorem placed_rewrite_coalesce (inside : Bool) (nodes : List Node) (h : ∀ node ∈ nodes, node.Placed encoding pattern) :
    ∀ node ∈ Coalesce.rewrite inside nodes, node.Placed encoding pattern := by
  induction inside, nodes using Coalesce.rewrite_induction with
  | nil => exact h
  | keep inside node rest _ ih =>
    obtain ⟨hnode, hrest⟩ := List.forall_mem_cons.1 h
    exact List.forall_mem_cons.2 ⟨hnode, ih hrest⟩
  | first node rest c hlone ih =>
    obtain ⟨hnode, hrest⟩ := List.forall_mem_cons.1 h
    have htakes : node.kind.takesQuantifier = true := by
      rw [(Coalesce.lone?_eq_some hlone).1]
      rfl
    exact List.forall_mem_cons.2 ⟨.of_not_quantifier rfl rfl (hnode.not_quantifier htakes), ih hrest⟩
  | later node rest c hlone ih =>
    exact List.forall_mem_cons.2 ⟨.of_inert rfl, ih (List.forall_mem_cons.1 h).2⟩

/-- Behind a lone literal no quantifier comes, so anything may stand in its place. -/
theorem adjoin_of_lone {rest : List Node} {c : Char} (hlone : Coalesce.lone? node rest = some c) {before : NodeKind}
    (h : List.IsChain NodeKind.Adjoin (before :: (Coalesce.rewrite true rest).map (·.kind))) (kind : NodeKind) :
    List.IsChain NodeKind.Adjoin (kind :: (Coalesce.rewrite true rest).map (·.kind)) := by
  refine List.isChain_cons.2 ⟨fun after hafter => ?_, (List.isChain_cons.1 h).2⟩
  have hfirst := (Coalesce.quantifierFirst_rewrite true rest).trans (Coalesce.lone?_eq_some hlone).2
  cases hrest : Coalesce.rewrite true rest with
  | nil =>
    rw [hrest] at hafter
    cases hafter
  | cons later more =>
    rw [hrest] at hfirst hafter
    obtain rfl : later.kind = after := Option.some.inj hafter
    exact NodeKind.adjoin_of_repetition?_eq_none (Option.isSome_eq_false_iff.1 hfirst |> Option.isNone_iff_eq_none.1)

theorem adjoin_rewrite_coalesce (inside : Bool) (nodes : List Node) : ∀ before,
    List.IsChain NodeKind.Adjoin (before :: nodes.map (·.kind)) →
      List.IsChain NodeKind.Adjoin (before :: (Coalesce.rewrite inside nodes).map (·.kind)) := by
  induction inside, nodes using Coalesce.rewrite_induction with
  | nil => exact fun _ h => h
  | keep inside node rest _ ih =>
    intro before h
    obtain ⟨hmeet, hrest⟩ := List.isChain_cons_cons.1 h
    exact List.isChain_cons_cons.2 ⟨hmeet, ih _ hrest⟩
  | first node rest c hlone ih | later node rest c hlone ih =>
    intro before h
    have hrest := ih _ (List.isChain_cons_cons.1 h).2
    exact List.isChain_cons_cons.2 ⟨NodeKind.adjoin_of_repetition?_eq_none rfl, adjoin_of_lone hlone hrest _⟩

namespace Attached

theorem collapse (h : Attached encoding pattern nodes) : Attached encoding pattern (collapse nodes) where
  covers := h.covers.collapse
  placed := placed_rewrite_collapse nodes _ _ h.covers.abut h.placed
  adjoin := (Collapse.collapses_rewrite nodes).isChain (fun _ _ => NodeKind.adjoin_of_repetition?_eq_none)
    (fun _ hadjoin hquantifier => by cases hadjoin hquantifier) .sentinel h.adjoin

theorem coalesce (h : Attached encoding pattern nodes) : Attached encoding pattern (coalesce nodes) where
  covers := h.covers.coalesce
  placed := placed_rewrite_coalesce false nodes h.placed
  adjoin := adjoin_rewrite_coalesce false nodes .sentinel h.adjoin

theorem linkNodes (h : Attached encoding pattern nodes) : Attached encoding pattern (linkNodes nodes) where
  covers := h.covers.linkNodes
  placed := by
    intro node hnode
    obtain ⟨node', hnode', heq⟩ := exists_of_mem_linkNodes hnode
    exact (h.placed node' hnode').of_unlinked heq
  adjoin := by
    rw [RegexAutomaton.linkNodes, Outlook.map_kind_passAll]
    exact h.adjoin

/-- **No pass moves a quantifier away from what it repeats.** -/
theorem runAll (h : Attached encoding pattern nodes) (passes : List Pass) :
    Attached encoding pattern (Pass.runAll passes nodes) :=
  Pass.runAll_induction (motive := Attached encoding pattern) (fun _ => Attached.collapse)
    (fun _ => Attached.coalesce) (fun _ => Attached.linkNodes) passes h

end Attached

/-! ## The token behind a node -/

/-- Where a quantifier lies, nodes from there on start with it. -/
theorem exists_quantifier_of_token {place : Nat} {q : Quantifier} (habut : Abut place (spans nodes) pattern.length)
    (hplaced : ∀ node ∈ nodes, node.Placed encoding pattern)
    (hadjoin : List.IsChain NodeKind.Adjoin (nodes.map (·.kind)))
    (htoken : Token.at? encoding pattern place = some (.quantifier q)) :
    ∃ node rest, nodes = node :: rest ∧ node.kind = .quantifier q := by
  induction nodes generalizing place with
  | nil =>
    obtain rfl : place = pattern.length := habut
    rw [Token.at?_length] at htoken
    cases htoken
  | cons node rest ih =>
    obtain ⟨hnode, hrest⟩ := List.forall_mem_cons.1 hplaced
    refine ⟨node, rest, rfl, ?_⟩
    -- A node that takes no room would be followed by the quantifier, which takes it for no atom.
    have hidle (hlater : Abut place (spans rest) pattern.length) (hkind : node.kind.takesQuantifier = false) :
        False := by
      obtain ⟨later, more, rfl, hlaterKind⟩ := ih hlater hrest (List.isChain_cons.1 hadjoin).2 htoken
      have hmeet : NodeKind.Adjoin node.kind later.kind := (List.isChain_cons_cons.1 hadjoin).1
      rw [hlaterKind] at hmeet
      exact Bool.false_ne_true (hkind.symm.trans (hmeet rfl))
    by_cases hinert : node.kind = .inert
    · rw [spans_cons_inert hinert] at habut
      exact (hidle habut (by rw [hinert]; rfl)).elim
    · rw [spans_cons hinert] at habut
      obtain ⟨rfl, hlater⟩ := habut
      cases hempty : node.kind.isEmpty with
      | false => exact (hnode.token hempty hinert q).1 htoken
      | true =>
        rw [hnode.empty hempty] at hlater
        refine (hidle hlater ?_).elim
        cases hkind : node.kind <;> rw [hkind] at hempty <;> first | rfl | cases hempty

namespace Attached

variable {t j j' : Nat} {last node' : Node} {q q' : Quantifier}

theorem abut_behind (h : Attached encoding pattern nodes) (hlast : nodes[t]? = some last) (hlive : last.kind ≠ .inert) :
    Abut last.finish (spans (nodes.drop (t + 1))) pattern.length :=
  Node.abut_behind h.covers.abut hlast hlive

theorem finish_le_offset (h : Attached encoding pattern nodes) (hnode : nodes[j]? = some node)
    (hlive : node.kind ≠ .inert) (hnode' : nodes[j']? = some node') (hlive' : node'.kind ≠ .inert) (hlt : j < j') :
    node.finish ≤ node'.offset := by
  have hmem : node' ∈ nodes.drop (j + 1) := by
    refine List.mem_of_getElem? (i := j' - (j + 1)) ?_
    rw [List.getElem?_drop, Nat.add_sub_cancel' hlt, hnode']
  refine (h.abut_behind hnode hlive).le_of_mem (node'.offset, node'.length) ?_
  exact List.mem_map.2 ⟨node', List.mem_filter.2 ⟨hmem, by simpa using hlive'⟩, rfl⟩

theorem offset_behind (h : Attached encoding pattern nodes) (hlast : nodes[t]? = some last) (hlive : last.kind ≠ .inert)
    (hnode : nodes[t + 1]? = some node) (hnext : node.kind ≠ .inert) : node.offset = last.finish := by
  have habut := h.abut_behind hlast hlive
  rw [drop_of_getElem? hnode, spans_cons hnext] at habut
  exact habut.1

/-- **The token behind a node is a quantifier** if and only if the next node is one. -/
theorem token_iff (h : Attached encoding pattern nodes) (hlast : nodes[t]? = some last) (hlive : last.kind ≠ .inert) :
    Token.at? encoding pattern last.finish = some (.quantifier q) ↔ kindAt? nodes (t + 1) = some (.quantifier q) := by
  constructor
  · intro htoken
    have hplaced : ∀ node ∈ nodes.drop (t + 1), node.Placed encoding pattern :=
      fun node hnode => h.placed node (List.mem_of_mem_drop hnode)
    have hadjoin : List.IsChain NodeKind.Adjoin ((nodes.drop (t + 1)).map (·.kind)) := by
      rw [List.map_drop]
      exact (List.isChain_cons.1 h.adjoin).2.drop _
    obtain ⟨node, rest, hdrop, hkind⟩ := exists_quantifier_of_token (h.abut_behind hlast hlive) hplaced hadjoin htoken
    rw [kindAt?, getElem?_of_drop hdrop, Option.map_some, hkind]
  · intro hnext
    obtain ⟨node, hnode, hkind⟩ := exists_of_kindAt? hnext
    have hnot : node.kind ≠ .inert := by simp [hkind]
    rw [← h.offset_behind hlast hlive hnode hnot]
    exact ((h.placed node (List.mem_of_getElem? hnode)).token (by rw [hkind]; rfl) hnot q).2 hkind

/-- Quantifiers lie in different places. -/
theorem eq_of_offset (h : Attached encoding pattern nodes) (hnode : nodes[j]? = some node)
    (hkind : node.kind = .quantifier q) (hnode' : nodes[j']? = some node') (hkind' : node'.kind = .quantifier q')
    (hoffset : node.offset = node'.offset) : j = j' := by
  have hwide := (h.placed node (List.mem_of_getElem? hnode)).wide q hkind
  have hwide' := (h.placed node' (List.mem_of_getElem? hnode')).wide q' hkind'
  have hlive : node.kind ≠ .inert := by simp [hkind]
  have hlive' : node'.kind ≠ .inert := by simp [hkind']
  rcases Nat.lt_trichotomy j j' with hlt | heq | hlt
  · have hle := h.finish_le_offset hnode hlive hnode' hlive' hlt
    unfold finish at hle
    omega
  · exact heq
  · have hle := h.finish_le_offset hnode' hlive' hnode hlive hlt
    unfold finish at hle
    omega

end Attached

/-! ## Atoms -/

/-- The atom of the node at `i` ends with the node at `t`: that of a group with its end,
that of any other node with the node itself. -/
inductive AtomEnd (nodes : List Node) (i : Nat) : (t : Nat) → Prop
  | single {kind : NodeKind} (hkind : kindAt? nodes i = some kind) (hbears : kind.bearsState = true)
      (hopen : kind ≠ .groupOpen) : AtomEnd nodes i i
  | group {c : Nat} (h : Group nodes i c) : AtomEnd nodes i c

/-- The quantifier at `j` lies right behind the atom of the node at `i`. -/
def Quantifies (nodes : List Node) (j i : Nat) : Prop :=
  ∃ t last node q, AtomEnd nodes i t ∧ nodes[t]? = some last ∧ nodes[j]? = some node ∧ node.kind = .quantifier q ∧
    node.offset = last.finish

variable {i i' j j' t t' : Nat} {kind : NodeKind}

theorem atomEnd_iff (h : GroupsMatch nodes) (hkind : kindAt? nodes t = some kind) (hopen : kind ≠ .groupOpen) :
    AtomEnd nodes i t ↔ kind.atom? t = some i := by
  constructor
  · intro hatom
    cases hatom with
    | single hkind' hbears =>
      obtain rfl := Option.some.inj (hkind.symm.trans hkind')
      exact NodeKind.atom?_of_bears hbears _
    | group hgroup =>
      obtain rfl := Option.some.inj (hkind.symm.trans (h.ends i t hgroup))
      rfl
  · intro hatom
    unfold NodeKind.atom? at hatom
    split at hatom
    · obtain rfl := Option.some.inj hatom
      exact .group (h.closes _ t hkind)
    · split at hatom
      · next hbears =>
        obtain rfl := Option.some.inj hatom
        exact .single hkind hbears hopen
      · cases hatom

namespace AtomEnd

theorem exists_last (h : AtomEnd nodes i t) :
    ∃ last, nodes[t]? = some last ∧ last.kind ≠ .groupOpen ∧ last.kind ≠ .inert := by
  cases h with
  | single hkind hbears hopen =>
    obtain ⟨last, hlast, rfl⟩ := exists_of_kindAt? hkind
    refine ⟨last, hlast, hopen, fun hinert => ?_⟩
    rw [hinert] at hbears
    cases hbears
  | group h =>
    obtain ⟨g, hg⟩ := h.exists_close
    obtain ⟨last, hlast, hkind⟩ := exists_of_kindAt? hg
    exact ⟨last, hlast, by simp [hkind], by simp [hkind]⟩

/-- A node has one atom. -/
theorem eq (h : AtomEnd nodes i t) (h' : AtomEnd nodes i t') : t = t' := by
  cases h with
  | single hkind _ hopen =>
    cases h' with
    | single => rfl
    | group h' => exact absurd (Option.some.inj (hkind.symm.trans h'.1)) hopen
  | group h =>
    cases h' with
    | single hkind _ hopen => exact absurd (Option.some.inj (hkind.symm.trans h.1)) hopen
    | group h' => exact h.eq h'

/-- Different nodes have different atoms. -/
theorem inj (hmatch : GroupsMatch nodes) (h : AtomEnd nodes i t) (h' : AtomEnd nodes i' t) : i = i' := by
  obtain ⟨last, hlast, hopen, -⟩ := h.exists_last
  have hkind : kindAt? nodes t = some last.kind := by rw [kindAt?, hlast, Option.map_some]
  exact Option.some.inj (((atomEnd_iff hmatch hkind hopen).1 h).symm.trans ((atomEnd_iff hmatch hkind hopen).1 h'))

end AtomEnd

theorem Quantifies.exists_bearer (h : Quantifies nodes j i) :
    ∃ node, nodes[i]? = some node ∧ node.kind.bearsState = true := by
  obtain ⟨t, -, -, -, hatom, -⟩ := h
  cases hatom with
  | single hkind hbears =>
    obtain ⟨node, hnode, rfl⟩ := exists_of_kindAt? hkind
    exact ⟨node, hnode, hbears⟩
  | group hgroup =>
    obtain ⟨node, hnode, hkind⟩ := exists_of_kindAt? hgroup.1
    exact ⟨node, hnode, by rw [hkind]; rfl⟩

theorem exists_atomEnd (h : GroupsMatch nodes) (hkind : kindAt? nodes i = some kind) (hbears : kind.bearsState = true) :
    ∃ t, AtomEnd nodes i t := by
  by_cases hopen : kind = .groupOpen
  · subst hopen
    obtain ⟨c, hgroup⟩ := h.opens i hkind
    exact ⟨c, .group hgroup⟩
  · exact ⟨i, .single hkind hbears hopen⟩

namespace Attached

variable {q : Quantifier}

/-- Before a quantifier there is a node that takes one. -/
theorem exists_takesQuantifier_before (h : Attached encoding pattern nodes)
    (hj : kindAt? nodes j = some (.quantifier q)) :
    ∃ t kind, j = t + 1 ∧ kindAt? nodes t = some kind ∧ kind.takesQuantifier = true := by
  have hkinds : (nodes.map (·.kind))[j]? = some (.quantifier q) := by rw [List.getElem?_map]; exact hj
  obtain ⟨hlt, hget⟩ := List.getElem?_eq_some_iff.1 hkinds
  have hmeet := List.isChain_iff_getElem.1 h.adjoin j (Nat.succ_lt_succ hlt)
  rw [List.getElem_cons_succ, hget] at hmeet
  cases j with
  | zero => cases hmeet rfl
  | succ t =>
    have htakes := hmeet rfl
    rw [List.getElem_cons_succ] at htakes
    refine ⟨t, _, rfl, ?_, htakes⟩
    rw [kindAt?, ← List.getElem?_map, List.getElem?_eq_getElem]

/-- A quantifier comes behind an atom. -/
theorem exists_atom_before (h : Attached encoding pattern nodes) (hmatch : GroupsMatch nodes)
    (hj : kindAt? nodes j = some (.quantifier q)) : ∃ i t, AtomEnd nodes i t ∧ j = t + 1 := by
  obtain ⟨t, kind, rfl, hkind, htakes⟩ := h.exists_takesQuantifier_before hj
  obtain ⟨hopen, i, hatom⟩ := NodeKind.exists_atom?_of_takesQuantifier htakes t
  exact ⟨i, t, (atomEnd_iff hmatch hkind hopen).2 hatom, rfl⟩

theorem quantifies_iff (h : Attached encoding pattern nodes) :
    Quantifies nodes j i ↔ ∃ t q, AtomEnd nodes i t ∧ j = t + 1 ∧ kindAt? nodes j = some (.quantifier q) := by
  constructor
  · rintro ⟨t, last, node, q, hatom, hlast, hnode, hkind, hoffset⟩
    obtain ⟨_, hlast', -, hlive⟩ := hatom.exists_last
    obtain rfl := Option.some.inj (hlast.symm.trans hlast')
    have hquantifier : kindAt? nodes j = some (.quantifier q) := by rw [kindAt?, hnode, Option.map_some, hkind]
    have htoken := ((h.placed node (List.mem_of_getElem? hnode)).token (by rw [hkind]; rfl) (by simp [hkind]) q).2 hkind
    rw [hoffset, h.token_iff hlast hlive] at htoken
    obtain ⟨next, hnext, hnextKind⟩ := exists_of_kindAt? htoken
    have hsame := h.offset_behind hlast hlive hnext (by simp [hnextKind])
    exact ⟨t, q, hatom, h.eq_of_offset hnode hkind hnext hnextKind (hoffset.trans hsame.symm), hquantifier⟩
  · rintro ⟨t, q, hatom, rfl, hquantifier⟩
    obtain ⟨last, hlast, -, hlive⟩ := hatom.exists_last
    obtain ⟨node, hnode, hkind⟩ := exists_of_kindAt? hquantifier
    exact ⟨t, last, node, q, hatom, hlast, hnode, hkind, h.offset_behind hlast hlive hnode (by simp [hkind])⟩

/-- **Every quantifier repeats one node.** -/
theorem existsUnique_quantifies (h : Attached encoding pattern nodes) (hmatch : GroupsMatch nodes)
    (hj : kindAt? nodes j = some (.quantifier q)) : ∃! i, Quantifies nodes j i := by
  obtain ⟨i, t, hatom, rfl⟩ := h.exists_atom_before hmatch hj
  refine ⟨i, h.quantifies_iff.2 ⟨t, q, hatom, rfl, hj⟩, fun i' hi' => ?_⟩
  obtain ⟨t', -, hatom', heq, -⟩ := h.quantifies_iff.1 hi'
  obtain rfl := Nat.succ.inj heq
  exact hatom'.inj hmatch hatom

/-- **No node is repeated by two quantifiers.** -/
theorem eq_of_quantifies (h : Attached encoding pattern nodes) (hj : Quantifies nodes j i)
    (hj' : Quantifies nodes j' i) : j = j' := by
  obtain ⟨t, -, hatom, rfl, -⟩ := h.quantifies_iff.1 hj
  obtain ⟨t', -, hatom', rfl, -⟩ := h.quantifies_iff.1 hj'
  rw [hatom.eq hatom']

end Attached

end Node

end RegexAutomaton
